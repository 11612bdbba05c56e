import Mathlib.Data.Rat.Init
import Mathlib.Algebra.Order.Ring.Rat
import Mosaic.SpecDecode.Metadata
import Mosaic.Table.Buffer
import Mosaic.Tensor.MachineInt

/-!
# Rejection sampler

The kernels run one program for each request. A program finds the draft tokens of its request by the
running sums of the counts and stores into its row of the output. One kernel is for greedy requests,
the other one for requests that sample, and each leaves the requests of the other alone. Addresses
are computed with 32 bits.
-/

namespace SpecDecode

open List Buffer MachineInt

def placeholderTokenId : ℤ := -1

def greedyTemperature : ℚ := -1

abbrev Store := ℕ × ℤ

/-- What the graphics processor decides: which of several largest values is the largest, in which
order the programs of a launch store, and what is in memory before and behind a tensor. -/
structure Device where
  argmax : List ℚ → ℕ
  argmax_lt : ∀ row, row ≠ [] → argmax row < row.length
  order : List (List Store) → List Store
  order_perm : ∀ programs, (order programs).Perm programs.flatten
  outside : ℤ → ℚ

/-- A contiguous tensor with two dimensions. -/
structure ProbTensor where
  numRows : ℕ
  numCols : ℕ
  data : List ℚ
  filled : data.length = numRows * numCols

def ProbTensor.row (t : ProbTensor) (k : ℕ) : List ℚ :=
  (t.data.drop (k * t.numCols)).take t.numCols

structure TokenTensor where
  numRows : ℕ
  numCols : ℕ
  data : List ℤ
  deriving DecidableEq, Repr

structure SamplingMetadata where
  temperature : Option (List ℚ)
  allGreedy : Bool
  allRandom : Bool
  deriving DecidableEq, Repr

/-- The random numbers of a call, and what a new tensor holds. -/
structure Draws where
  uniformProbs : List ℚ
  q : List ℚ
  uninitialized : List ℤ

section Kernels

variable {α : Type}

def load [Inhabited α] (buffer : List α) (i : ℕ) : α :=
  buffer.getD i default

/-- The address of an entry of a row, with 64 bits if a row needs them. -/
def entry (rowSize row : ℕ) (id : ℤ) : ℤ :=
  result (!decide (Fits rowSize)) ((row * rowSize : ℕ) + id)

def Device.read (device : Device) (data : List ℚ) (address : ℤ) : ℚ :=
  if 0 ≤ address ∧ address < data.length then load data address.toNat
  else device.outside address

/-- A store in front of the tensor is lost for it. -/
def storeAt (address : ℕ) (token : ℤ) : List Store :=
  if 0 ≤ narrow address then [((narrow address).toNat, token)] else []

def startIdx (cuNumDraftTokens : List ℕ) (reqIdx : ℕ) : ℕ :=
  if reqIdx = 0 then 0 else load cuNumDraftTokens (reqIdx - 1)

/-- The loop of both kernels over the draft tokens. A sample is the token to store, and whether the
draft token was rejected. -/
def sampleLoop (base numDraftTokens : ℕ) (sample : ℕ → ℤ × Bool) : List Store × Bool :=
  (List.range numDraftTokens).foldl
    (fun (stores, rejected) pos =>
      if rejected then (stores, rejected)
      else (stores ++ storeAt (base + pos) (sample pos).1, (sample pos).2)) ([], false)

def rejectionKernel (base numDraftTokens : ℕ) (sample : ℕ → ℤ × Bool) (bonusTokenId : ℤ) :
    List Store :=
  let (stores, rejected) := sampleLoop base numDraftTokens sample
  if rejected then stores else stores ++ storeAt (base + numDraftTokens) bonusTokenId

def isGreedyRequest (isGreedy : Option (List Bool)) (reqIdx : ℕ) : Bool :=
  match isGreedy with
  | none => true
  | some flags => load flags reqIdx

def rejectionGreedySampleKernel (cuNumDraftTokens : List ℕ) (draftTokenIds targetArgmax
    bonusTokenIds : List ℤ) (isGreedy : Option (List Bool)) (maxSpecLen reqIdx : ℕ) : List Store :=
  if !isGreedyRequest isGreedy reqIdx then []
  else
    let start := startIdx cuNumDraftTokens reqIdx
    let stop := load cuNumDraftTokens reqIdx
    rejectionKernel (reqIdx * (maxSpecLen + 1)) (stop - start)
      (fun pos =>
        let draftTokenId := load draftTokenIds (start + pos)
        let targetArgmaxId := load targetArgmax (start + pos)
        (targetArgmaxId, decide (draftTokenId ≠ targetArgmaxId)))
      (load bonusTokenIds reqIdx)

def rejectionRandomSampleKernel (device : Device) (cuNumDraftTokens : List ℕ)
    (draftTokenIds : List ℤ) (draftProbs : Option ProbTensor) (targetProbs : ProbTensor)
    (bonusTokenIds recoveredTokenIds : List ℤ) (uniformProbs : List ℚ) (isGreedy : List Bool)
    (maxSpecLen vocabSize reqIdx : ℕ) : List Store :=
  if load isGreedy reqIdx then []
  else
    let start := startIdx cuNumDraftTokens reqIdx
    let stop := load cuNumDraftTokens reqIdx
    rejectionKernel (reqIdx * (maxSpecLen + 1)) (stop - start)
      (fun pos =>
        let draftTokenId := load draftTokenIds (start + pos)
        let draftProb := match draftProbs with
          | none => 1
          | some probs => device.read probs.data (entry vocabSize (start + pos) draftTokenId)
        let targetProb := device.read targetProbs.data (entry vocabSize (start + pos) draftTokenId)
        let uniformProb := load uniformProbs (start + pos)
        if 0 < draftProb ∧ uniformProb ≤ targetProb / draftProb then (draftTokenId, false)
        else (load recoveredTokenIds (start + pos), true))
      (load bonusTokenIds reqIdx)

/-- The probability of the draft token is zero only until the program has read its row. -/
def sampleRecoveredTokensKernel (device : Device) (cuNumDraftTokens : List ℕ)
    (draftTokenIds : List ℤ) (draftProbs : Option ProbTensor) (targetProbs : ProbTensor)
    (q : List ℚ) (vocabSize reqIdx pos : ℕ) : List Store :=
  let start := startIdx cuNumDraftTokens reqIdx
  let stop := load cuNumDraftTokens reqIdx
  if stop - start ≤ pos then []
  else
    let token := start + pos
    let prob := fun id : ℕ => match draftProbs with
      | none =>
        if entry vocabSize token id = entry vocabSize token (load draftTokenIds token) then 0
        else device.read targetProbs.data (entry vocabSize token id)
      | some probs => max (device.read targetProbs.data (entry vocabSize token id) -
          device.read probs.data (entry vocabSize token id)) 0
    let score := fun id : ℕ => prob id / device.read q (entry vocabSize reqIdx id)
    [(token, device.argmax ((List.range vocabSize).map score))]

def sampleRecoveredTokens (device : Device) (draws : Draws) (maxSpecLen : ℕ)
    (numDraftTokens cuNumDraftTokens : List ℕ) (draftTokenIds : List ℤ)
    (draftProbs : Option ProbTensor) (targetProbs : ProbTensor) : List ℤ :=
  writeAll draws.uninitialized (device.order
    ((List.range numDraftTokens.length).flatMap fun reqIdx =>
      (List.range maxSpecLen).map fun pos =>
        sampleRecoveredTokensKernel device cuNumDraftTokens draftTokenIds draftProbs targetProbs
          draws.q targetProbs.numCols reqIdx pos))

end Kernels

/-! ### Launches -/

structure Arguments where
  draftTokenIds : List ℤ
  numDraftTokens : List ℕ
  maxSpecLen : ℕ
  cuNumDraftTokens : List ℕ
  draftProbs : Option ProbTensor
  targetProbs : ProbTensor
  bonusTokenIds : List ℤ
  samplingMetadata : SamplingMetadata

namespace Arguments

variable (device : Device) (draws : Draws) (args : Arguments)

def isGreedy : Option (List Bool) :=
  if args.samplingMetadata.allGreedy then none
  else some ((args.samplingMetadata.temperature.getD []).map fun t =>
    decide (t = greedyTemperature))

def targetArgmax : List ℤ :=
  (List.range args.targetProbs.numRows).map fun k => (device.argmax (args.targetProbs.row k) : ℤ)

/-- The programs of the greedy kernel that are launched. -/
def greedyPrograms : List (List Store) :=
  if args.samplingMetadata.allRandom then []
  else (List.range args.numDraftTokens.length).map
    (rejectionGreedySampleKernel args.cuNumDraftTokens args.draftTokenIds
      (args.targetArgmax device) args.bonusTokenIds args.isGreedy args.maxSpecLen)

/-- The programs of the other kernel. A call for greedy requests only has returned before. -/
def randomPrograms : List (List Store) :=
  if !args.samplingMetadata.allRandom && args.samplingMetadata.allGreedy then []
  else (List.range args.numDraftTokens.length).map
    (rejectionRandomSampleKernel device args.cuNumDraftTokens args.draftTokenIds args.draftProbs
      args.targetProbs args.bonusTokenIds
      (sampleRecoveredTokens device draws args.maxSpecLen args.numDraftTokens
        args.cuNumDraftTokens args.draftTokenIds args.draftProbs args.targetProbs)
      draws.uniformProbs (args.isGreedy.getD []) args.maxSpecLen args.targetProbs.numCols)

end Arguments

def rejectionSample (device : Device) (draws : Draws) (args : Arguments) :
    Except SpecError TokenTensor := do
  if args.targetProbs.numRows ≠ args.draftTokenIds.length then throw .assertionError
  let out := List.replicate (args.numDraftTokens.length * (args.maxSpecLen + 1)) placeholderTokenId
  let out := writeAll out (device.order (args.greedyPrograms device))
  let out := writeAll out (device.order (args.randomPrograms device draws))
  pure ⟨args.numDraftTokens.length, args.maxSpecLen + 1, out⟩

def parseOutput (outputTokenIds : TokenTensor) (vocabSize : ℕ) : List (List ℤ) :=
  (rowsOf outputTokenIds.numCols outputTokenIds.numRows outputTokenIds.data).map fun row =>
    row.filter fun id => id != placeholderTokenId && decide (id < vocabSize)

/-! ### The loop of both kernels -/

/-- The tokens up to the first rejection. -/
def kept : List (ℤ × Bool) → List ℤ
  | [] => []
  | (token, rejected) :: rest => token :: if rejected then [] else kept rest

def stopped (samples : List (ℤ × Bool)) : Bool :=
  samples.any Prod.snd

/-- The tokens of a request. -/
def emitted (samples : List (ℤ × Bool)) (bonusTokenId : ℤ) : List ℤ :=
  if stopped samples then kept samples else kept samples ++ [bonusTokenId]

theorem stopped_cons (first : ℤ × Bool) (samples : List (ℤ × Bool)) :
    stopped (first :: samples) = (first.2 || stopped samples) :=
  any_cons

theorem stopped_append (samples : List (ℤ × Bool)) (sample : ℤ × Bool) :
    stopped (samples ++ [sample]) = (stopped samples || sample.2) := by
  simp [stopped]

theorem emitted_cons (token : ℤ) (rejected : Bool) (samples : List (ℤ × Bool)) (bonusTokenId : ℤ) :
    emitted ((token, rejected) :: samples) bonusTokenId =
      token :: if rejected then [] else emitted samples bonusTokenId := by
  rw [emitted, emitted, kept, stopped_cons]
  cases rejected with
  | true => rfl
  | false =>
    rw [Bool.false_or]
    split <;> rfl

theorem kept_append (samples : List (ℤ × Bool)) (sample : ℤ × Bool) :
    kept (samples ++ [sample]) =
      if stopped samples then kept samples else kept samples ++ [sample.1] := by
  induction samples with
  | nil =>
    rw [nil_append, kept, kept]
    split <;> rfl
  | cons first samples ih =>
    rw [cons_append, kept, kept, ih, stopped_cons]
    cases first.2 with
    | true => rfl
    | false => cases stopped samples <;> rfl

theorem length_kept {samples : List (ℤ × Bool)} (h : stopped samples = false) :
    (kept samples).length = samples.length := by
  induction samples with
  | nil => rfl
  | cons first samples ih =>
    rw [stopped_cons, Bool.or_eq_false_iff] at h
    rw [kept, h.1, length_cons, length_cons, if_neg Bool.false_ne_true, ih h.2]

theorem length_kept_le (samples : List (ℤ × Bool)) : (kept samples).length ≤ samples.length := by
  induction samples with
  | nil => exact le_rfl
  | cons first samples ih =>
    rw [kept, length_cons, length_cons]
    split
    · exact Nat.succ_le_succ (Nat.zero_le _)
    · exact Nat.succ_le_succ ih

theorem length_emitted_le (samples : List (ℤ × Bool)) (bonusTokenId : ℤ) :
    (emitted samples bonusTokenId).length ≤ samples.length + 1 := by
  have := length_kept_le samples
  rw [emitted]
  split
  · omega
  · rw [length_append, length_singleton]
    omega

theorem emitted_ne_nil (samples : List (ℤ × Bool)) (bonusTokenId : ℤ) :
    emitted samples bonusTokenId ≠ [] := by
  cases samples with
  | nil => exact cons_ne_nil _ _
  | cons first samples =>
    rw [emitted, kept]
    split <;> exact cons_ne_nil _ _

theorem mem_emitted {samples : List (ℤ × Bool)} {bonusTokenId id : ℤ}
    (h : id ∈ emitted samples bonusTokenId) :
    id = bonusTokenId ∨ ∃ sample ∈ samples, id = sample.1 := by
  have hkept : ∀ {xs : List (ℤ × Bool)}, id ∈ kept xs → ∃ sample ∈ xs, id = sample.1 := by
    intro xs
    induction xs with
    | nil => exact nofun
    | cons first xs ih =>
      intro hmem
      rcases mem_cons.mp hmem with heq | hrest
      · exact ⟨first, mem_cons_self, heq⟩
      · split at hrest
        · cases hrest
        · obtain ⟨sample, hsample, heq⟩ := ih hrest
          exact ⟨sample, mem_cons_of_mem _ hsample, heq⟩
  rw [emitted] at h
  split at h
  · exact .inr (hkept h)
  · rcases mem_append.mp h with hmem | hbonus
    · exact .inr (hkept hmem)
    · exact .inl (mem_singleton.mp hbonus)

theorem storeAt_of_lt {address : ℕ} (h : address < 2 ^ 31) (token : ℤ) :
    storeAt address token = [(address, token)] := by
  rw [storeAt, narrow_of_fits (fits_natCast h), if_pos (Int.natCast_nonneg _), Int.toNat_natCast]

/-- What the loop has stored after some positions, and whether it goes on. -/
theorem sampleLoop_eq {base n : ℕ} (h : base + n ≤ 2 ^ 31) (sample : ℕ → ℤ × Bool) :
    sampleLoop base n sample =
      (rowStores base (kept ((List.range n).map sample)),
        stopped ((List.range n).map sample)) := by
  induction n with
  | zero => rfl
  | succ n ih =>
    rw [sampleLoop, range_succ, foldl_append, ← sampleLoop, ih (by omega), map_append,
      map_singleton, kept_append, stopped_append]
    cases hstop : stopped ((List.range n).map sample) with
    | true => simp
    | false =>
      have hlen := length_kept hstop
      rw [length_map, length_range] at hlen
      simp [rowStores_append, rowStores, hlen, storeAt_of_lt (show base + n < 2 ^ 31 by omega)]

theorem rejectionKernel_eq {base n : ℕ} (h : base + n < 2 ^ 31) (sample : ℕ → ℤ × Bool)
    (bonusTokenId : ℤ) :
    rejectionKernel base n sample bonusTokenId =
      rowStores base (emitted ((List.range n).map sample) bonusTokenId) := by
  rw [rejectionKernel, sampleLoop_eq h.le, emitted]
  dsimp only
  cases hstop : stopped ((List.range n).map sample) with
  | true => rfl
  | false =>
    have hlen := length_kept hstop
    rw [length_map, length_range] at hlen
    rw [if_neg Bool.false_ne_true, if_neg Bool.false_ne_true, rowStores_append, hlen,
      storeAt_of_lt h]
    rfl

/-- How many draft tokens are the target's choice, from the first one on. -/
def numMatched (drafts targets : List ℤ) : ℕ :=
  ((drafts.zip targets).takeWhile fun p => p.1 = p.2).length

theorem emitted_greedy {drafts targets : List ℤ} (hlen : drafts.length = targets.length)
    (bonusTokenId : ℤ) :
    emitted (List.zipWith (fun draft target => (target, decide (draft ≠ target))) drafts targets)
        bonusTokenId =
      drafts.take (numMatched drafts targets) ++
        [(targets[numMatched drafts targets]?).getD bonusTokenId] := by
  induction drafts generalizing targets with
  | nil =>
    obtain rfl := length_eq_zero_iff.mp hlen.symm
    rfl
  | cons draft drafts ih =>
    obtain ⟨target, targets, rfl⟩ := exists_cons_of_length_eq_add_one hlen.symm
    have hrest := ih (Nat.succ.inj hlen)
    by_cases hsame : draft = target
    · subst hsame
      have hmatched : numMatched (draft :: drafts) (draft :: targets) =
          numMatched drafts targets + 1 := by
        simp [numMatched]
      rw [hmatched, take_succ_cons, getElem?_cons_succ, cons_append, ← hrest,
        zipWith_cons_cons, emitted_cons]
      simp
    · have hmatched : numMatched (draft :: drafts) (target :: targets) = 0 := by
        simp [numMatched, hsame]
      rw [hmatched, zipWith_cons_cons, emitted_cons]
      simp [hsame]

end SpecDecode
