import Mathlib.Data.List.MinMax
import Mathlib.Tactic.Linarith
import Mosaic.SpecDecode.RejectionSampler

/-!
# What each request is given

The arrays of a batch are the data of its requests behind each other. A call writes the tokens of a
request into its own row, from the data of this request alone: for a greedy request the draft up to
the target's first different choice, with the choice there or the bonus token behind it. For
requests that sample this needs tensors whose addresses fit into 32 bits.
-/

namespace SpecDecode

open List Buffer Ragged MachineInt

/-- The data of one request. The rows are the target's and the draft's probabilities over the
vocabulary, one for each draft token. -/
structure SpecRequest (vocabSize : ℕ) extends Scheduled where
  greedy : Bool
  temperature : ℚ
  positive : greedy = false → 0 < temperature
  targetProbs : List (List ℚ)
  targetRows : targetProbs.length = numDraft
  targetCols : ∀ row ∈ targetProbs, row.length = vocabSize
  draftProbs : List (List ℚ)
  draftRows : draftProbs.length = numDraft
  draftCols : ∀ row ∈ draftProbs, row.length = vocabSize
  bonusTokenId : ℤ
  bonusInVocab : 0 ≤ bonusTokenId ∧ bonusTokenId < vocabSize
  uniformProbs : List ℚ
  uniformLength : uniformProbs.length = numDraft
  q : List ℚ
  qLength : q.length = vocabSize

namespace SpecRequest

variable {vocabSize : ℕ} (device : Device) (withDraftProbs : Bool) (r : SpecRequest vocabSize)

def targetArgmax : List ℤ :=
  r.targetProbs.map fun row => (device.argmax row : ℤ)

/-- The longest prefix of the draft that the target would have chosen, and the next token. -/
def greedyTokens : List ℤ :=
  let matched := numMatched r.drafts (r.targetArgmax device)
  r.drafts.take matched ++ [((r.targetArgmax device)[matched]?).getD r.bonusTokenId]

def recoveredTokenId (pos : ℕ) : ℤ :=
  let target := load r.targetProbs pos
  let prob :=
    if withDraftProbs then
      List.zipWith (fun target draft => max (target - draft) 0) target (load r.draftProbs pos)
    else target.set (load r.drafts pos).toNat 0
  device.argmax (List.zipWith (· / ·) prob r.q)

def randomSample (pos : ℕ) : ℤ × Bool :=
  let draftTokenId := load r.drafts pos
  let draftProb := if withDraftProbs then load (load r.draftProbs pos) draftTokenId.toNat else 1
  let targetProb := load (load r.targetProbs pos) draftTokenId.toNat
  if 0 < draftProb ∧ load r.uniformProbs pos ≤ targetProb / draftProb then (draftTokenId, false)
  else (r.recoveredTokenId device withDraftProbs pos, true)

def randomTokens : List ℤ :=
  emitted ((List.range r.numDraft).map (r.randomSample device withDraftProbs)) r.bonusTokenId

/-- The tokens of a request, from its own data. -/
def output : List ℤ :=
  if r.greedy then r.greedyTokens device else r.randomTokens device withDraftProbs

/-- What the greedy kernel stores. -/
def greedyRow : List ℤ :=
  if r.greedy then r.greedyTokens device else []

/-- What the other kernel stores. -/
def randomRow : List ℤ :=
  if r.greedy then [] else r.randomTokens device withDraftProbs

end SpecRequest

/-! ### Batches -/

section Batches

variable {vocabSize : ℕ}

def makeSamplingMetadata (reqs : List (SpecRequest vocabSize)) : SamplingMetadata where
  temperature :=
    if reqs.all (·.greedy) then none
    else some (reqs.map fun r => if r.greedy then greedyTemperature else r.temperature)
  allGreedy := reqs.all (·.greedy)
  allRandom := reqs.all (!·.greedy)

theorem length_flatten_of_forall {rows : List (List ℚ)} (h : ∀ row ∈ rows, row.length = vocabSize) :
    rows.flatten.length = rows.length * vocabSize := by
  rw [List.length_flatten, map_congr_left h, map_const', sum_replicate, smul_eq_mul]

/-- The tensor of the rows of all requests. -/
def stack (rows : SpecRequest vocabSize → List (List ℚ))
    (hcols : ∀ r, ∀ row ∈ rows r, row.length = vocabSize) (reqs : List (SpecRequest vocabSize)) :
    ProbTensor where
  numRows := (reqs.flatMap rows).length
  numCols := vocabSize
  data := (reqs.flatMap rows).flatten
  filled := length_flatten_of_forall fun row hrow => by
    obtain ⟨r, -, hmem⟩ := mem_flatMap.mp hrow
    exact hcols r row hmem

def arguments (withDraftProbs : Bool) (reqs : List (SpecRequest vocabSize))
    (metadata : SpecDecodeMetadata) : Arguments where
  draftTokenIds := metadata.draftTokenIds
  numDraftTokens := metadata.numDraftTokens
  maxSpecLen := metadata.maxSpecLen
  cuNumDraftTokens := metadata.cuNumDraftTokens
  draftProbs :=
    if withDraftProbs then some (stack SpecRequest.draftProbs SpecRequest.draftCols reqs) else none
  targetProbs := stack SpecRequest.targetProbs SpecRequest.targetCols reqs
  bonusTokenIds := reqs.map SpecRequest.bonusTokenId
  samplingMetadata := makeSamplingMetadata reqs

/-- The random numbers of a call. -/
def drawsOf (reqs : List (SpecRequest vocabSize)) (uninitialized : List ℤ) : Draws where
  uniformProbs := reqs.flatMap SpecRequest.uniformProbs
  q := reqs.flatMap SpecRequest.q
  uninitialized

end Batches

/-! ### Loads -/

section Loads

variable {α ρ : Type} [Inhabited α] {row : ρ → List α} {len : ρ → ℕ} {rs : List ρ} {i k : ℕ} {r : ρ}

theorem load_flatMap (hlen : ∀ r ∈ rs, (row r).length = len r) (hr : rs[i]? = some r)
    (hk : k < len r) : load (rs.flatMap row) (startOf len rs i + k) = load (row r) k := by
  rw [load, load, getD_eq_getElem?_getD, getD_eq_getElem?_getD, getElem?_flatMap hlen hr hk]

theorem load_map (f : ρ → α) (hr : rs[i]? = some r) : load (rs.map f) i = f r := by
  rw [load, getD_eq_getElem?_getD, getElem?_map, hr]
  rfl

theorem load_cumsum (hr : rs[i]? = some r) :
    load (cumsum (rs.map len)) i = startOf len rs i + len r := by
  rw [load, getD_eq_getElem?_getD, cumsum, getElem?_cumsumFrom hr, zero_add]
  rfl

theorem startIdx_cumsum (hr : rs[i]? = some r) :
    startIdx (cumsum (rs.map len)) i = startOf len rs i := by
  cases i with
  | zero => rfl
  | succ i =>
    have hlt : i < rs.length := by
      have := (List.getElem?_eq_some_iff.mp hr).1
      omega
    have hprev : rs[i]? = some rs[i] := getElem?_eq_getElem hlt
    rw [startIdx, if_neg (Nat.succ_ne_zero i), Nat.add_sub_cancel, load_cumsum hprev,
      startOf_succ hprev]

/-- The addresses of a row fit into 32 bits, or are computed with 64. -/
def RowFits (rowSize row : ℕ) : Prop :=
  2 ^ 31 ≤ rowSize ∨ (row + 1) * rowSize ≤ 2 ^ 31

theorem entry_of_rowFits {rowSize row id : ℕ} (hfit : RowFits rowSize row) (hid : id < rowSize) :
    entry rowSize row id = (row * rowSize + id : ℕ) := by
  rw [entry, ← Int.natCast_add]
  rcases hfit with hwide | hfit
  · have hnot : ¬Fits rowSize := fun h => by
      have := h.2
      omega
    rw [decide_eq_false hnot]
    rfl
  · rw [Nat.add_one_mul] at hfit
    exact result_of_fits _ (fits_natCast (by omega))

/-- An entry of a row of a tensor. -/
theorem read_flatMap (device : Device) {row : ρ → List ℚ} {rowSize id : ℕ}
    (hlen : ∀ r ∈ rs, (row r).length = rowSize) (hr : rs[i]? = some r) (hfit : RowFits rowSize i)
    (hid : id < rowSize) :
    device.read (rs.flatMap row) (entry rowSize i id) = load (row r) id := by
  have hlt : i < rs.length := (List.getElem?_eq_some_iff.mp hr).1
  have hload : load (rs.flatMap row) (startOf (fun _ => rowSize) rs i + id) = load (row r) id :=
    load_flatMap hlen hr hid
  rw [startOf_const hlt.le] at hload
  have htotal : (rs.flatMap row).length = rs.length * rowSize := by
    rw [length_flatMap, map_congr_left hlen, map_const', sum_replicate, smul_eq_mul]
  have hend := Nat.mul_le_mul_right rowSize (Nat.succ_le_of_lt hlt)
  rw [Nat.succ_mul] at hend
  rw [entry_of_rowFits hfit hid, Device.read, htotal, if_pos ⟨Int.natCast_nonneg _, by omega⟩,
    Int.toNat_natCast, hload]

/-- A row of a tensor. -/
theorem rowAt_flatten {rows : List (List ℚ)} {vocabSize token : ℕ} {row : List ℚ}
    (hcols : ∀ row ∈ rows, row.length = vocabSize) (hrow : rows[token]? = some row) :
    (rows.flatten.drop (token * vocabSize)).take vocabSize = row := by
  have hlt := (List.getElem?_eq_some_iff.mp hrow).1
  have hread : ((rows.flatMap fun row => row).drop (startOf (fun _ => vocabSize) rows token)).take
      vocabSize = row := take_drop_flatMap hcols hrow
  rw [startOf_const hlt.le, flatMap_id'] at hread
  exact hread

theorem map_range_load {β γ δ : Type} [Inhabited β] [Inhabited γ] (f : β → γ → δ) {n : ℕ}
    {xs : List β} {ys : List γ} (hxs : xs.length = n) (hys : ys.length = n) :
    ((List.range n).map fun k => f (load xs k) (load ys k)) = List.zipWith f xs ys := by
  apply ext_getElem
  · simp [hxs, hys]
  · intro k hk hk'
    rw [length_map, length_range] at hk
    have hx : k < xs.length := hxs ▸ hk
    have hy : k < ys.length := hys ▸ hk
    rw [getElem_map, getElem_range, getElem_zipWith, load, load,
      getD_eq_getElem?_getD, getD_eq_getElem?_getD, getElem?_eq_getElem hx,
      getElem?_eq_getElem hy, Option.getD_some, Option.getD_some]

end Loads

/-! ### One program -/

/-- The arrays that the programs find their requests by. -/
structure Describes {vocabSize : ℕ} (metadata : SpecDecodeMetadata)
    (reqs : List (SpecRequest vocabSize)) : Prop where
  drafts : metadata.draftTokenIds = reqs.flatMap fun r => r.drafts
  counts : metadata.numDraftTokens = reqs.map fun r => r.numDraft
  sums : metadata.cuNumDraftTokens = cumsum (reqs.map fun r => r.numDraft)

section Programs

/-- The addresses that a call computes for a batch fit into 32 bits. -/
structure AddressesFit {vocabSize : ℕ} (reqs : List (SpecRequest vocabSize)) : Prop where
  tokens : (reqs.map fun r => r.tokens.length).sum < 2 ^ 31
  output : reqs.length * ((reqs.map fun r => r.numDraft).foldr max 0 + 1) ≤ 2 ^ 31
  probs : (∃ r ∈ reqs, r.greedy = false) →
    2 ^ 31 ≤ vocabSize ∨ (reqs.map fun r => r.numDraft).sum * vocabSize ≤ 2 ^ 31
  draws : (∃ r ∈ reqs, r.greedy = false) →
    ∀ i r, reqs[i]? = some r → 0 < r.numDraft → RowFits vocabSize i

variable {vocabSize i : ℕ} {device : Device} {withDraftProbs : Bool} {r : SpecRequest vocabSize}
  {reqs : List (SpecRequest vocabSize)} {metadata : SpecDecodeMetadata} {uninitialized : List ℤ}

theorem Describes.numDraft_le (h : Describes metadata reqs) (hr : r ∈ reqs) :
    r.numDraft ≤ metadata.maxSpecLen := by
  rw [SpecDecodeMetadata.maxSpecLen, h.counts]
  exact le_max_of_le' 0 (mem_map_of_mem hr) le_rfl

/-- The last address of a row of the output. -/
theorem Describes.output_lt (h : Describes metadata reqs)
    (hout : reqs.length * ((reqs.map fun r => r.numDraft).foldr max 0 + 1) ≤ 2 ^ 31)
    (hr : reqs[i]? = some r) : i * (metadata.maxSpecLen + 1) + r.numDraft < 2 ^ 31 := by
  have hle := h.numDraft_le (mem_of_getElem? hr)
  have hlast := Nat.mul_le_mul_right (metadata.maxSpecLen + 1)
    (Nat.succ_le_of_lt (List.getElem?_eq_some_iff.mp hr).1)
  rw [Nat.succ_mul] at hlast
  rw [← h.counts] at hout
  exact (show _ < i * (metadata.maxSpecLen + 1) + (metadata.maxSpecLen + 1) by omega).trans_le
    (hlast.trans hout)

theorem isGreedyRequest_eq (withDraftProbs : Bool) (metadata : SpecDecodeMetadata)
    (hr : reqs[i]? = some r) :
    isGreedyRequest (arguments withDraftProbs reqs metadata).isGreedy i = r.greedy := by
  have hmem : r ∈ reqs := mem_of_getElem? hr
  rw [Arguments.isGreedy, arguments, makeSamplingMetadata]
  cases hall : reqs.all (·.greedy) with
  | true =>
    have hgreedy : r.greedy = true := all_eq_true.mp hall r hmem
    rw [if_pos rfl, hgreedy]
    rfl
  | false =>
    rw [if_neg Bool.false_ne_true, if_neg Bool.false_ne_true, Option.getD_some, map_map,
      isGreedyRequest, load_map _ hr]
    cases hgreedy : r.greedy with
    | true => simp [hgreedy]
    | false =>
      have hpos := r.positive hgreedy
      simp only [Function.comp_apply, hgreedy, Bool.false_eq_true, if_false,
        decide_eq_false_iff_not, greedyTemperature]
      linarith

theorem targetArgmax_arguments :
    (arguments withDraftProbs reqs metadata).targetArgmax device =
      reqs.flatMap fun r => r.targetArgmax device := by
  have hcols : ∀ row ∈ reqs.flatMap SpecRequest.targetProbs, row.length = vocabSize := by
    intro row hrow
    obtain ⟨r, -, hmem⟩ := mem_flatMap.mp hrow
    exact r.targetCols row hmem
  have hrows : (reqs.flatMap fun r => r.targetArgmax device) =
      (reqs.flatMap SpecRequest.targetProbs).map fun row => (device.argmax row : ℤ) := by
    rw [map_flatMap]
    rfl
  rw [hrows, Arguments.targetArgmax]
  apply ext_getElem
  · simp [arguments, stack]
  · intro k hk hk'
    rw [length_map] at hk'
    have hget : (reqs.flatMap SpecRequest.targetProbs)[k]? = some _ :=
      getElem?_eq_getElem hk'
    have hrow := rowAt_flatten hcols hget
    rw [getElem_map, getElem_map, getElem_range]
    exact congrArg (fun row => (device.argmax row : ℤ)) hrow

theorem Describes.startIdx (h : Describes metadata reqs) (hr : reqs[i]? = some r) :
    startIdx metadata.cuNumDraftTokens i = startOf (fun r => r.numDraft) reqs i := by
  rw [h.sums, startIdx_cumsum hr]

theorem Describes.stop_sub (h : Describes metadata reqs) (hr : reqs[i]? = some r) :
    load metadata.cuNumDraftTokens i - startOf (fun r => r.numDraft) reqs i = r.numDraft := by
  rw [h.sums, load_cumsum hr, Nat.add_sub_cancel_left]

variable {pos : ℕ}

theorem Describes.load_draft (h : Describes metadata reqs) (hr : reqs[i]? = some r)
    (hpos : pos < r.numDraft) :
    load metadata.draftTokenIds (startOf (fun r => r.numDraft) reqs i + pos) =
      load r.drafts pos := by
  rw [h.drafts]
  exact load_flatMap (fun r _ => r.length_drafts) hr hpos

/-- A program of the greedy kernel. -/
theorem rejectionGreedySampleKernel_eq (h : Describes metadata reqs)
    (hout : reqs.length * ((reqs.map fun r => r.numDraft).foldr max 0 + 1) ≤ 2 ^ 31)
    (hr : reqs[i]? = some r) :
    rejectionGreedySampleKernel metadata.cuNumDraftTokens metadata.draftTokenIds
        (reqs.flatMap fun r => r.targetArgmax device) (reqs.map SpecRequest.bonusTokenId)
        (arguments withDraftProbs reqs metadata).isGreedy metadata.maxSpecLen i =
      rowStores (i * (metadata.maxSpecLen + 1)) (r.greedyRow device) := by
  rw [rejectionGreedySampleKernel, isGreedyRequest_eq _ _ hr, SpecRequest.greedyRow]
  cases hgreedy : r.greedy with
  | false => rfl
  | true =>
    have hargmax : ∀ r ∈ reqs, (r.targetArgmax device).length = r.numDraft := fun r _ => by
      rw [SpecRequest.targetArgmax, length_map, r.targetRows]
    have hsamples : ((List.range r.numDraft).map fun pos =>
        (load (reqs.flatMap fun r => r.targetArgmax device)
            (startOf (fun r => r.numDraft) reqs i + pos),
          decide (load metadata.draftTokenIds (startOf (fun r => r.numDraft) reqs i + pos) ≠
            load (reqs.flatMap fun r => r.targetArgmax device)
              (startOf (fun r => r.numDraft) reqs i + pos)))) =
        List.zipWith (fun draft target => (target, decide (draft ≠ target))) r.drafts
          (r.targetArgmax device) := by
      rw [← map_range_load _ r.length_drafts (hargmax r (mem_of_getElem? hr))]
      refine map_congr_left fun pos hpos => ?_
      have hpos := mem_range.mp hpos
      rw [h.load_draft hr hpos, load_flatMap hargmax hr hpos]
    simp only [Bool.not_true, Bool.false_eq_true, if_false]
    rw [h.startIdx hr, h.stop_sub hr, rejectionKernel_eq (h.output_lt hout hr), hsamples,
      load_map _ hr, emitted_greedy (r.length_drafts.trans (hargmax r (mem_of_getElem? hr)).symm)]
    rfl

/-- The stores of the launch for greedy requests. -/
theorem greedyPrograms_flatten (device : Device) (withDraftProbs : Bool)
    (h : Describes metadata reqs)
    (hout : reqs.length * ((reqs.map fun r => r.numDraft).foldr max 0 + 1) ≤ 2 ^ 31) :
    ((arguments withDraftProbs reqs metadata).greedyPrograms device).flatten =
      tableStores (metadata.maxSpecLen + 1) 0 (reqs.map (SpecRequest.greedyRow device)) := by
  have hlength : metadata.numDraftTokens.length = reqs.length := by rw [h.counts, length_map]
  have hprogram : ∀ i r, reqs[i]? = some r →
      (if reqs.all (!·.greedy) then []
        else rejectionGreedySampleKernel metadata.cuNumDraftTokens metadata.draftTokenIds
          (reqs.flatMap fun r => r.targetArgmax device) (reqs.map SpecRequest.bonusTokenId)
          (arguments withDraftProbs reqs metadata).isGreedy metadata.maxSpecLen i) =
        rowStores (0 + startOf (fun _ => metadata.maxSpecLen + 1) reqs i)
          (r.greedyRow device) := by
    intro i r hr
    split
    · -- nothing is launched, and the request is not greedy
      rename_i hrandom
      have hgreedy := all_eq_true.mp hrandom r (mem_of_getElem? hr)
      rw [Bool.not_eq_true'] at hgreedy
      rw [SpecRequest.greedyRow, hgreedy]
      rfl
    · rw [rejectionGreedySampleKernel_eq h hout hr, zero_add,
        startOf_const (List.getElem?_eq_some_iff.mp hr).1.le]
  rw [tableStores, placed_map, ← flatMap_range_eq_placed 0 hprogram, Arguments.greedyPrograms,
    targetArgmax_arguments]
  change List.flatten (if reqs.all (!·.greedy) then [] else (List.range
    metadata.numDraftTokens.length).map _) = _
  rw [hlength]
  split
  · simp
  · rw [← flatMap_def]
    rfl

/-! ### Sampled requests -/

section

variable {rows : SpecRequest vocabSize → List (List ℚ)}
  (hcols : ∀ r, ∀ row ∈ rows r, row.length = vocabSize)
  (hrows : ∀ r : SpecRequest vocabSize, (rows r).length = r.numDraft) (hr : reqs[i]? = some r)
  (hpos : pos < r.numDraft)
include hcols hrows hr hpos

/-- An entry of a tensor, in the row of a draft token. -/
theorem read_stack (device : Device)
    (hfit : RowFits vocabSize (startOf (fun r => r.numDraft) reqs i + pos)) {id : ℕ}
    (hid : id < vocabSize) :
    device.read (stack rows hcols reqs).data
        (entry vocabSize (startOf (fun r => r.numDraft) reqs i + pos) id) =
      load (load (rows r) pos) id := by
  have hlt : pos < (rows r).length := by
    rw [hrows r]
    exact hpos
  have hget : (reqs.flatMap rows)[startOf (fun r => r.numDraft) reqs i + pos]? =
      some (load (rows r) pos) := by
    rw [getElem?_flatMap (fun r _ => hrows r) hr hpos, load, getD_eq_getElem?_getD,
      getElem?_eq_getElem hlt, Option.getD_some]
  have hwidth : ∀ row ∈ reqs.flatMap rows, row.length = vocabSize := by
    intro row hrow
    obtain ⟨r, -, hmem⟩ := mem_flatMap.mp hrow
    exact hcols r row hmem
  have hread := read_flatMap device hwidth hget hfit hid
  rw [flatMap_id'] at hread
  exact hread

end

/-- The row of a draft token is as far in the tensor as its address may be. -/
theorem AddressesFit.rowFits (hfit : AddressesFit reqs) (hsome : ∃ r ∈ reqs, r.greedy = false)
    (hr : reqs[i]? = some r) (hpos : pos < r.numDraft) :
    RowFits vocabSize (startOf (fun r => r.numDraft) reqs i + pos) := by
  refine (hfit.probs hsome).imp_right fun hall => (Nat.mul_le_mul_right _ ?_).trans hall
  have htotal : (reqs.map fun r => r.numDraft).sum =
      startOf (fun r => r.numDraft) reqs (i + 1) +
        ((reqs.drop (i + 1)).map fun r => r.numDraft).sum := by
    rw [startOf, ← sum_append, ← map_append, take_append_drop]
  rw [startOf_succ hr] at htotal
  omega

theorem load_mem {α : Type} [Inhabited α] {xs : List α} {k : ℕ} (h : k < xs.length) :
    load xs k ∈ xs := by
  rw [load, getD_eq_getElem?_getD, getElem?_eq_getElem h]
  exact getElem_mem h

theorem load_zipWith {α β γ : Type} [Inhabited α] [Inhabited β] [Inhabited γ] (f : α → β → γ)
    {xs : List α} {ys : List β} {k : ℕ} (hxs : k < xs.length) (hys : k < ys.length) :
    load (List.zipWith f xs ys) k = f (load xs k) (load ys k) := by
  simp [load, getD_eq_getElem?_getD, hxs, hys]

theorem load_set {xs : List ℚ} {k n : ℕ} (hk : k < xs.length) :
    load (xs.set n 0) k = if k = n then 0 else load xs k := by
  rw [load, load, getD_eq_getElem?_getD, getD_eq_getElem?_getD, getElem?_set]
  split
  · rename_i hsame
    rw [if_pos hsame.symm, if_pos (hsame ▸ hk), Option.getD_some]
  · rename_i hne
    rw [if_neg fun h => hne h.symm]

/-- A program for one draft token. -/
theorem sampleRecoveredTokensKernel_eq (h : Describes metadata reqs) (hfit : AddressesFit reqs)
    (hsome : ∃ r ∈ reqs, r.greedy = false) (hr : reqs[i]? = some r)
    (hdrafts : ∀ id ∈ r.drafts, 0 ≤ id ∧ id < vocabSize) (pos : ℕ) :
    sampleRecoveredTokensKernel device metadata.cuNumDraftTokens metadata.draftTokenIds
        (arguments withDraftProbs reqs metadata).draftProbs
        (stack SpecRequest.targetProbs SpecRequest.targetCols reqs)
        (reqs.flatMap SpecRequest.q) vocabSize i pos =
      if r.numDraft ≤ pos then []
      else [(startOf (fun r => r.numDraft) reqs i + pos,
        r.recoveredTokenId device withDraftProbs pos)] := by
  rw [sampleRecoveredTokensKernel, h.startIdx hr, h.stop_sub hr]
  split
  · rfl
  · rename_i hpos
    have hpos := not_le.mp hpos
    -- The row is in range and its addresses fit, so that the reads are those of the request.
    have hrow := hfit.rowFits hsome hr hpos
    have htarget : (load r.targetProbs pos).length = vocabSize :=
      r.targetCols _ (load_mem (by rw [r.targetRows]; exact hpos))
    have hdraft : (load r.draftProbs pos).length = vocabSize :=
      r.draftCols _ (load_mem (by rw [r.draftRows]; exact hpos))
    obtain ⟨hnonneg, hvocab⟩ : 0 ≤ load r.drafts pos ∧ load r.drafts pos < vocabSize :=
      hdrafts _ (load_mem (by rw [r.length_drafts]; exact hpos))
    obtain ⟨draft, hload⟩ := Int.eq_ofNat_of_zero_le hnonneg
    dsimp only
    rw [h.load_draft hr hpos, SpecRequest.recoveredTokenId, arguments, hload]
    have hq : ∀ id < vocabSize, device.read (reqs.flatMap SpecRequest.q) (entry vocabSize i id) =
        load r.q id := fun id hid => read_flatMap device (fun r _ => r.qLength) hr
      (hfit.draws hsome i r hr (Nat.zero_lt_of_lt hpos)) hid
    have hprob : ∀ id < vocabSize,
        device.read (stack SpecRequest.targetProbs SpecRequest.targetCols reqs).data
          (entry vocabSize (startOf (fun r => r.numDraft) reqs i + pos) id) =
        load (load r.targetProbs pos) id := fun id hid =>
      read_stack SpecRequest.targetCols SpecRequest.targetRows hr hpos device hrow hid
    refine congrArg (fun row => [(_, (device.argmax row : ℤ))]) ?_
    cases withDraftProbs with
    | true =>
      -- With draft probabilities the draft is subtracted, and what is negative counts as zero.
      have hlength : (List.zipWith (fun target draft => max (target - draft) 0)
          (load r.targetProbs pos) (load r.draftProbs pos)).length = vocabSize := by
        rw [length_zipWith, htarget, hdraft, min_self]
      simp only [if_true]
      rw [← map_range_load _ hlength r.qLength]
      refine map_congr_left fun id hid => ?_
      have hid := mem_range.mp hid
      rw [hq id hid, load_zipWith _ (htarget.symm ▸ hid) (hdraft.symm ▸ hid), hprob id hid,
        read_stack SpecRequest.draftCols SpecRequest.draftRows hr hpos device hrow hid]
    | false =>
      -- Without them the draft token itself is ruled out.
      have hlength : ((load r.targetProbs pos).set draft 0).length = vocabSize := by
        rw [length_set, htarget]
      simp only [Bool.false_eq_true, if_false, Int.toNat_natCast]
      rw [← map_range_load _ hlength r.qLength]
      refine map_congr_left fun id hid => ?_
      have hid := mem_range.mp hid
      rw [hq id hid, load_set (htarget.symm ▸ hid), hprob id hid, entry_of_rowFits hrow hid,
        entry_of_rowFits hrow (by omega)]
      simp only [Int.natCast_inj, Nat.add_left_cancel_iff]

/-- The tokens that replace rejected draft tokens, request by request. -/
theorem sampleRecoveredTokens_eq (device : Device) (withDraftProbs : Bool)
    (h : Describes metadata reqs) (hfit : AddressesFit reqs)
    (hsome : ∃ r ∈ reqs, r.greedy = false)
    (hdrafts : ∀ r ∈ reqs, ∀ id ∈ r.drafts, 0 ≤ id ∧ id < vocabSize)
    (hlength : uninitialized.length = (reqs.map fun r => r.numDraft).sum) :
    sampleRecoveredTokens device (drawsOf reqs uninitialized) metadata.maxSpecLen
        metadata.numDraftTokens metadata.cuNumDraftTokens metadata.draftTokenIds
        (arguments withDraftProbs reqs metadata).draftProbs
        (stack SpecRequest.targetProbs SpecRequest.targetCols reqs) =
      reqs.flatMap fun r =>
        (List.range r.numDraft).map (r.recoveredTokenId device withDraftProbs) := by
  have hcount : metadata.numDraftTokens.length = reqs.length := by rw [h.counts, length_map]
  let program : ℕ → ℕ → List Store := sampleRecoveredTokensKernel device metadata.cuNumDraftTokens
    metadata.draftTokenIds (arguments withDraftProbs reqs metadata).draftProbs
    (stack SpecRequest.targetProbs SpecRequest.targetCols reqs) (reqs.flatMap SpecRequest.q)
    vocabSize
  have hprogram : ∀ i r, reqs[i]? = some r →
      (List.range metadata.maxSpecLen).flatMap (program i) =
        rowStores (0 + startOf (fun r => r.numDraft) reqs i)
          ((List.range r.numDraft).map (r.recoveredTokenId device withDraftProbs)) := by
    intro i r hr
    have hmem := mem_of_getElem? hr
    rw [zero_add, ← flatMap_range_eq_rowStores (h.numDraft_le hmem)]
    exact flatMap_congr fun pos _ =>
      sampleRecoveredTokensKernel_eq h hfit hsome hr (hdrafts r hmem) pos
  have hrows : ∀ r ∈ reqs, ((List.range r.numDraft).map
      (r.recoveredTokenId device withDraftProbs)).length = r.numDraft := fun r _ => by
    rw [length_map, length_range]
  -- the programs of all requests store consecutive tokens
  have hstores := (flatMap_range_eq_placed 0 hprogram).trans (placed_rowStores hrows 0)
  have hflatten : ((List.range metadata.numDraftTokens.length).flatMap fun reqIdx =>
      (List.range metadata.maxSpecLen).map (program reqIdx)).flatten =
      rowStores 0 (reqs.flatMap fun r =>
        (List.range r.numDraft).map (r.recoveredTokenId device withDraftProbs)) := by
    rw [hcount, ← hstores]
    simp only [flatMap_def, flatten_flatten, map_map]
    rfl
  refine writeAll_perm_rowStores ((device.order_perm _).trans (.of_eq hflatten)) ?_
  have htotal : (reqs.flatMap fun r => (List.range r.numDraft).map
      (r.recoveredTokenId device withDraftProbs)).length = (reqs.map fun r => r.numDraft).sum := by
    rw [length_flatMap, map_congr_left hrows]
  rw [htotal]
  exact hlength

/-- A program of the kernel for requests that sample. -/
theorem rejectionRandomSampleKernel_eq (device : Device) (h : Describes metadata reqs)
    (hfit : AddressesFit reqs) (hr : reqs[i]? = some r) (hgreedy : r.greedy = false)
    (hdrafts : ∀ id ∈ r.drafts, 0 ≤ id ∧ id < vocabSize) {flags : List Bool}
    (hflags : (arguments withDraftProbs reqs metadata).isGreedy = some flags) :
    rejectionRandomSampleKernel device metadata.cuNumDraftTokens metadata.draftTokenIds
        (arguments withDraftProbs reqs metadata).draftProbs
        (stack SpecRequest.targetProbs SpecRequest.targetCols reqs)
        (reqs.map SpecRequest.bonusTokenId)
        (reqs.flatMap fun r =>
          (List.range r.numDraft).map (r.recoveredTokenId device withDraftProbs))
        (reqs.flatMap SpecRequest.uniformProbs) flags metadata.maxSpecLen vocabSize i =
      rowStores (i * (metadata.maxSpecLen + 1)) (r.randomTokens device withDraftProbs) := by
  have hflag := isGreedyRequest_eq withDraftProbs metadata hr
  rw [hflags, isGreedyRequest, hgreedy] at hflag
  rw [rejectionRandomSampleKernel, hflag, if_neg Bool.false_ne_true]
  dsimp only
  rw [h.startIdx hr, h.stop_sub hr, rejectionKernel_eq (h.output_lt hfit.output hr),
    load_map _ hr, SpecRequest.randomTokens]
  congr 2
  refine map_congr_left fun pos hpos => ?_
  have hpos := mem_range.mp hpos
  have hrow := hfit.rowFits ⟨r, mem_of_getElem? hr, hgreedy⟩ hr hpos
  obtain ⟨hnonneg, hvocab⟩ : 0 ≤ load r.drafts pos ∧ load r.drafts pos < vocabSize :=
    hdrafts _ (load_mem (by rw [r.length_drafts]; exact hpos))
  obtain ⟨draft, hload⟩ := Int.eq_ofNat_of_zero_le hnonneg
  have hrecovered : ∀ r ∈ reqs, ((List.range r.numDraft).map
      (r.recoveredTokenId device withDraftProbs)).length = r.numDraft := fun r _ => by
    rw [length_map, length_range]
  have hown : load ((List.range r.numDraft).map (r.recoveredTokenId device withDraftProbs)) pos =
      r.recoveredTokenId device withDraftProbs pos := by
    refine load_map _ ?_
    rw [getElem?_range hpos]
  have hid : draft < vocabSize := by omega
  rw [h.load_draft hr hpos, load_flatMap (fun r _ => r.uniformLength) hr hpos,
    load_flatMap hrecovered hr hpos, hown, SpecRequest.randomSample, arguments, hload,
    read_stack SpecRequest.targetCols SpecRequest.targetRows hr hpos device
      hrow hid, Int.toNat_natCast]
  cases withDraftProbs with
  | true =>
    simp only [if_true,
      read_stack SpecRequest.draftCols SpecRequest.draftRows hr hpos device hrow hid]
  | false => rfl

/-- The tokens that replace rejected draft tokens, as a call computes them. -/
def recoveredTokens (device : Device) (withDraftProbs : Bool) (reqs : List (SpecRequest vocabSize))
    (metadata : SpecDecodeMetadata) (uninitialized : List ℤ) : List ℤ :=
  sampleRecoveredTokens device (drawsOf reqs uninitialized) metadata.maxSpecLen
    metadata.numDraftTokens metadata.cuNumDraftTokens metadata.draftTokenIds
    (arguments withDraftProbs reqs metadata).draftProbs
    (stack SpecRequest.targetProbs SpecRequest.targetCols reqs)

/-- The stores of the launch for the other requests, from the stores of its programs. -/
theorem randomPrograms_flatten_of (h : Describes metadata reqs)
    {row : SpecRequest vocabSize → List ℤ}
    (hkernel : ∀ flags, (arguments withDraftProbs reqs metadata).isGreedy = some flags →
      ∀ i r, reqs[i]? = some r → r.greedy = false →
        rejectionRandomSampleKernel device metadata.cuNumDraftTokens metadata.draftTokenIds
            (arguments withDraftProbs reqs metadata).draftProbs
            (stack SpecRequest.targetProbs SpecRequest.targetCols reqs)
            (reqs.map SpecRequest.bonusTokenId)
            (recoveredTokens device withDraftProbs reqs metadata uninitialized)
            (reqs.flatMap SpecRequest.uniformProbs) flags metadata.maxSpecLen vocabSize i =
          rowStores (i * (metadata.maxSpecLen + 1)) (row r)) :
    ((arguments withDraftProbs reqs metadata).randomPrograms device
        (drawsOf reqs uninitialized)).flatten =
      tableStores (metadata.maxSpecLen + 1) 0
        (reqs.map fun r => if r.greedy then [] else row r) := by
  have hcount : metadata.numDraftTokens.length = reqs.length := by rw [h.counts, length_map]
  have hprogram : ∀ i r, reqs[i]? = some r →
      (if !reqs.all (!·.greedy) && reqs.all (·.greedy) then []
        else rejectionRandomSampleKernel device metadata.cuNumDraftTokens metadata.draftTokenIds
          (arguments withDraftProbs reqs metadata).draftProbs
          (stack SpecRequest.targetProbs SpecRequest.targetCols reqs)
          (reqs.map SpecRequest.bonusTokenId)
          (recoveredTokens device withDraftProbs reqs metadata uninitialized)
          (reqs.flatMap SpecRequest.uniformProbs)
          ((arguments withDraftProbs reqs metadata).isGreedy.getD []) metadata.maxSpecLen
          vocabSize i) =
        rowStores (0 + startOf (fun _ => metadata.maxSpecLen + 1) reqs i)
          (if r.greedy then [] else row r) := by
    intro i r hr
    have hmem := mem_of_getElem? hr
    split
    · -- the call has returned before, and the request is greedy
      rename_i hreturned
      rw [Bool.and_eq_true] at hreturned
      have hgreedy := all_eq_true.mp hreturned.2 r hmem
      rw [hgreedy]
      rfl
    · rename_i hlaunched
      have hsome : ∃ r ∈ reqs, r.greedy = false := by
        by_contra hnone
        have hgreedy : ∀ r ∈ reqs, r.greedy = true := fun r hr => by
          rw [← Bool.not_eq_false]
          exact fun hg => hnone ⟨r, hr, hg⟩
        refine hlaunched (Bool.and_eq_true_iff.mpr ⟨?_, all_eq_true.mpr hgreedy⟩)
        rw [Bool.not_eq_true', all_eq_false]
        exact ⟨r, hmem, by rw [hgreedy r hmem]; exact nofun⟩
      have hflags : ∃ flags, (arguments withDraftProbs reqs metadata).isGreedy = some flags := by
        obtain ⟨r', hr', hg⟩ := hsome
        have hall : reqs.all (·.greedy) = false :=
          all_eq_false.mpr ⟨r', hr', by rw [hg]; exact nofun⟩
        rw [Arguments.isGreedy, arguments, makeSamplingMetadata]
        rw [hall, if_neg Bool.false_ne_true]
        exact ⟨_, rfl⟩
      obtain ⟨flags, hflags⟩ := hflags
      rw [hflags, zero_add, startOf_const (List.getElem?_eq_some_iff.mp hr).1.le]
      cases hgreedy : r.greedy with
      | true =>
        have hflag := isGreedyRequest_eq withDraftProbs metadata hr
        rw [hflags, isGreedyRequest, hgreedy] at hflag
        rw [Option.getD_some, rejectionRandomSampleKernel, hflag]
        rfl
      | false => exact hkernel flags hflags i r hr hgreedy
  rw [tableStores, placed_map, ← flatMap_range_eq_placed 0 hprogram, Arguments.randomPrograms]
  change List.flatten (if !reqs.all (!·.greedy) && reqs.all (·.greedy) then [] else (List.range
    metadata.numDraftTokens.length).map _) = _
  rw [hcount]
  split
  · simp
  · rw [← flatMap_def]
    rfl

theorem randomPrograms_flatten (device : Device) (withDraftProbs : Bool)
    (h : Describes metadata reqs) (hfit : AddressesFit reqs)
    (hdrafts : (∃ r ∈ reqs, r.greedy = false) →
      ∀ r ∈ reqs, ∀ id ∈ r.drafts, 0 ≤ id ∧ id < vocabSize)
    (hlength : uninitialized.length = (reqs.map fun r => r.numDraft).sum) :
    ((arguments withDraftProbs reqs metadata).randomPrograms device
        (drawsOf reqs uninitialized)).flatten =
      tableStores (metadata.maxSpecLen + 1) 0
        (reqs.map (SpecRequest.randomRow device withDraftProbs)) := by
  refine randomPrograms_flatten_of h fun flags hflags i r hr hgreedy => ?_
  have hsome : ∃ r ∈ reqs, r.greedy = false := ⟨r, mem_of_getElem? hr, hgreedy⟩
  rw [recoveredTokens,
    sampleRecoveredTokens_eq device withDraftProbs h hfit hsome (hdrafts hsome) hlength]
  exact rejectionRandomSampleKernel_eq device h hfit hr hgreedy
    (hdrafts hsome r (mem_of_getElem? hr)) hflags

/-! ### A call -/

theorem length_greedyTokens_le (device : Device) (r : SpecRequest vocabSize) :
    (r.greedyTokens device).length ≤ r.numDraft + 1 := by
  rw [SpecRequest.greedyTokens, length_append, length_singleton, List.length_take, r.length_drafts]
  omega

theorem length_randomTokens_le (device : Device) (withDraftProbs : Bool)
    (r : SpecRequest vocabSize) :
    (r.randomTokens device withDraftProbs).length ≤ r.numDraft + 1 := by
  have hemitted := length_emitted_le ((List.range r.numDraft).map
    (r.randomSample device withDraftProbs)) r.bonusTokenId
  rw [length_map, length_range] at hemitted
  exact hemitted

theorem length_output_le (device : Device) (withDraftProbs : Bool) (r : SpecRequest vocabSize) :
    (r.output device withDraftProbs).length ≤ r.numDraft + 1 := by
  rw [SpecRequest.output]
  split
  · exact length_greedyTokens_le device r
  · exact length_randomTokens_le device withDraftProbs r

theorem length_greedyRow_le (device : Device) (withDraftProbs : Bool) (r : SpecRequest vocabSize) :
    (r.greedyRow device).length ≤ (r.output device withDraftProbs).length := by
  rw [SpecRequest.greedyRow, SpecRequest.output]
  split
  · exact le_rfl
  · exact Nat.zero_le _

theorem length_randomRow_le (device : Device) (withDraftProbs : Bool) (r : SpecRequest vocabSize) :
    (r.randomRow device withDraftProbs).length ≤ (r.output device withDraftProbs).length := by
  rw [SpecRequest.randomRow, SpecRequest.output]
  split
  · exact Nat.zero_le _
  · exact le_rfl

theorem greedyRow_ne_nil (device : Device) (r : SpecRequest vocabSize) :
    r.greedyRow device ≠ [] ↔ r.greedy = true := by
  rw [SpecRequest.greedyRow]
  split
  · rename_i hgreedy
    exact iff_of_true (append_ne_nil_of_right_ne_nil _ (cons_ne_nil _ _)) hgreedy
  · rename_i hgreedy
    exact iff_of_false (fun h => h rfl) hgreedy

theorem randomRow_ne_nil (device : Device) (withDraftProbs : Bool) (r : SpecRequest vocabSize) :
    r.randomRow device withDraftProbs ≠ [] ↔ r.greedy = false := by
  rw [SpecRequest.randomRow]
  split
  · rename_i hgreedy
    exact iff_of_false (fun h => h rfl) (by rw [hgreedy]; exact nofun)
  · rename_i hgreedy
    exact iff_of_true (emitted_ne_nil _ _) (Bool.not_eq_true _ ▸ hgreedy)

/-- Which rows the stores of a launch belong to. -/
theorem exists_program_iff {programs : List (List Store)} {row : SpecRequest vocabSize → List ℤ}
    {width : ℕ} (hpos : 0 < width)
    (hprograms : programs.flatten = tableStores width 0 (reqs.map row))
    (hfits : ∀ r ∈ reqs, (row r).length ≤ width) (hr : reqs[i]? = some r) :
    (∃ program ∈ programs, ∃ store ∈ program, store.1 / width = i) ↔ row r ≠ [] := by
  have hrows : ∀ cells ∈ reqs.map row, cells.length ≤ width := by
    intro cells hcells
    obtain ⟨r, hr, rfl⟩ := mem_map.mp hcells
    exact hfits r hr
  have hrow : (reqs.map row)[i]? = some (row r) := by rw [getElem?_map, hr, Option.map_some]
  have htable := exists_mem_tableStores hpos hrows hrow 0
  rw [zero_mul, zero_add, ← hprograms] at htable
  rw [← htable]
  constructor
  · rintro ⟨program, hprogram, store, hstore, heq⟩
    exact ⟨store, mem_flatten.mpr ⟨program, hprogram, hstore⟩, heq⟩
  · rintro ⟨store, hstore, heq⟩
    obtain ⟨program, hprogram, hmem⟩ := mem_flatten.mp hstore
    exact ⟨program, hprogram, store, hmem, heq⟩

/-- The stores of both launches together. -/
theorem stores_perm (device : Device) (row : SpecRequest vocabSize → List ℤ)
    (reqs : List (SpecRequest vocabSize)) (width : ℕ) :
    (tableStores width 0 (reqs.map (SpecRequest.greedyRow device)) ++
        tableStores width 0 (reqs.map fun r => if r.greedy then [] else row r)).Perm
      (tableStores width 0
        (reqs.map fun r => if r.greedy then r.greedyTokens device else row r)) := by
  rw [tableStores, tableStores, tableStores, placed_map, placed_map, placed_map]
  refine (placed_append_perm _ _ _ _ _).trans (.of_eq (placed_congr fun s r _ => ?_))
  rw [SpecRequest.greedyRow]
  split
  · exact append_nil _
  · rfl

/-- A call, from the rows of the requests that sample. -/
theorem rejectionSample_of_rows (h : Describes metadata reqs)
    (hout : reqs.length * ((reqs.map fun r => r.numDraft).foldr max 0 + 1) ≤ 2 ^ 31)
    {row : SpecRequest vocabSize → List ℤ} (hle : ∀ r, (row r).length ≤ r.numDraft + 1)
    (hrandom : ((arguments withDraftProbs reqs metadata).randomPrograms device
        (drawsOf reqs uninitialized)).flatten =
      tableStores (metadata.maxSpecLen + 1) 0
        (reqs.map fun r => if r.greedy then [] else row r)) :
    rejectionSample device (drawsOf reqs uninitialized) (arguments withDraftProbs reqs metadata) =
      .ok ⟨reqs.length, metadata.maxSpecLen + 1,
        reqs.flatMap fun r => padRow (metadata.maxSpecLen + 1) placeholderTokenId
          (if r.greedy then r.greedyTokens device else row r)⟩ := by
  have hcount : metadata.numDraftTokens.length = reqs.length := by rw [h.counts, length_map]
  have hassert : (arguments withDraftProbs reqs metadata).targetProbs.numRows =
      (arguments withDraftProbs reqs metadata).draftTokenIds.length := by
    change (reqs.flatMap SpecRequest.targetProbs).length = metadata.draftTokenIds.length
    rw [h.drafts, length_flatMap, length_flatMap]
    congr 1
    exact map_congr_left fun r _ => r.targetRows.trans r.length_drafts.symm
  have hrows : ∀ cells ∈ reqs.map fun r => if r.greedy then r.greedyTokens device else row r,
      cells.length ≤ metadata.maxSpecLen + 1 := by
    intro cells hcells
    obtain ⟨r, hr, rfl⟩ := mem_map.mp hcells
    have hlimit := Nat.succ_le_succ (h.numDraft_le hr)
    split
    · exact (length_greedyTokens_le device r).trans hlimit
    · exact (hle r).trans hlimit
  let args := arguments withDraftProbs reqs metadata
  have hperm : (device.order (args.greedyPrograms device) ++
      device.order (args.randomPrograms device (drawsOf reqs uninitialized))).Perm
        (tableStores (metadata.maxSpecLen + 1) 0
          (reqs.map fun r => if r.greedy then r.greedyTokens device else row r)) := by
    refine ((device.order_perm _).append (device.order_perm _)).trans ?_
    rw [greedyPrograms_flatten device withDraftProbs h hout, hrandom]
    exact stores_perm device row reqs _
  have hnodup := (hperm.map Prod.fst).nodup_iff.mpr (nodup_tableStores hrows 0)
  have hwrite := writeAll_tableStores hrows [] placeholderTokenId
  rw [nil_append, nil_append, length_map, length_nil, flatMap_map]
    at hwrite
  rw [rejectionSample, if_neg (not_not.mpr hassert)]
  change Except.ok (TokenTensor.mk metadata.numDraftTokens.length (metadata.maxSpecLen + 1)
    (writeAll (writeAll (List.replicate (metadata.numDraftTokens.length *
      (metadata.maxSpecLen + 1)) placeholderTokenId) _) _)) = _
  rw [← writeAll_append, writeAll_perm hperm hnodup, hcount, hwrite]

theorem targetArgmax_inVocab (device : Device) (r : SpecRequest vocabSize) {id : ℤ}
    (hid : id ∈ r.targetArgmax device) : 0 ≤ id ∧ id < vocabSize := by
  obtain ⟨row, hrow, rfl⟩ := mem_map.mp hid
  have hlength := r.targetCols row hrow
  have hvocab := r.bonusInVocab
  have hargmax := device.argmax_lt row fun hnil => by
    rw [hnil, length_nil] at hlength
    omega
  omega

theorem recoveredTokenId_inVocab (device : Device) (withDraftProbs : Bool)
    (r : SpecRequest vocabSize) (hpos : pos < r.numDraft) :
    0 ≤ r.recoveredTokenId device withDraftProbs pos ∧
      r.recoveredTokenId device withDraftProbs pos < vocabSize := by
  have htarget := r.targetCols _ (load_mem (by rw [r.targetRows]; exact hpos))
  have hdraft := r.draftCols _ (load_mem (by rw [r.draftRows]; exact hpos))
  have hvocab := r.bonusInVocab
  have hwidth : ∀ prob : List ℚ, prob.length = vocabSize →
      0 ≤ (device.argmax (List.zipWith (· / ·) prob r.q) : ℤ) ∧
        (device.argmax (List.zipWith (· / ·) prob r.q) : ℤ) < vocabSize := by
    intro prob hprob
    have hlength : (List.zipWith (· / ·) prob r.q).length = vocabSize := by
      rw [length_zipWith, hprob, r.qLength, min_self]
    have hargmax := device.argmax_lt (List.zipWith (· / ·) prob r.q) fun hnil => by
      rw [hnil, length_nil] at hlength
      omega
    omega
  rw [SpecRequest.recoveredTokenId]
  refine hwidth _ ?_
  split
  · rw [length_zipWith, htarget, hdraft, min_self]
  · rw [length_set, htarget]

theorem output_inVocab (device : Device) (withDraftProbs : Bool) {r : SpecRequest vocabSize}
    (hdrafts : r.greedy = false → ∀ id ∈ r.drafts, 0 ≤ id ∧ id < vocabSize) {id : ℤ}
    (hid : id ∈ r.output device withDraftProbs) : 0 ≤ id ∧ id < vocabSize := by
  have hargmax : r.drafts.length = (r.targetArgmax device).length := by
    rw [SpecRequest.targetArgmax, length_map, r.targetRows, r.length_drafts]
  rw [SpecRequest.output] at hid
  cases hgreedy : r.greedy with
  | true =>
    -- a token of the draft that is kept is the target's choice
    rw [hgreedy, if_pos rfl, SpecRequest.greedyTokens, ← emitted_greedy hargmax] at hid
    rcases mem_emitted hid with rfl | ⟨sample, hsample, rfl⟩
    · exact r.bonusInVocab
    · have hlength := hargmax.symm.trans r.length_drafts
      rw [← map_range_load _ r.length_drafts hlength] at hsample
      obtain ⟨pos, hpos, rfl⟩ := mem_map.mp hsample
      have hpos := mem_range.mp hpos
      exact targetArgmax_inVocab device r (load_mem (by rw [hlength]; exact hpos))
  | false =>
    rw [hgreedy, if_neg Bool.false_ne_true] at hid
    rcases mem_emitted hid with rfl | ⟨sample, hsample, rfl⟩
    · exact r.bonusInVocab
    · obtain ⟨pos, hpos, rfl⟩ := mem_map.mp hsample
      have hpos := mem_range.mp hpos
      have hcases : r.randomSample device withDraftProbs pos = (load r.drafts pos, false) ∨
          r.randomSample device withDraftProbs pos =
            (r.recoveredTokenId device withDraftProbs pos, true) := ite_eq_or_eq _ _ _
      rcases hcases with heq | heq
      · rw [heq]
        exact hdrafts hgreedy _ (load_mem (by rw [r.length_drafts]; exact hpos))
      · rw [heq]
        exact recoveredTokenId_inVocab device withDraftProbs r hpos

/-- The tokens of the vocabulary in the rows of a call. -/
theorem parseOutput_flatMap {width : ℕ} {row : SpecRequest vocabSize → List ℤ}
    (hfits : ∀ r ∈ reqs, (row r).length ≤ width) :
    parseOutput ⟨reqs.length, width,
        reqs.flatMap fun r => padRow width placeholderTokenId (row r)⟩ vocabSize =
      reqs.map fun r =>
        (row r).filter fun id => id != placeholderTokenId && decide (id < vocabSize) := by
  rw [parseOutput, rowsOf_flatMap fun r hr => length_padRow (hfits r hr), map_map]
  refine map_congr_left fun r _ => ?_
  rw [Function.comp_apply, padRow, filter_append, filter_replicate,
    if_neg (by simp [placeholderTokenId]), append_nil]

/-- The rows of a call are the tokens of the requests. -/
theorem parseOutput_padded (h : Describes metadata reqs) (hdrafts : (∃ r ∈ reqs, r.greedy = false) →
      ∀ r ∈ reqs, ∀ id ∈ r.drafts, 0 ≤ id ∧ id < vocabSize) :
    parseOutput ⟨reqs.length, metadata.maxSpecLen + 1,
        reqs.flatMap fun r => padRow (metadata.maxSpecLen + 1) placeholderTokenId
          (r.output device withDraftProbs)⟩ vocabSize =
      reqs.map (SpecRequest.output device withDraftProbs) := by
  have hfits : ∀ r ∈ reqs, (r.output device withDraftProbs).length ≤ metadata.maxSpecLen + 1 :=
    fun r hr => (length_output_le device withDraftProbs r).trans
      (Nat.succ_le_succ (h.numDraft_le hr))
  rw [parseOutput_flatMap hfits]
  refine map_congr_left fun r hr => ?_
  have hvalid : ∀ id ∈ r.output device withDraftProbs,
      (id != placeholderTokenId && decide (id < vocabSize)) = true := by
    intro id hid
    have hbounds := output_inVocab device withDraftProbs
      (fun hg => hdrafts ⟨r, hr, hg⟩ r hr) hid
    rw [Bool.and_eq_true, bne_iff_ne, placeholderTokenId, decide_eq_true_eq]
    omega
  exact filter_eq_self.mpr hvalid

/-- The index arrays of a batch. -/
def metadataOf (reqs : List (SpecRequest vocabSize)) : SpecDecodeMetadata :=
  let scheds := reqs.map SpecRequest.toScheduled
  { draftTokenIds := scheds.flatMap Scheduled.drafts
    numDraftTokens := scheds.map Scheduled.numDraft
    cuNumDraftTokens := cumsum (scheds.map Scheduled.numDraft)
    targetLogitsIndices := targetPositions scheds
    bonusLogitsIndices := bonusPositions scheds
    logitsIndices := (logitsPositions scheds).map Nat.cast }

theorem describes_metadataOf (reqs : List (SpecRequest vocabSize)) :
    Describes (metadataOf reqs) reqs where
  drafts := flatMap_map _ _ _
  counts := map_map
  sums := congrArg cumsum map_map

theorem calcSpecDecodeMetadata_metadataOf {arangeSize : ℕ} (after : List ℤ) (hne : reqs ≠ [])
    (hsize : (reqs.map fun r => r.tokens.length).sum ≤ arangeSize) :
    calcSpecDecodeMetadata arangeSize ((reqs.flatMap fun r => r.tokens) ++ after)
        (reqs.map fun r => r.numDraft) (cumsum (reqs.map fun r => r.tokens.length)) =
      .ok (metadataOf reqs) := by
  let scheds : List Scheduled := reqs.map SpecRequest.toScheduled
  have hlens : scheds.map schedLen = reqs.map fun r => r.tokens.length := map_map
  have htokens : scheds.flatMap Scheduled.tokens = reqs.flatMap fun r => r.tokens :=
    flatMap_map _ _ _
  have hscheds : scheds ≠ [] := fun h => hne (map_eq_nil_iff.mp h)
  rw [← htokens, ← hlens, ← (describes_metadataOf reqs).counts]
  exact calcSpecDecodeMetadata_eq_ok hscheds (hlens ▸ hsize) after

end Programs

/-! ### A batch of three requests -/

theorem exists_greatest {row : List ℚ} (hne : row ≠ []) : ∃ x ∈ row, ∀ y ∈ row, y ≤ x := by
  induction row with
  | nil => exact absurd rfl hne
  | cons first row ih =>
    by_cases hnil : row = []
    · subst hnil
      exact ⟨first, mem_cons_self, fun y hy => (mem_singleton.mp hy).le⟩
    · obtain ⟨x, hx, hgreatest⟩ := ih hnil
      rcases le_total first x with hle | hle
      · exact ⟨x, mem_cons_of_mem _ hx, forall_mem_cons.mpr ⟨hle, hgreatest⟩⟩
      · exact ⟨first, mem_cons_self, forall_mem_cons.mpr
          ⟨le_rfl, fun y hy => (hgreatest y hy).trans hle⟩⟩

/-- The first of the largest values, and the programs one after the other. -/
def sequentialDevice : Device where
  argmax row := row.findIdx fun x => row.all fun y => decide (y ≤ x)
  argmax_lt row hne := by
    obtain ⟨x, hx, hgreatest⟩ := exists_greatest hne
    refine findIdx_lt_length_of_exists ⟨x, hx, all_eq_true.mpr fun y hy => ?_⟩
    exact decide_eq_true (hgreatest y hy)
  order programs := programs.flatten
  order_perm _ := .refl _
  outside _ := 0

/-- The target chooses the first draft token and not the second. -/
def mismatched : SpecRequest 3 where
  tokens := [0, 1, 2]
  numDraft := 2
  fits := by decide
  greedy := true
  temperature := 0
  positive := nofun
  targetProbs := [[0, 1, 0], [1, 0, 0]]
  targetRows := rfl
  targetCols := by decide
  draftProbs := [[0, 1, 0], [0, 0, 1]]
  draftRows := rfl
  draftCols := by decide
  bonusTokenId := 2
  bonusInVocab := by decide
  uniformProbs := [0, 0]
  uniformLength := rfl
  q := [1, 1, 1]
  qLength := rfl

/-- No draft. -/
def undrafted : SpecRequest 3 where
  tokens := [2]
  numDraft := 0
  fits := by decide
  greedy := true
  temperature := 0
  positive := nofun
  targetProbs := []
  targetRows := rfl
  targetCols := nofun
  draftProbs := []
  draftRows := rfl
  draftCols := nofun
  bonusTokenId := 1
  bonusInVocab := by decide
  uniformProbs := []
  uniformLength := rfl
  q := [1, 1, 1]
  qLength := rfl

/-- A request that samples, whose draft token is rejected. -/
def sampled : SpecRequest 3 where
  tokens := [0, 2, 1]
  numDraft := 1
  fits := by decide
  greedy := false
  temperature := 1
  positive _ := by decide
  targetProbs := [[1 / 2, 1 / 4, 1 / 4]]
  targetRows := rfl
  targetCols := by decide
  draftProbs := [[0, 1, 0]]
  draftRows := rfl
  draftCols := by decide
  bonusTokenId := 2
  bonusInVocab := by decide
  uniformProbs := [1 / 2]
  uniformLength := rfl
  q := [1, 1, 1]
  qLength := rfl

/-- A greedy request with 32 draft tokens. -/
def longDraft : SpecRequest 131072 where
  tokens := List.replicate 33 0
  numDraft := 32
  fits := by decide
  greedy := true
  temperature := 0
  positive := nofun
  targetProbs := List.replicate 32 (List.replicate 131072 1)
  targetRows := length_replicate
  targetCols _ hrow := eq_of_mem_replicate hrow ▸ length_replicate
  draftProbs := List.replicate 32 (List.replicate 131072 1)
  draftRows := length_replicate
  draftCols _ hrow := eq_of_mem_replicate hrow ▸ length_replicate
  bonusTokenId := 1
  bonusInVocab := by decide
  uniformProbs := List.replicate 32 (1 / 2)
  uniformLength := length_replicate
  q := List.replicate 131072 1
  qLength := length_replicate

/-- A request that samples and would keep its draft token. -/
def lastDraft : SpecRequest 131072 where
  tokens := [0, 0]
  numDraft := 1
  fits := by decide
  greedy := false
  temperature := 1
  positive _ := by decide
  targetProbs := [List.replicate 131072 1]
  targetRows := rfl
  targetCols _ hrow := mem_singleton.mp hrow ▸ length_replicate
  draftProbs := [List.replicate 131072 1]
  draftRows := rfl
  draftCols _ hrow := mem_singleton.mp hrow ▸ length_replicate
  bonusTokenId := 1
  bonusInVocab := by decide
  uniformProbs := [1 / 2]
  uniformLength := rfl
  q := List.replicate 131072 1
  qLength := length_replicate

def crowded : List (SpecRequest 131072) :=
  List.replicate 512 longDraft ++ [lastDraft]

theorem crowded_sampled {i : ℕ} {r : SpecRequest 131072} (hr : crowded[i]? = some r)
    (hgreedy : r.greedy = false) : i = 512 ∧ r = lastDraft := by
  rw [crowded, getElem?_append, length_replicate] at hr
  split at hr
  · obtain rfl := eq_of_mem_replicate (mem_of_getElem? hr)
    cases hgreedy
  · rename_i hge
    obtain ⟨hi, hlast⟩ := List.getElem?_eq_some_iff.mp hr
    rw [length_singleton] at hi
    rw [getElem_singleton] at hlast
    exact ⟨by omega, hlast.symm⟩

theorem crowded_ne_nil : crowded ≠ [] :=
  append_ne_nil_of_right_ne_nil _ (cons_ne_nil _ _)

theorem startOf_crowded : startOf (fun r => r.numDraft) crowded 512 = 16384 := by
  decide +kernel

theorem output_crowded :
    crowded.length * ((crowded.map fun r => r.numDraft).foldr max 0 + 1) ≤ 2 ^ 31 := by
  decide +kernel

/-- The draft token of the last request is rejected, for a probability in front of the tensor. -/
theorem randomPrograms_crowded (uninitialized : List ℤ) : ∃ token,
    ((arguments false crowded (metadataOf crowded)).randomPrograms sequentialDevice
        (drawsOf crowded uninitialized)).flatten =
      tableStores ((metadataOf crowded).maxSpecLen + 1) 0
        (crowded.map fun r => if r.greedy then [] else [token]) := by
  have h := describes_metadataOf crowded
  refine ⟨load (recoveredTokens sequentialDevice false crowded (metadataOf crowded) uninitialized)
    16384, randomPrograms_flatten_of h fun flags hflags i r hr hgreedy => ?_⟩
  have hflag := isGreedyRequest_eq false (metadataOf crowded) hr
  rw [hflags, isGreedyRequest, hgreedy] at hflag
  rw [rejectionRandomSampleKernel, hflag, if_neg Bool.false_ne_true]
  dsimp only
  rw [h.startIdx hr, h.stop_sub hr, rejectionKernel_eq (h.output_lt output_crowded hr)]
  obtain ⟨rfl, rfl⟩ := crowded_sampled hr hgreedy
  have hdraft := h.load_draft hr Nat.one_pos
  have huniform := load_flatMap (fun r _ => r.uniformLength) hr Nat.one_pos
  rw [startOf_crowded] at hdraft huniform ⊢
  refine congrArg (rowStores _) ?_
  have haddress : entry 131072 (16384 + 0) (load lastDraft.drafts 0) = -2147483648 := by decide
  have hread : sequentialDevice.read (stack SpecRequest.targetProbs SpecRequest.targetCols
      crowded).data (-2147483648) = 0 := if_neg fun hin => absurd hin.1 (by decide)
  have hreject : ¬(0 < (1 : ℚ) ∧ load lastDraft.uniformProbs 0 ≤ (0 : ℚ) / 1) := by decide +kernel
  change emitted [_] _ = _
  beta_reduce
  rw [hdraft, huniform, haddress, hread]
  exact congrArg (fun sample => emitted [sample] _) (if_neg hreject)

end SpecDecode
