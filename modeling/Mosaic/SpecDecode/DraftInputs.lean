import Mosaic.Attention.LocalChunks
import Mosaic.SpecDecode.Metadata

/-!
# The inputs of the draft model

After a step some draft tokens of each request are rejected. The draft model is run on the tokens
that are left, each replaced by the one after it, and the last one of a request by its newly sampled
token. The indices of the tokens that are left come from arithmetic on whole arrays, and the shift
by one goes across the ends of the requests before the last tokens are set.
-/

namespace SpecDecode

open List Ragged Attention Fallible

/-- `xs - ys`, where an array of one entry is taken for as many as the other one has -/
def subtract (xs ys : List ℤ) : Except SpecError (List ℤ) :=
  if xs.length = ys.length then .ok (zipWith (· - ·) xs ys)
  else match xs, ys with
    | [x], ys => .ok (ys.map (x - ·))
    | xs, [y] => .ok (xs.map (· - y))
    | _, _ => .error .valueError

/-- The metadata without the rejected tokens, and the indices of the tokens that are left. The
proposer has a prepared range of `maxNumTokens` entries. -/
def prepareInputs (maxNumTokens : ℕ) (metadata : PagedMetadata (List ℤ))
    (numRejectedTokens : List ℤ) : Except SpecError (PagedMetadata (List ℤ) × List ℤ) := do
  let newSeqLens := zipWith (· - ·) metadata.seqLensCpu numRejectedTokens
  let newQueryLenPerReq := queryLens metadata.queryStartLocCpu
  let newNumTokensPerReq := zipWith (· - ·) newQueryLenPerReq numRejectedTokens
  let newQueryStartLoc := newNumTokensPerReq.scanl (· + ·) 0
  let totalNumTokens := newNumTokensPerReq.sum
  let counts ← orError .valueError (newNumTokensPerReq.mapM repetitions)
  let tokenArange := (range maxNumTokens).map ((↑) : ℕ → ℤ)
  let tokenOffsets ← subtract (tokenArange.take totalNumTokens.toNat)
    (repeatEach newQueryStartLoc.dropLast counts)
  let tokenIndices := zipWith (· + ·) tokenOffsets
    (repeatEach metadata.queryStartLocCpu.dropLast counts)
  match newQueryLenPerReq.max? with
  | none => .error .valueError
  | some maxQueryLen => do
    let slotMapping ← gather metadata.slotMapping tokenIndices
    return ({
      queryStartLocCpu := newQueryStartLoc
      seqLensCpu := newSeqLens
      numComputedTokensCpu := metadata.numComputedTokensCpu
      numReqs := metadata.numReqs
      numActualTokens := totalNumTokens
      maxQueryLen
      blockTableTensor := metadata.blockTableTensor
      slotMapping
      causal := true }, tokenIndices)

/-- The input buffer of the draft model: the target tokens shifted by one, with the next token of
each request at its last index. -/
def shiftInputs (inputIds targetTokenIds nextTokenIds queryStartLoc : List ℤ) :
    Except SpecError (List ℤ) :=
  let shifted := targetTokenIds.tail ++ inputIds.drop (targetTokenIds.length - 1)
  match scatter shifted (queryStartLoc.tail.map (· - 1)) nextTokenIds with
  | none => .error .indexError
  | some inputIds => .ok inputIds

/-! ### Requests -/

/-- A request in the batch: its query tokens with their slots, the first `kept` of which are left,
and the token that it sampled. -/
structure Drafted where
  tokens : List ℤ
  slots : List ℤ
  seqLen : ℤ
  numComputed : ℤ
  blocks : List ℕ
  kept : ℕ
  next : ℤ
  length_slots : slots.length = tokens.length
  kept_pos : 1 ≤ kept
  kept_le : kept ≤ tokens.length

def Drafted.rejected (r : Drafted) : ℕ :=
  r.tokens.length - r.kept

def Drafted.queryLen (r : Drafted) : ℕ :=
  r.tokens.length

/-- The metadata of the batch. -/
def draftedMetadata (reqs : List Drafted) : PagedMetadata (List ℤ) where
  toCommonAttentionMetadata := .ofTokens (reqs.map Drafted.queryLen)
  seqLensCpu := reqs.map Drafted.seqLen
  numComputedTokensCpu := reqs.map Drafted.numComputed
  blockTableTensor := reqs.map Drafted.blocks
  slotMapping := reqs.flatMap Drafted.slots
  causal := true

/-- The metadata of the batch without the rejected tokens. -/
def keptMetadata (reqs : List Drafted) (maxQueryLen : ℤ) : PagedMetadata (List ℤ) where
  queryStartLocCpu := (0 :: cumsum (reqs.map Drafted.kept)).map (↑)
  numReqs := reqs.length
  numActualTokens := (reqs.map Drafted.kept).sum
  maxQueryLen := maxQueryLen
  seqLensCpu := reqs.map fun r => r.seqLen - (r.rejected : ℤ)
  numComputedTokensCpu := reqs.map Drafted.numComputed
  blockTableTensor := reqs.map Drafted.blocks
  slotMapping := reqs.flatMap fun r => r.slots.take r.kept
  causal := true

/-- The indices of the first tokens of each request. -/
def keptIndices (reqs : List Drafted) : List ℕ :=
  placed Drafted.queryLen (fun start r => (range r.kept).map (start + ·)) 0 reqs

variable {reqs : List Drafted}

theorem dropLast_cumsumFrom {ρ : Type} (len : ρ → ℕ) (rs : List ρ) (start : ℕ) :
    (start :: cumsumFrom start (rs.map len)).dropLast = placed len (fun s _ => [s]) start rs := by
  induction rs generalizing start with
  | nil => rfl
  | cons r rs ih =>
    rw [map_cons, cumsumFrom, dropLast_cons_cons, ih]
    rfl

theorem scanl_eq_cumsumFrom (ns : List ℕ) (start : ℕ) :
    (ns.map ((↑) : ℕ → ℤ)).scanl (· + ·) (start : ℤ) =
      ((start :: cumsumFrom start ns).map (↑) : List ℤ) := by
  induction ns generalizing start with
  | nil => rfl
  | cons n ns ih =>
    rw [map_cons, scanl_cons, ← Int.natCast_add, ih]
    rfl

theorem sum_map_cast (ns : List ℕ) : (ns.map ((↑) : ℕ → ℤ)).sum = ns.sum := by
  induction ns with
  | nil => rfl
  | cons n ns ih => rw [map_cons, sum_cons, sum_cons, ih, Int.natCast_add]

/-- The positions in the new arrays, less the new starts of the requests, plus their old starts. -/
theorem tokenIndices_eq (reqs : List Drafted) (start newStart : ℕ) :
    zipWith (· + ·)
        (zipWith (· - ·) ((range' newStart (reqs.map Drafted.kept).sum).map ((↑) : ℕ → ℤ))
          (repeatEach ((placed Drafted.kept (fun s _ => [s]) newStart reqs).map (↑))
            (reqs.map Drafted.kept)))
        (repeatEach ((placed Drafted.queryLen (fun s _ => [s]) start reqs).map (↑))
          (reqs.map Drafted.kept)) =
      (placed Drafted.queryLen (fun s r => (range r.kept).map (s + ·)) start reqs).map
        ((↑) : ℕ → ℤ) := by
  induction reqs generalizing start newStart with
  | nil => rfl
  | cons r reqs ih =>
    have hfirst : zipWith (· - ·) ((range' newStart r.kept).map ((↑) : ℕ → ℤ))
        (replicate r.kept (newStart : ℤ)) = (range r.kept).map (↑) := by
      refine ext_getElem (by simp) fun k hk hk' => ?_
      simp
    have hsecond : zipWith (· + ·) ((range r.kept).map ((↑) : ℕ → ℤ))
        (replicate r.kept (start : ℤ)) = ((range r.kept).map (start + ·)).map (↑) := by
      refine ext_getElem (by simp) fun k hk hk' => ?_
      simp [Int.add_comm]
    rw [map_cons, sum_cons, ← range'_append_1, placed, placed, placed, singleton_append,
      singleton_append, map_append, map_cons, map_cons, repeatEach_cons, repeatEach_cons,
      zipWith_append (by simp), hfirst, zipWith_append (by simp), hsecond, ih, map_append]

/-- The indices that are left read the first entries of each request. -/
theorem gather_keptIndices {row : Drafted → List ℤ} (after : List ℤ)
    (hrow : ∀ r ∈ reqs, (row r).length = r.queryLen) :
    gather (reqs.flatMap row ++ after) ((keptIndices reqs).map (↑)) =
      .ok (reqs.flatMap fun r => (row r).take r.kept) := by
  have hread := map_getElem?_placed (fun _ => 0) Drafted.kept hrow
    (fun r _ => by rw [zero_add]; exact r.kept_le) [] after
  exact gather_eq_ok hread

theorem prepareInputs_eq_ok (hne : reqs ≠ []) {maxNumTokens : ℕ}
    (hroom : (reqs.map Drafted.kept).sum ≤ maxNumTokens) :
    ∃ maxQueryLen, prepareInputs maxNumTokens (draftedMetadata reqs)
        (reqs.map fun r => (r.rejected : ℤ)) =
      .ok (keptMetadata reqs maxQueryLen, (keptIndices reqs).map (↑)) := by
  have hlens : queryLens (draftedMetadata reqs).queryStartLocCpu =
      (reqs.map Drafted.queryLen).map ((↑) : ℕ → ℤ) := queryLens_cumsumFrom 0 _
  -- The lengths without the rejected tokens are the numbers of kept ones.
  have hkept : zipWith (· - ·) ((reqs.map Drafted.queryLen).map ((↑) : ℕ → ℤ))
      (reqs.map fun r => (r.rejected : ℤ)) = (reqs.map Drafted.kept).map (↑) := by
    rw [map_map, map_map, zipWith_map, zipWith_self]
    refine map_congr_left fun r _ => ?_
    have := r.kept_le
    simp only [Function.comp_apply, Drafted.queryLen, Drafted.rejected]
    omega
  have hcounts := mapM_repetitions_natCast (reqs.map Drafted.kept)
  have hidxs := tokenIndices_eq reqs 0 0
  rw [← dropLast_cumsumFrom, ← dropLast_cumsumFrom, map_dropLast, map_dropLast,
    ← scanl_eq_cumsumFrom, Nat.cast_zero, ← range_eq_range'] at hidxs
  obtain ⟨maxQueryLen, hmax⟩ : ∃ m, ((reqs.map Drafted.queryLen).map ((↑) : ℕ → ℤ)).max? = some m :=
    Option.ne_none_iff_exists'.mp (by simpa using hne)
  have hslots := gather_keptIndices [] fun (r : Drafted) (_ : r ∈ reqs) => r.length_slots
  rw [append_nil] at hslots
  have hseqLens : zipWith (· - ·) (reqs.map Drafted.seqLen) (reqs.map fun r => (r.rejected : ℤ)) =
      reqs.map fun r => r.seqLen - (r.rejected : ℤ) := by
    rw [zipWith_map, zipWith_self]
  -- The two arrays of offsets, before and after the rejected tokens are left out.
  have hstart : (draftedMetadata reqs).queryStartLocCpu =
      (0 :: cumsumFrom 0 (reqs.map Drafted.queryLen)).map (↑) := rfl
  have hnewStart : ((reqs.map Drafted.kept).map ((↑) : ℕ → ℤ)).scanl (· + ·) 0 =
      (0 :: cumsum (reqs.map Drafted.kept)).map (↑) := scanl_eq_cumsumFrom _ 0
  have hlength : ((range (reqs.map Drafted.kept).sum).map ((↑) : ℕ → ℤ)).length =
      (repeatEach (((reqs.map Drafted.kept).map ((↑) : ℕ → ℤ)).scanl (· + ·) 0).dropLast
        (reqs.map Drafted.kept)).length := by
    rw [length_map, length_range, length_repeatEach]
    simp
  -- Then the function, line by line.
  refine ⟨maxQueryLen, ?_⟩
  rw [prepareInputs, hlens, hkept, hcounts, hmax, sum_map_cast, Int.toNat_natCast]
  refine bind_eq_ok.mpr ⟨_, rfl, ?_⟩
  dsimp only
  rw [← map_take, take_range, min_eq_left hroom]
  refine bind_eq_ok.mpr ⟨_, if_pos hlength, ?_⟩
  rw [hstart, hidxs]
  refine bind_eq_ok.mpr ⟨_, hslots, ?_⟩
  simp only [draftedMetadata, CommonAttentionMetadata.ofTokens, length_map, hseqLens, hnewStart,
    keptMetadata]
  rfl

/-- The shift by one, with the next tokens set at the ends of the requests. -/
theorem scatter_shift {ρ : Type} (tokens : ρ → List ℤ) (next : ρ → ℤ) {rs : List ρ}
    (hpos : ∀ r ∈ rs, tokens r ≠ []) (before : List ℤ) {after : List ℤ} (hafter : after ≠ []) :
    scatter (before ++ (rs.flatMap tokens ++ after).tail)
        ((cumsumFrom before.length (rs.map fun r => (tokens r).length)).map
          fun n : ℕ => (n : ℤ) - 1) (rs.map next) =
      some (before ++ (rs.flatMap (fun r => (tokens r).tail ++ [next r]) ++ after.tail)) := by
  induction rs generalizing before with
  | nil => rfl
  | cons r rs ih =>
    obtain ⟨_, xs, htoks⟩ := exists_cons_of_ne_nil (hpos r mem_cons_self)
    obtain ⟨_, _, hrest⟩ := exists_cons_of_ne_nil
      (append_ne_nil_of_right_ne_nil (rs.flatMap tokens) hafter)
    have hnext := ih (fun r' hr' => hpos r' (mem_cons_of_mem _ hr')) (before ++ xs ++ [next r])
    rw [hrest, tail_cons] at hnext
    -- the running sum points at the first token of what follows, which is to be overwritten
    have hidx : ((before.length + (xs.length + 1) : ℕ) : ℤ) - 1 =
        ((before ++ xs).length : ℕ) := by
      rw [length_append]
      omega
    have hlength : (before ++ xs ++ [next r]).length = before.length + (xs.length + 1) := by
      rw [length_append, length_append, length_singleton, add_assoc]
    rw [hlength, append_assoc (before ++ xs)] at hnext
    rw [map_cons, cumsumFrom, map_cons, map_cons, scatter, htoks, length_cons, hidx,
      flatMap_cons, htoks, append_assoc, hrest, cons_append, tail_cons, ← append_assoc,
      position_natCast (by simp), Option.bind_some, set_append_last _ rfl]
    refine hnext.trans ?_
    rw [flatMap_cons, htoks, tail_cons]
    simp only [append_assoc, cons_append, nil_append]

/-- The tokens that are left are the first ones of each request, with their slots, the starts are
the running sum of their numbers, and the lengths lack the rejected ones. After the shift the draft
model gets for each of them the token after it in its request, and for the last the next token. -/
theorem draft_inputs (hne : reqs ≠ []) (padding inputIds : List ℤ)
    (hroom : (reqs.map Drafted.kept).sum ≤ inputIds.length) :
    ∃ maxQueryLen,
      prepareInputs inputIds.length (draftedMetadata reqs)
          (reqs.map fun r => (r.rejected : ℤ)) =
        .ok (keptMetadata reqs maxQueryLen, (keptIndices reqs).map (↑)) ∧
      gather (reqs.flatMap Drafted.tokens ++ padding) ((keptIndices reqs).map (↑)) =
        .ok (reqs.flatMap fun r => r.tokens.take r.kept) ∧
      shiftInputs inputIds (reqs.flatMap fun r => r.tokens.take r.kept) (reqs.map Drafted.next)
          (keptMetadata reqs maxQueryLen).queryStartLocCpu =
        .ok ((reqs.flatMap fun r => (r.tokens.take r.kept).tail ++ [r.next]) ++
          inputIds.drop (reqs.map Drafted.kept).sum) := by
  obtain ⟨maxQueryLen, hprepare⟩ := prepareInputs_eq_ok hne hroom
  refine ⟨maxQueryLen, hprepare, gather_keptIndices padding fun r _ => rfl, ?_⟩
  have hlength : (reqs.flatMap fun r => r.tokens.take r.kept).length =
      (reqs.map Drafted.kept).sum := by
    rw [length_flatMap]
    exact congrArg _ (map_congr_left fun r _ => length_take_of_le r.kept_le)
  have hpos : 1 ≤ (reqs.map Drafted.kept).sum := by
    obtain ⟨r, _, rfl⟩ := exists_cons_of_ne_nil hne
    rw [map_cons, sum_cons]
    exact Nat.le_add_right_of_le r.kept_pos
  have hdrop : (inputIds.drop ((reqs.map Drafted.kept).sum - 1)) ≠ [] := by
    rw [← length_pos_iff, length_drop]
    omega
  have hkept : (reqs.map fun r => (r.tokens.take r.kept).length) = reqs.map Drafted.kept :=
    map_congr_left fun r _ => length_take_of_le r.kept_le
  have hscatter := scatter_shift (fun r : Drafted => r.tokens.take r.kept) Drafted.next
    (fun r (_ : r ∈ reqs) => by
      rw [← length_pos_iff, length_take_of_le r.kept_le]
      exact r.kept_pos) [] hdrop
  rw [tail_append_of_ne_nil (by rw [← length_pos_iff]; omega), tail_drop, Nat.sub_add_cancel hpos,
    hkept, nil_append, nil_append, length_nil] at hscatter
  have hends : (keptMetadata reqs maxQueryLen).queryStartLocCpu.tail.map (· - 1) =
      (cumsumFrom 0 (reqs.map Drafted.kept)).map fun n : ℕ => (n : ℤ) - 1 := map_map
  rw [shiftInputs, hlength, hends, hscatter]

theorem draft_inputs_two : ∃ reqs : List Drafted, reqs ≠ [] ∧
    (reqs.map Drafted.kept).sum ≤ [0, 0, 0, (0 : ℤ)].length ∧
    reqs.map (fun r => (r.tokens, r.kept, r.next)) = [([5, 6, 7], 2, 8), ([9], 1, 4)] ∧
    keptIndices reqs = [0, 1, 3] ∧ ∃ metadata,
      prepareInputs 4 (draftedMetadata reqs) [1, 0] = .ok (metadata, [0, 1, 3]) ∧
      shiftInputs [0, 0, 0, 0] [5, 6, 9] [8, 4] metadata.queryStartLocCpu = .ok [6, 8, 4, 0] := by
  let reqs : List Drafted := [
    ⟨[5, 6, 7], [20, 21, 22], 10, 7, [3], 2, 8, rfl, by decide, by decide⟩,
    ⟨[9], [30], 4, 3, [1], 1, 4, rfl, by decide, by decide⟩]
  obtain ⟨_, hprepare, -, hshift⟩ :=
    @draft_inputs reqs nofun [] [0, 0, 0, 0] (by decide)
  exact ⟨reqs, nofun, by decide, rfl, by decide, _, hprepare, hshift⟩

end SpecDecode
