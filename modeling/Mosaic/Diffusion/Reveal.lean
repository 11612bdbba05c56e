import Mosaic.Diffusion.Runner
import Mathlib.Data.Finset.Card
import Mathlib.Data.Finset.Dedup
import Mathlib.Tactic.Linarith

/-!
# What one step reveals

For a request whose sequence has its full length, a step of the runner replaces masks of the
current block by tokens of the model, as many as the quota of the step allows, and leaves every
other position as it is.
-/

namespace Diffusion

open List Tensor
open MachineInt (narrow)

variable {F : Type} [LinearOrder F]

/-! ### Quotas -/

theorem sum_quotas (maskNum steps : ℕ) (h : 0 < steps) :
    ((List.range steps).map fun i =>
      maskNum / steps + if i < maskNum % steps then 1 else 0).sum = maskNum := by
  have hsum : ∀ n, ((List.range n).map fun i =>
      maskNum / steps + if i < maskNum % steps then 1 else 0).sum =
        n * (maskNum / steps) + min n (maskNum % steps) := by
    intro n
    induction n with
    | zero => simp
    | succ n ih =>
      rw [range_succ, map_append, sum_append, ih, map_singleton,
        sum_singleton, Nat.succ_mul]
      split
      · omega
      · omega
  rw [hsum, min_eq_right (Nat.mod_lt _ h).le]
  exact Nat.div_add_mod maskNum steps

/-- Every row of the quotas adds up to the masks of its row, from the larger shares to the smaller,
and no two shares differ by more than one. -/
theorem getNumTransferTokens_even (maskIndex : List (List Bool)) {steps : ℕ} (h : 1 ≤ steps) :
    List.Forall₂ (fun row quotas => quotas.length = steps ∧ quotas.sum = row.count true ∧
      quotas.Pairwise (· ≥ ·) ∧ ∀ a ∈ quotas, ∀ b ∈ quotas, a ≤ b + 1)
      maskIndex (getNumTransferTokens maskIndex steps) := by
  refine forall₂_map_right_iff.mpr (forall₂_same.mpr fun row _ => ?_)
  refine ⟨by simp, sum_quotas _ _ h, ?_, ?_⟩
  · refine pairwise_map.mpr (pairwise_lt_range.imp fun {i j} hij => ?_)
    -- a later step has one more only where the earlier one has
    split_ifs <;> omega
  · intro a ha b hb
    obtain ⟨i, -, rfl⟩ := mem_map.mp ha
    obtain ⟨j, -, rfl⟩ := mem_map.mp hb
    split_ifs <;> omega

theorem getNumTransferTokens_even_two_rows :
    1 ≤ 3 ∧ getNumTransferTokens [[true, true, false, true, true], [false, true]] 3 =
      [[2, 1, 1], [1, 0, 0]] ∧
    List.Forall₂ (fun row quotas => quotas.length = 3 ∧ quotas.sum = row.count true ∧
      quotas.Pairwise (· ≥ ·) ∧ ∀ a ∈ quotas, ∀ b ∈ quotas, a ≤ b + 1)
      [[true, true, false, true, true], [false, true]]
      (getNumTransferTokens [[true, true, false, true, true], [false, true]] 3) :=
  ⟨by decide, by decide, getNumTransferTokens_even _ (by decide)⟩

/-! ### Masks -/

variable {j : ℕ}

theorem mem_maskIndices {maskId : ℤ} {tokens : List ℤ} :
    j ∈ maskIndices maskId tokens ↔ tokens[j]? = some maskId := by
  unfold maskIndices
  rw [mem_filter, mem_range, decide_eq_true_eq]
  constructor
  · intro h
    exact h.2
  · intro h
    exact ⟨(List.getElem?_eq_some_iff.mp h).1, h⟩

/-- The positions of the masks after the prompt. -/
def maskPositions (maskId : ℤ) (promptLen : ℕ) (x : List ℤ) : List ℕ :=
  (maskIndices maskId (x.drop promptLen)).map (promptLen + ·)

theorem mem_maskPositions {maskId : ℤ} {promptLen : ℕ} {x : List ℤ} :
    j ∈ maskPositions maskId promptLen x ↔ promptLen ≤ j ∧ x[j]? = some maskId := by
  unfold maskPositions
  rw [mem_map]
  constructor
  · intro ⟨i, hi, hj⟩
    subst hj
    rw [mem_maskIndices, getElem?_drop] at hi
    exact ⟨Nat.le_add_right _ _, hi⟩
  · intro ⟨hle, hj⟩
    refine ⟨j - promptLen, ?_, by omega⟩
    rw [mem_maskIndices, getElem?_drop, Nat.add_sub_cancel' hle]
    exact hj

theorem nodup_maskPositions (maskId : ℤ) (promptLen : ℕ) (x : List ℤ) :
    (maskPositions maskId promptLen x).Nodup := by
  apply List.Nodup.map
  · intro i j hij
    dsimp only at hij
    omega
  · exact nodup_range.filter _

/-- The masks of the current block. -/
def maskedInBlock (r : DiffusionStepRequest) (x : List ℤ) : Finset ℕ :=
  (Finset.range x.length).filter fun j : ℕ =>
    x[j]? = some r.params.maskId ∧ blockStart r ≤ j ∧ (j : ℤ) < blockEnd r

variable {r : DiffusionStepRequest}

theorem mem_maskedInBlock {x : List ℤ} : j ∈ maskedInBlock r x ↔
      x[j]? = some r.params.maskId ∧ blockStart r ≤ j ∧ (j : ℤ) < blockEnd r := by
  unfold maskedInBlock
  rw [Finset.mem_filter, Finset.mem_range]
  constructor
  · intro h
    exact h.2
  · intro h
    exact ⟨(List.getElem?_eq_some_iff.mp h.1).1, h⟩

/-! ### Confidences -/

/-- The answer of a model: a token that is not the mask and a finite confidence, for each
mask. -/
structure Answers (maskId : ℤ) {masks : ℕ} (out : ModelOutput F masks) : Prop where
  proper : ∀ v ∈ out.index, v ≠ maskId
  finite : ∀ c ∈ out.confidence, c ≠ ⊥

section Selection

variable {r : DiffusionStepRequest} {x : List ℤ} {positions : List ℕ}
variable {confidence : List (WithBot F)}

section

variable (distinct : positions.Nodup) (inside : ∀ p ∈ positions, p < x.length)
  (hlen : positions.length = confidence.length) (finite : ∀ c ∈ confidence, c ≠ ⊥)
  (covers : ∀ j, valid r x j = true → j ∈ positions)
include distinct inside hlen finite covers

/-- Exactly the masks of the block have a confidence above `⊥`. -/
theorem confidences_getElem? {j : ℕ} (hj : j < x.length) :
    ∃ c, (confidences r x positions confidence)[j]? = some c ∧
      (⊥ < c ↔ valid r x j = true) := by
  by_cases hmem : j ∈ positions
  · obtain ⟨i, hi, rfl⟩ := getElem_of_mem hmem
    have hi' : i < confidence.length := hlen ▸ hi
    refine ⟨if valid r x positions[i] then confidence[i] else ⊥, ?_, ?_⟩
    · unfold confidences
      rw [Tensor.scatter_getElem? distinct hi (by simp [hlen]) (by simpa using inside),
        getElem?_zipWith, getElem?_eq_getElem hi, getElem?_eq_getElem hi']
    · cases hvalid : valid r x positions[i] with
      | true => simpa [bot_lt_iff_ne_bot] using finite _ (getElem_mem hi')
      | false => simp
  · refine ⟨⊥, ?_, ?_⟩
    · unfold confidences
      rw [Tensor.scatter_getElem?_of_notMem _ hmem, getElem?_replicate, if_pos hj]
    · simp only [lt_irrefl, false_iff]
      exact mt (covers j) hmem

theorem countP_confidences : (confidences r x positions confidence).countP (⊥ < ·) =
      ((Finset.range x.length).filter fun j => valid r x j = true).card := by
  have hsize : (confidences r x positions confidence).length = x.length := by
    simp [confidences]
  have hfilter : (List.range x.length).filter
      (fun j => (confidences r x positions confidence)[j]?.any (⊥ < ·)) =
        (List.range x.length).filter fun j => valid r x j := by
    apply filter_congr
    intro j hj
    obtain ⟨_, hc, habove⟩ :=
      confidences_getElem? distinct inside hlen finite covers (mem_range.mp hj)
    rw [hc, Bool.eq_iff_iff]
    simpa using habove
  rw [← Tensor.length_filter_range, hsize, hfilter]
  -- the filtered range lists the masks of the block without repetition
  have hset : (Finset.range x.length).filter (fun j => valid r x j = true) =
      ((List.range x.length).filter fun j => valid r x j).toFinset := by
    ext j
    simp
  rw [hset, toFinset_card_of_nodup (nodup_range.filter _)]

end

/-- The selection stays within the quota and above `⊥`. -/
theorem selected_spec (env : RunnerEnv F) (quota : ℕ) (confidence : List (WithBot F)) :
    (selected env quota confidence).Nodup ∧
      (selected env quota confidence).length = min quota (confidence.countP (⊥ < ·)) ∧
      ∀ j ∈ selected env quota confidence, ∃ c, confidence[j]? = some c ∧ ⊥ < c := by
  unfold selected
  split
  · have hcount : min quota (confidence.countP (⊥ < ·)) ≤ confidence.countP (⊥ < ·) :=
      min_le_right _ _
    have hlen := hcount.trans countP_le_length
    refine ⟨env.topk.nodup_select hlen, env.topk.length_select hlen, ?_⟩
    intro j hj
    have hjlen := env.topk.lt_length hlen hj
    have hget := getElem?_eq_getElem hjlen
    exact ⟨_, hget, env.topk.above hcount hj hget⟩
  · have hzero : quota = 0 := by omega
    simp [hzero]

end Selection

/-! ### The step -/

theorem fits_fresh (env : RunnerEnv F) (tensor : FreshTensor) (size : ℕ) :
    ∀ v ∈ env.fresh tensor size, FitsInt64 v := by
  intro v hv
  obtain ⟨_, -, rfl⟩ := mem_map.mp hv
  exact fitsInt64_toInt _

/-- What a step puts into a sequence was stored in a tensor. -/
theorem revealFirst_fits (env : RunnerEnv F) (r : DiffusionStepRequest) (x : List ℤ)
    (tokens indices : List ℕ) (out : ModelOutput F indices.length) :
    ∀ v ∈ (revealFirst env r x tokens indices out).newX, v ∈ x ∨ FitsInt64 v := by
  have heach : ∀ sel positions : List ℕ, ∀ v ∈ x.mapIdx (fun j v =>
      if j ∈ sel then (candidates env x.length positions out.index)[j]?.getD v else v),
      v ∈ x ∨ FitsInt64 v := by
    intro sel positions v hv
    obtain ⟨j, hj, rfl⟩ := mem_mapIdx.mp hv
    split
    · cases hx0 : (candidates env x.length positions out.index)[j]? with
      | none => exact .inl (getElem_mem hj)
      | some v =>
        right
        rcases mem_of_mem_scatter (mem_of_getElem? hx0) with hfresh | hindex
        · exact fits_fresh env _ _ v hfresh
        · exact out.index_fits v hindex
    · exact .inl (getElem_mem hj)
  intro v hv
  exact heach _ _ v (mem_of_mem_take (mem_of_mem_drop hv))

/-- `y` is `x` with `count` masks of the current block replaced by tokens. -/
structure Reveals (r : DiffusionStepRequest) (count : ℕ) (x y : List ℤ) (sel : Finset ℕ) :
    Prop where
  length : y.length = x.length
  masked : sel ⊆ maskedInBlock r x
  card : sel.card = count
  kept : ∀ j, j ∉ sel → y[j]? = x[j]?
  revealed : ∀ j ∈ sel, y[j]? ≠ some r.params.maskId
  fits : ∀ v ∈ y, v ∈ x ∨ FitsInt64 v

/-- The request has its full length, which fits 32 bits, an output part, and a block length that
is not negative. -/
structure Complete (r : DiffusionStepRequest) : Prop where
  length : r.totalLen = r.x.length
  short : r.totalLen < 2 ^ 31
  output : (r.promptLen : ℤ) < r.totalLen
  block : 0 ≤ r.params.blockLength

theorem promptLen_le_blockStart (hblock : 0 ≤ r.params.blockLength) :
    (r.promptLen : ℤ) ≤ blockStart r := by
  have := mul_nonneg (Int.natCast_nonneg r.blockIdx) hblock
  unfold blockStart
  omega

theorem Complete.narrow_totalLen (h : Complete r) : narrow r.totalLen = r.totalLen := by
  have hlength := h.length
  have hshort := h.short
  unfold narrow
  omega

theorem Complete.valid_iff (h : Complete r) {x : List ℤ} :
    valid r x j = true ↔ j ∈ maskedInBlock r x := by
  have hend : blockEnd r ≤ r.totalLen := min_le_right _ _
  unfold valid
  rw [mem_maskedInBlock, decide_eq_true_eq, h.narrow_totalLen, min_eq_right hend]

/-- All masks of the current block get an answer, since blocks begin behind the prompt. -/
theorem Complete.mem_maskPositions_of_valid (h : Complete r)
    (hj : valid r r.x j = true) : j ∈ maskPositions r.params.maskId r.promptLen r.x := by
  rw [h.valid_iff, mem_maskedInBlock] at hj
  have hstart := promptLen_le_blockStart h.block
  exact mem_maskPositions.mpr ⟨by omega, hj.1⟩

theorem lt_length_of_mem_maskPositions {maskId : ℤ} {promptLen : ℕ} {x : List ℤ}
    (hj : j ∈ maskPositions maskId promptLen x) : j < x.length :=
  (List.getElem?_eq_some_iff.mp (mem_maskPositions.mp hj).2).1

/-- The token sequence after a step: the selected positions hold the tokens of the model. -/
theorem revealFirst_newX (env : RunnerEnv F) (h : Complete r) (tokens : List ℕ)
    (out : ModelOutput F (maskIndices r.params.maskId (r.x.drop r.promptLen)).length) :
    (revealFirst env r r.x tokens _ out).newX = r.x.mapIdx fun j v =>
      if j ∈ selected env (tokens.getD r.stepIdxInBlock 0) (confidences r r.x
          (maskPositions r.params.maskId r.promptLen r.x) out.confidence) then
        (candidates env r.x.length (maskPositions r.params.maskId r.promptLen r.x)
          out.index)[j]?.getD v
      else v := by
  have hstores : 0 < r.totalLen - r.promptLen := by
    have := h.output
    omega
  have hwhole : ∀ {α : Type _} (xs : List α), xs.length = r.x.length →
      slice xs 0 r.totalLen = xs := by
    intro α xs hxs
    have hlength := h.length
    rw [slice_zero_of_nonneg xs (by omega), take_of_length_le (by omega)]
  have hconf : slice (confidences r r.x (maskPositions r.params.maskId r.promptLen r.x)
      out.confidence) 0 r.totalLen = confidences r r.x
        (maskPositions r.params.maskId r.promptLen r.x) out.confidence :=
    hwhole _ (by simp [confidences])
  unfold revealFirst
  simp only [h.narrow_totalLen, hstores, if_true]
  rw [show (maskIndices r.params.maskId (r.x.drop r.promptLen)).map (r.promptLen + ·) =
    maskPositions r.params.maskId r.promptLen r.x from rfl, hconf, hwhole _ length_mapIdx]

/-- A step replaces as many masks of the current block as the quota allows. -/
theorem revealFirst_reveals (env : RunnerEnv F) (h : Complete r)
    (tokens : List ℕ) {indices : List ℕ}
    (hidxs : indices = maskIndices r.params.maskId (r.x.drop r.promptLen))
    {out : ModelOutput F indices.length} (answers : Answers r.params.maskId out) :
    ∃ sel, Reveals r (min (tokens.getD r.stepIdxInBlock 0) (maskedInBlock r r.x).card) r.x
      (revealFirst env r r.x tokens indices out).newX sel := by
  subst hidxs
  have hnew := revealFirst_newX env h tokens out
  set positions := maskPositions r.params.maskId r.promptLen r.x with hposs
  have hdistinct : positions.Nodup := nodup_maskPositions _ _ _
  have hinside : ∀ p ∈ positions, p < r.x.length := fun p => lt_length_of_mem_maskPositions
  have hcovers : ∀ j, valid r r.x j = true → j ∈ positions :=
    fun j => h.mem_maskPositions_of_valid
  have hlenI : positions.length = out.index.length := by
    rw [out.length_index, hposs, maskPositions, length_map]
  have hlenC : positions.length = out.confidence.length := by
    rw [out.length_confidence, hposs, maskPositions, length_map]
  set conf := confidences r r.x positions out.confidence with hconf
  set sel := selected env (tokens.getD r.stepIdxInBlock 0) conf with hsel
  obtain ⟨hnodup, hlength, habove⟩ := selected_spec env (tokens.getD r.stepIdxInBlock 0) conf
  rw [← hsel] at hnodup hlength habove
  -- only the masks of the block have a confidence, so only they are selected
  have hvalid : ∀ j ∈ sel, valid r r.x j = true := by
    intro j hj
    obtain ⟨_, hc, hlt⟩ := habove j hj
    have hjlen : j < r.x.length := by
      have := (List.getElem?_eq_some_iff.mp hc).1
      simpa [hconf, confidences] using this
    obtain ⟨_, hc', hiff⟩ :=
      confidences_getElem? hdistinct hinside hlenC answers.finite hcovers hjlen
    rw [← hconf, hc] at hc'
    cases hc'
    exact hiff.mp hlt
  refine ⟨sel.toFinset, ?_⟩
  exact {
    length := by rw [hnew, length_mapIdx]
    masked := by
      intro j hj
      exact h.valid_iff.mp (hvalid j (by simpa using hj))
    card := by
      have hmasked : (Finset.range r.x.length).filter (fun j => valid r r.x j = true) =
          maskedInBlock r r.x := by
        ext j
        rw [Finset.mem_filter, h.valid_iff, Finset.mem_range, and_iff_right_iff_imp]
        intro hj
        exact (List.getElem?_eq_some_iff.mp (mem_maskedInBlock.mp hj).1).1
      rw [toFinset_card_of_nodup hnodup, hlength,
        countP_confidences hdistinct hinside hlenC answers.finite hcovers, hmasked]
    kept := by
      intro j hj
      rw [mem_toFinset] at hj
      rw [hnew, getElem?_mapIdx]
      simp [hj]
    revealed := by
      intro j hj
      rw [mem_toFinset] at hj
      -- the selected position is one of the masks, and holds the token of the model
      obtain ⟨i, hi, rfl⟩ := getElem_of_mem (hcovers j (hvalid j hj))
      have hi' : i < out.index.length := hlenI ▸ hi
      have hcandidate : (candidates env r.x.length positions out.index)[positions[i]]? =
          some out.index[i] := by
        unfold candidates
        rw [Tensor.scatter_getElem? hdistinct hi hlenI (by simpa [length_fresh] using hinside),
          getElem?_eq_getElem hi']
      rw [hnew, getElem?_mapIdx,
        getElem?_eq_getElem (hinside _ (getElem_mem hi)), Option.map_some, if_pos hj,
        hcandidate, Option.getD_some]
      intro hmask
      exact answers.proper _ (getElem_mem hi') (Option.some.inj hmask)
    fits := revealFirst_fits env r r.x tokens _ out }

end Diffusion
