import Mosaic.Diffusion.Reveal
import Mosaic.Diffusion.SchedulerMoves
import Mathlib.Order.Interval.Finset.Nat

/-!
# Block diffusion decoding

A request is decoded block by block: the scheduler counts the steps of a block, the runner
reveals a quota of the masks of that block in each step. The two agree: when the scheduler goes
on to the next block, the runner has revealed every mask of the last one.
-/

namespace Diffusion

open List Int

variable {F : Type} [LinearOrder F]

/-! ### Parameters -/

/-- The output is made of whole blocks of at least one token, and every block gets the same
number of steps. -/
structure Decodable (p : DiffusionParams) : Prop where
  block : 1 ≤ p.blockLength
  gen : 1 ≤ p.genLength
  blocks : p.blockLength ∣ p.genLength
  steps : p.genLength / p.blockLength ∣ p.steps
  unguided : p.cfgScale = 0

/-- The ids, the length and the quotas of the request can be stored, the length with 32 bits. -/
structure Storable (req : DiffusionRequest) : Prop where
  short : (req.inputTokenIds.length : ℤ) + req.params.genLength < 2 ^ 31
  prompt_fits : ∀ t ∈ req.inputTokenIds, FitsInt64 t
  maskId_fits : FitsInt64 req.params.maskId
  quotas_fit : FitsInt64 (8 * req.params.stepsPerBlock)

namespace Decodable

variable {p : DiffusionParams}

section

variable (h : Decodable p)
include h

theorem numBlocks_mul : p.numBlocks * p.blockLength = p.genLength := by
  have hblock := h.block
  have hmul : p.genLength / p.blockLength * p.blockLength = p.genLength :=
    Int.ediv_mul_cancel h.blocks
  have hpos : 1 ≤ p.genLength / p.blockLength := by
    by_contra hlt
    have hle : p.genLength / p.blockLength ≤ 0 := by omega
    have := mul_nonpos_of_nonpos_of_nonneg hle (by omega : 0 ≤ p.blockLength)
    have := h.gen
    omega
  unfold DiffusionParams.numBlocks
  rw [max_eq_right hblock, max_eq_right hpos]
  exact hmul

theorem numBlocks_eq : p.genLength / p.blockLength = p.numBlocks := by
  have hblock := h.block
  rw [← h.numBlocks_mul]
  exact mul_ediv_cancel _ (by omega)

theorem fdiv_eq : p.genLength.fdiv p.blockLength = p.numBlocks := by
  have hblock := h.block
  rw [fdiv_eq_ediv_of_nonneg _ (by omega), h.numBlocks_eq]

theorem genLength_fmod : p.genLength.fmod p.blockLength = 0 := by
  have hblock := h.block
  rw [fmod_eq_emod_of_nonneg _ (by omega)]
  exact emod_eq_zero_of_dvd h.blocks

theorem steps_fmod : p.steps.fmod p.numBlocks = 0 := by
  have hnum := p.one_le_numBlocks
  rw [fmod_eq_emod_of_nonneg _ (by omega), ← h.numBlocks_eq]
  exact emod_eq_zero_of_dvd h.steps

theorem checkParams_ok : checkParams p = .ok () := by
  have hblock := h.block
  have hnum := p.one_le_numBlocks
  unfold checkParams
  rw [if_neg (by omega), if_neg (by simp [h.genLength_fmod]), h.fdiv_eq, if_neg (by omega),
    if_neg (by simp [h.steps_fmod])]

end

end Decodable

/-- The quotas of the steps of a block. -/
def quotas (p : DiffusionParams) : List ℕ :=
  (List.range p.stepsPerBlock.toNat).map fun i =>
    p.blockLength.toNat / p.stepsPerBlock.toNat +
      if i < p.blockLength.toNat % p.stepsPerBlock.toNat then 1 else 0

@[simp] theorem length_quotas (p : DiffusionParams) :
    (quotas p).length = p.stepsPerBlock.toNat := by
  simp [quotas]

theorem quotas_sum (p : DiffusionParams) : (quotas p).sum = p.blockLength.toNat := by
  apply sum_quotas
  have := p.one_le_stepsPerBlock
  omega

theorem count_map_interval (a b n : ℕ) :
    ((List.range n).map fun j => decide (a ≤ j ∧ j < b)).count true = min b n - min a n := by
  induction n with
  | zero => simp
  | succ n ih =>
    rw [range_succ, map_append, count_append, ih, map_singleton,
      count_singleton]
    by_cases h : a ≤ n ∧ n < b
    · simp only [h, decide_true, and_self, beq_self_eq_true, if_true]
      omega
    · simp only [h, decide_false, beq_iff_eq, Bool.false_eq_true, if_false]
      omega

variable {r : DiffusionStepRequest}

/-- A block that lies in the sequence gets its quotas from its full length. -/
theorem Decodable.requestTokens_ok (h : Decodable r.params)
    (hquotas : FitsInt64 (8 * r.params.stepsPerBlock))
    (htotal : r.totalLen = r.promptLen + r.params.genLength)
    (hblock : (r.blockIdx : ℤ) < r.params.numBlocks) :
    requestTokens r.totalLen.toNat r = .ok (quotas r.params) := by
  have hone := h.block
  have hnum := r.params.one_le_numBlocks
  have hmul := h.numBlocks_mul
  have hnext : ((r.blockIdx : ℤ) + 1) * r.params.blockLength ≤ r.params.genLength := by
    rw [← hmul]
    exact mul_le_mul_of_nonneg_right hblock (by omega)
  have hnonneg := mul_nonneg (natCast_nonneg r.blockIdx) (by omega : 0 ≤ r.params.blockLength)
  -- The block ends inside the sequence and is not cut.
  have hend : blockEnd r = blockStart r + r.params.blockLength := by
    unfold blockEnd blockStart
    rw [htotal]
    apply min_eq_left
    linarith
  have hfdiv := h.fdiv_eq
  have hgen := h.genLength_fmod
  have hsteps := h.steps_fmod
  -- The mask counts the positions of the block, and there are as many as it is long.
  have hcount : (blockMask r.totalLen.toNat r).count true = r.params.blockLength.toNat := by
    have hstart : 0 ≤ blockStart r := by
      unfold blockStart
      omega
    have hle : blockStart r + r.params.blockLength ≤ r.totalLen := by
      unfold blockStart
      rw [htotal]
      linarith
    have hmask : blockMask r.totalLen.toNat r = (List.range r.totalLen.toNat).map fun j =>
        decide ((blockStart r).toNat ≤ j ∧ j < (blockStart r + r.params.blockLength).toNat) := by
      unfold blockMask
      apply map_congr_left
      intro j _
      rw [hend, decide_eq_decide]
      omega
    rw [hmask, count_map_interval]
    omega
  have hfit : ¬¬FitsInt64 (8 * max 1 (r.params.steps / r.params.numBlocks)) :=
    not_not.mpr hquotas
  unfold requestTokens
  dsimp only
  rw [if_neg (by omega : ¬ r.params.blockLength ≤ 0), hfdiv, if_neg (by simp [hgen]),
    max_eq_right hnum, if_neg (by simp [hsteps]), fdiv_eq_ediv_of_nonneg _ (by omega),
    if_neg hfit]
  simp only [getNumTransferTokens, map_cons, map_nil, headD_cons, hcount]
  rfl

/-- The quotas of a block were stored. -/
theorem Decodable.quotas_fit_of_requestTokens (h : Decodable r.params) {width : ℕ}
    {tokens : List ℕ} (htokens : requestTokens width r = .ok tokens) :
    FitsInt64 (8 * r.params.stepsPerBlock) := by
  have hone := h.block
  have hnum := r.params.one_le_numBlocks
  unfold requestTokens at htokens
  dsimp only at htokens
  rw [if_neg (by omega : ¬ r.params.blockLength ≤ 0), h.fdiv_eq, max_eq_right hnum,
    fdiv_eq_ediv_of_nonneg _ (by omega)] at htokens
  split at htokens
  · cases htokens
  · split at htokens
    · cases htokens
    · split at htokens
      · cases htokens
      · rename_i hfit
        exact not_not.mp hfit

theorem sum_drop_eq (q : List ℕ) (i : ℕ) : (q.drop i).sum = q.getD i 0 + (q.drop (i + 1)).sum := by
  by_cases h : i < q.length
  · rw [drop_eq_getElem_cons h, sum_cons, getD_eq_getElem?_getD,
      getElem?_eq_getElem h, Option.getD_some]
  · rw [drop_of_length_le (by omega), drop_of_length_le (by omega),
      getD_eq_getElem?_getD, getElem?_eq_none (by omega), Option.getD_none]
    rfl

/-! ### The invariant -/

/-- The prompt is untouched, the blocks before the current one hold no mask, and the blocks
after it hold nothing else. -/
structure Decoding (req : DiffusionRequest) (st : DiffusionRuntimeState) : Prop where
  reqId : st.reqId = req.reqId
  params : st.params = req.params
  promptLen : st.promptLen = req.inputTokenIds.length
  totalLen : st.totalLen = st.promptLen + req.params.genLength
  length : (st.x.length : ℤ) = st.totalLen
  prompt : st.x.take st.promptLen = req.inputTokenIds
  fits : ∀ t ∈ st.x, FitsInt64 t
  earlier : ∀ j : ℕ, st.promptLen ≤ j →
    (j : ℤ) < st.promptLen + st.blockIdx * req.params.blockLength →
    st.x[j]? ≠ some req.params.maskId
  later : ∀ j : ℕ, st.promptLen + (st.blockIdx + 1) * req.params.blockLength ≤ (j : ℤ) →
    j < st.x.length → st.x[j]? = some req.params.maskId

/-- The current block has as many masks as the quotas of its remaining steps. -/
structure OnQuota (st : DiffusionRuntimeState) : Prop extends st.InBudget where
  masks : (maskedInBlock st.toStepRequest st.x).card =
    ((quotas st.params).drop st.stepIdxInBlock).sum

variable {sel : Finset ℕ}

section

variable {count : ℕ} {x y : List ℤ} (h : Reveals r count x y sel)
include h

/-- The masks of the current block after a step. -/
theorem Reveals.maskedInBlock_eq : maskedInBlock r y = maskedInBlock r x \ sel := by
  ext j
  rw [Finset.mem_sdiff, mem_maskedInBlock, mem_maskedInBlock]
  by_cases hj : j ∈ sel
  · simp [hj, h.revealed j hj]
  · simp [hj, h.kept j hj]

theorem Reveals.card_maskedInBlock :
    (maskedInBlock r y).card = (maskedInBlock r x).card - count := by
  rw [h.maskedInBlock_eq, Finset.card_sdiff_of_subset h.masked, h.card]

/-- A step changes positions of the current block only, and only masks. -/
theorem Reveals.getElem?_eq {j : ℕ}
    (hj : (j : ℤ) < blockStart r ∨ blockEnd r ≤ j ∨ x[j]? ≠ some r.params.maskId) :
    y[j]? = x[j]? := by
  apply h.kept
  intro hsel
  have hmem := mem_maskedInBlock.mp (h.masked hsel)
  rcases hj with hj | hj | hj
  · omega
  · omega
  · exact hj hmem.1

end

namespace Decoding

variable {req : DiffusionRequest} {st : DiffusionRuntimeState}

section

variable (h : Decoding req st) (hp : Decodable req.params)
include h hp

theorem complete (hs : Storable req) : Complete st.toStepRequest where
  length := h.length.symm
  short := by
    have hshort := hs.short
    have htotal := h.totalLen
    have hprompt := h.promptLen
    simp only [DiffusionRuntimeState.toStepRequest]
    omega
  output := by
    have hgen := hp.gen
    have htotal := h.totalLen
    simp only [DiffusionRuntimeState.toStepRequest]
    omega
  block := by
    have hblock := hp.block
    simp only [DiffusionRuntimeState.toStepRequest, h.params]
    omega

/-- A block within the budget lies in the sequence. -/
theorem blockEnd_eq (hb : st.InBudget) :
    blockEnd st.toStepRequest = blockStart st.toStepRequest + req.params.blockLength := by
  have hone := hp.block
  have hnext : ((st.blockIdx : ℤ) + 1) * req.params.blockLength ≤ req.params.genLength := by
    rw [← hp.numBlocks_mul, ← h.params]
    exact mul_le_mul_of_nonneg_right hb.block (by rw [h.params]; omega)
  unfold blockEnd blockStart
  simp only [DiffusionRuntimeState.toStepRequest, h.params, h.totalLen]
  apply min_eq_left
  linarith

theorem steppable (hs : Storable req) (hb : st.InBudget) : Steppable st.toStepRequest ∧
      requestTokens st.totalLen.toNat st.toStepRequest = .ok (quotas req.params) := by
  have htoks : requestTokens st.totalLen.toNat st.toStepRequest = .ok (quotas st.params) := by
    apply Decodable.requestTokens_ok
    · simpa [DiffusionRuntimeState.toStepRequest, h.params] using hp
    · simpa [DiffusionRuntimeState.toStepRequest, h.params] using hs.quotas_fit
    · simpa [DiffusionRuntimeState.toStepRequest, h.params] using h.totalLen
    · exact hb.block
  have hcomplete := h.complete hp hs
  have hlength := hcomplete.length
  have hshort := hcomplete.short
  rw [h.params] at htoks
  refine ⟨⟨by omega, by unfold FitsInt64; omega, by rw [hcomplete.narrow_totalLen]; omega,
    .inl (by omega), h.fits, ?_, ?_, ⟨_, htoks⟩, ?_⟩, htoks⟩
  · simpa [DiffusionRuntimeState.toStepRequest, h.params] using hs.maskId_fits
  · simpa [DiffusionRuntimeState.toStepRequest, h.params] using hp.checkParams_ok
  · simp [DiffusionRuntimeState.toStepRequest, h.params, hp.unguided]

/-- The runner answers the step request of the state with one update, which reveals as many
masks as the quota says. -/
theorem execute (hs : Storable req) {env : RunnerEnv F} (hq : OnQuota st)
    (answers : ∀ ctx, Answers req.params.maskId (env.model ctx)) :
    ∃ up sel, executeDiffusionOnce env ⟨[st.toStepRequest]⟩ = .ok [up] ∧
      up.reqId = req.reqId ∧
      Reveals st.toStepRequest ((quotas req.params).getD st.stepIdxInBlock 0) st.x up.newX sel := by
  obtain ⟨hstep, htoks⟩ := h.steppable hp hs hq.toInBudget
  have hcomplete := h.complete hp hs
  have hlen : st.toStepRequest.totalLen.toNat = st.x.length := by
    rw [hcomplete.length, toNat_natCast]
    rfl
  have hrow : padRow st.toStepRequest.params.maskId st.toStepRequest.totalLen.toNat
      st.toStepRequest.x = .ok st.x := by
    rw [hlen, show st.toStepRequest.x = st.x from rfl, padRow_of_le _ h.fits le_rfl, Nat.sub_self,
      replicate_zero, append_nil]
  have hexec := executeDiffusionOnce_single env hstep hrow htoks
  dsimp only at hexec
  rw [hcomplete.narrow_totalLen, hlen, take_length] at hexec
  set ctx := forwardContext st.toStepRequest.params st.toStepRequest.promptLen
    (seqLens [st.toStepRequest]) st.x with hctx
  have hanswers : Answers st.toStepRequest.params.maskId (env.model ctx) := by
    have := answers ctx
    rwa [← h.params] at this
  have hindices : ctx.maskIndices = _ := rfl
  obtain ⟨sel, hreveals⟩ := revealFirst_reveals env hcomplete (quotas req.params) hindices hanswers
  refine ⟨_, sel, hexec, h.reqId, ?_⟩
  -- the block still holds the masks of this and the later steps, so the quota is not cut
  have hquota : (quotas req.params).getD st.toStepRequest.stepIdxInBlock 0 ≤
      (maskedInBlock st.toStepRequest st.toStepRequest.x).card := by
    rw [show st.toStepRequest.x = st.x from rfl, hq.masks, h.params]
    rw [show st.toStepRequest.stepIdxInBlock = st.stepIdxInBlock from rfl, sum_drop_eq]
    exact Nat.le_add_right _ _
  rw [min_eq_left hquota] at hreveals
  exact hreveals

end

variable {sel : Finset ℕ} {y : List ℤ}

/-- The masks that a step leaves in its block are those of the later steps. -/
theorem card_after_step (hq : OnQuota st) (h : Decoding req st)
    (hr : Reveals st.toStepRequest ((quotas req.params).getD st.stepIdxInBlock 0) st.x y sel) :
    (maskedInBlock st.toStepRequest y).card =
      ((quotas req.params).drop (st.stepIdxInBlock + 1)).sum := by
  rw [hr.card_maskedInBlock, hq.masks, h.params, sum_drop_eq]
  omega

variable {count : ℕ}

/-- A step keeps everything outside its block. -/
theorem kept_outside (h : Decoding req st) (hp : Decodable req.params) (hb : st.InBudget)
    (hr : Reveals st.toStepRequest count st.x y sel)
    {j : ℕ} (hj : (j : ℤ) < st.promptLen + st.blockIdx * req.params.blockLength ∨
      st.promptLen + (st.blockIdx + 1) * req.params.blockLength ≤ (j : ℤ)) :
    y[j]? = st.x[j]? := by
  apply hr.getElem?_eq
  rw [h.blockEnd_eq hp hb]
  unfold blockStart
  simp only [DiffusionRuntimeState.toStepRequest, h.params]
  rcases hj with hj | hj
  · exact .inl hj
  · right
    left
    linarith

/-- A request that is finished by its masks has none after the prompt. -/
theorem not_mask_of_finishedByMask {st : DiffusionRuntimeState}
    (hfin : st.finishedByMask = true) {j : ℕ} (hprompt : st.promptLen ≤ j) :
    st.x[j]? ≠ some st.params.maskId := by
  intro hmask
  unfold DiffusionRuntimeState.finishedByMask at hfin
  rw [beq_iff_eq, count_eq_zero] at hfin
  apply hfin
  rw [mem_iff_getElem?]
  refine ⟨j - st.promptLen, ?_⟩
  rw [getElem?_drop, Nat.add_sub_cancel' hprompt]
  exact hmask

section

variable (h : Decoding req st) (hp : Decodable req.params) (hb : st.InBudget)
  (hr : Reveals st.toStepRequest count st.x y sel)
include h hp hb hr

/-- What does not depend on the counters. -/
theorem keeps_prompt : y.take st.promptLen = req.inputTokenIds := by
  rw [← h.prompt]
  apply ext_getElem?
  intro j
  rw [getElem?_take, getElem?_take]
  by_cases hj : j < st.promptLen
  · rw [if_pos hj, if_pos hj]
    have hnonneg := mul_nonneg (natCast_nonneg st.blockIdx)
      (by have := hp.block; omega : 0 ≤ req.params.blockLength)
    exact h.kept_outside hp hb hr (.inl (by omega))
  · rw [if_neg hj, if_neg hj]

omit hp hb in
theorem keeps_fits : ∀ t ∈ y, FitsInt64 t :=
  fun t ht => (hr.fits t ht).elim (h.fits t) id

/-- The step stays in its block. -/
theorem stay : Decoding req { st with x := y, stepIdxInBlock := st.stepIdxInBlock + 1 } where
  reqId := h.reqId
  params := h.params
  promptLen := h.promptLen
  totalLen := h.totalLen
  length := by
    rw [hr.length]
    exact h.length
  prompt := h.keeps_prompt hp hb hr
  fits := h.keeps_fits hr
  earlier := by
    intro j hprompt hj
    rw [h.kept_outside hp hb hr (.inl hj)]
    exact h.earlier j hprompt hj
  later := by
    intro j hj hlen
    rw [h.kept_outside hp hb hr (.inr hj)]
    rw [hr.length] at hlen
    exact h.later j hj hlen

/-- The step completes its block, which has no mask left. -/
theorem next (hnone : maskedInBlock st.toStepRequest y = ∅) :
    Decoding req { st with x := y, stepIdxInBlock := 0, blockIdx := st.blockIdx + 1 } where
  reqId := h.reqId
  params := h.params
  promptLen := h.promptLen
  totalLen := h.totalLen
  length := by
    rw [hr.length]
    exact h.length
  prompt := h.keeps_prompt hp hb hr
  fits := h.keeps_fits hr
  earlier := by
    intro j hprompt hj
    push_cast at hj
    by_cases hold : (j : ℤ) < st.promptLen + st.blockIdx * req.params.blockLength
    · rw [h.kept_outside hp hb hr (.inl hold)]
      exact h.earlier j hprompt hold
    · -- a mask here would be a mask of the block that was just completed
      intro hmask
      have hmem : j ∈ maskedInBlock st.toStepRequest y := by
        rw [mem_maskedInBlock, h.blockEnd_eq hp hb]
        unfold blockStart
        simp only [DiffusionRuntimeState.toStepRequest, h.params]
        exact ⟨hmask, by omega, by linarith⟩
      rw [hnone] at hmem
      exact absurd hmem (Finset.notMem_empty j)
  later := by
    intro j hj hlen
    push_cast at hj
    have hone := hp.block
    have houtside : st.promptLen + (st.blockIdx + 1) * req.params.blockLength ≤ (j : ℤ) := by
      linarith
    rw [h.kept_outside hp hb hr (.inr houtside)]
    rw [hr.length] at hlen
    exact h.later j houtside hlen

end

/-- A block that was not started holds one mask for each of its tokens. -/
theorem onQuota_of_fresh (h : Decoding req st) (hp : Decodable req.params) (hb : st.InBudget)
    (hzero : st.stepIdxInBlock = 0)
    (hfresh : ∀ j : ℕ, blockStart st.toStepRequest ≤ j → (j : ℤ) < blockEnd st.toStepRequest →
      st.x[j]? = some req.params.maskId) :
    OnQuota st where
  toInBudget := hb
  masks := by
    have hone := hp.block
    have hend := h.blockEnd_eq hp hb
    have hstart : 0 ≤ blockStart st.toStepRequest := by
      have := promptLen_le_blockStart (r := st.toStepRequest)
        (by simp only [DiffusionRuntimeState.toStepRequest, h.params]; omega)
      omega
    have hset : maskedInBlock st.toStepRequest st.x =
        Finset.Ico (blockStart st.toStepRequest).toNat (blockEnd st.toStepRequest).toNat := by
      ext j
      rw [mem_maskedInBlock, Finset.mem_Ico]
      constructor
      · intro hj
        omega
      · intro hj
        have hlow : blockStart st.toStepRequest ≤ j := by omega
        have hhigh : (j : ℤ) < blockEnd st.toStepRequest := by omega
        refine ⟨?_, hlow, hhigh⟩
        simpa [DiffusionRuntimeState.toStepRequest, h.params] using hfresh j hlow hhigh
    rw [hset, Nat.card_Ico, hzero, drop_zero, quotas_sum, h.params, hend]
    omega

/-- Both counters and the sequence are taken one step further. -/
theorem advance (h : Decoding req st) (hp : Decodable req.params) (hq : OnQuota st)
    (hr : Reveals st.toStepRequest ((quotas req.params).getD st.stepIdxInBlock 0) st.x y sel) :
    Decoding req (st.advance y) ∧
      ((st.advance y).isFinished = false → OnQuota (st.advance y)) := by
  have hb := hq.toInBudget
  have hstep := hb.step
  have hmasks := card_after_step hq h hr
  by_cases hroll : ((st.stepIdxInBlock + 1 : ℕ) : ℤ) ≥ st.params.stepsPerBlock
  · -- the last step of the block: its quotas are used up
    have heq : st.advance y =
        { st with x := y, stepIdxInBlock := 0, blockIdx := st.blockIdx + 1 } := if_pos hroll
    have hnone : maskedInBlock st.toStepRequest y = ∅ := by
      rw [drop_of_length_le (by rw [length_quotas, ← h.params]; omega)] at hmasks
      exact Finset.card_eq_zero.mp hmasks
    have hnext := h.next hp hb hr hnone
    rw [← heq] at hnext
    refine ⟨hnext, ?_⟩
    intro hnot
    have hbudget := DiffusionRuntimeState.inBudget_advance hnot
    apply hnext.onQuota_of_fresh hp hbudget (by rw [heq])
    -- the next block has not been touched yet
    intro j hlow hhigh
    have hend : blockEnd (st.advance y).toStepRequest ≤ (st.advance y).totalLen :=
      min_le_right _ _
    have hin : (j : ℤ) < (st.advance y).x.length := by
      rw [hnext.length]
      omega
    have houtside : st.promptLen + (st.blockIdx + 1) * req.params.blockLength ≤ (j : ℤ) := by
      unfold blockStart at hlow
      simp only [DiffusionRuntimeState.toStepRequest, heq, h.params] at hlow
      push_cast at hlow
      exact hlow
    rw [DiffusionRuntimeState.advance_x, hr.length] at hin
    rw [DiffusionRuntimeState.advance_x, h.kept_outside hp hb hr (.inr houtside)]
    exact h.later j houtside (by exact_mod_cast hin)
  · have heq : st.advance y = { st with x := y, stepIdxInBlock := st.stepIdxInBlock + 1 } :=
      if_neg hroll
    have hstay := h.stay hp hb hr
    rw [← heq] at hstay
    refine ⟨hstay, ?_⟩
    intro hnot
    refine ⟨DiffusionRuntimeState.inBudget_advance hnot, ?_⟩
    rw [← h.params] at hmasks
    rw [heq]
    exact hmasks

/-- A finished request has no mask after its prompt. -/
theorem no_mask_of_finished (h : Decoding req st) (hp : Decodable req.params)
    (hfin : st.isFinished = true) {j : ℕ} (hprompt : st.promptLen ≤ j) :
    st.x[j]? ≠ some req.params.maskId := by
  unfold DiffusionRuntimeState.isFinished at hfin
  rw [Bool.or_eq_true] at hfin
  cases hfin with
  | inl hfin =>
    rw [← h.params]
    exact not_mask_of_finishedByMask hfin hprompt
  | inr hfin =>
    -- all blocks are done, so the position lies in one of them
    unfold DiffusionRuntimeState.finishedByBudget at hfin
    rw [decide_eq_true_eq, h.params] at hfin
    intro hmask
    have hlen : j < st.x.length := (List.getElem?_eq_some_iff.mp hmask).1
    have hlength := h.length
    rw [h.totalLen, ← hp.numBlocks_mul] at hlength
    have hcover := mul_le_mul_of_nonneg_right hfin
      (by have := hp.block; omega : 0 ≤ req.params.blockLength)
    exact h.earlier j hprompt (by omega) hmask

/-- A new request starts with all of its blocks masked. -/
theorem initial (req : DiffusionRequest) (hp : Decodable req.params) (hs : Storable req) :
    Decoding req req.initialState ∧ OnQuota req.initialState := by
  have hgen := hp.gen
  -- Behind the prompt everything is masked.
  have hget : ∀ j : ℕ, req.inputTokenIds.length ≤ j →
      j < req.inputTokenIds.length + req.params.genLength.toNat →
      req.initialState.x[j]? = some req.params.maskId := by
    intro j hlow hhigh
    simp only [DiffusionRequest.initialState]
    rw [getElem?_append_right hlow, getElem?_replicate, if_pos (by omega)]
  have hlength : (req.initialState.x.length : ℤ) = req.initialState.totalLen := by
    simp only [DiffusionRequest.initialState, length_append, length_replicate]
    omega
  have hdecoding : Decoding req req.initialState := {
    reqId := rfl
    params := rfl
    promptLen := rfl
    totalLen := rfl
    length := hlength
    prompt := by simp [DiffusionRequest.initialState]
    fits := by
      intro t ht
      rcases mem_append.mp ht with hprompt | hmask
      · exact hs.prompt_fits t hprompt
      · rw [eq_of_mem_replicate hmask]
        exact hs.maskId_fits
    earlier := by
      intro j hprompt hj
      simp only [DiffusionRequest.initialState] at hprompt hj
      omega
    later := by
      intro j hj hlen
      have hone := hp.block
      simp only [DiffusionRequest.initialState, length_append, length_replicate]
        at hj hlen
      apply hget
      · push_cast at hj
        omega
      · exact hlen }
  refine ⟨hdecoding, ?_⟩
  -- The first block lies behind the prompt.
  apply hdecoding.onQuota_of_fresh hp (DiffusionRuntimeState.inBudget_initialState req) rfl
  intro j hlow hhigh
  have hprompt := promptLen_le_blockStart (hdecoding.complete hp hs).block
  have hend : blockEnd req.initialState.toStepRequest ≤ req.initialState.totalLen :=
    min_le_right _ _
  apply hget
  · simp only [DiffusionRequest.initialState, DiffusionRuntimeState.toStepRequest] at hprompt hlow
    omega
  · simp only [DiffusionRequest.initialState, DiffusionRuntimeState.toStepRequest] at hend hhigh
    omega

end Decoding

end Diffusion
