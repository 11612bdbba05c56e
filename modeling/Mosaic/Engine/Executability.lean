import Mosaic.Control.Fallible
import Mosaic.Diffusion.DecodingRun
import Mosaic.Engine.Admission
import Mosaic.Engine.Stores

/-!
# Which admitted requests can be executed

A step divides by parameters of the first request of the batch, asserts that lengths divide each
other for the first request and for each request, and takes a branch for guidance that refers to
a name that does not exist. It stores token ids with 64 bits and the offsets of the sequences in
the batch with 32. Admission checks none of this. Here the sets of requests that never make a step
raise are characterised: each request passes the checks of a step that it takes part in alone, and
the requests that can stand in one batch have offsets that fit.
-/

namespace Engine

open List Diffusion Int Fallible
open MachineInt (narrow)
open Transition (Execution)

variable {F : Type} [LinearOrder F]

/-- The parameters with which a request never makes a step raise: the blocks divide the output,
the number of blocks divides the steps, and there is no guidance. A negative block length counts
as a length of one when the steps are divided. An output of minus one token is no error when the
prompt has one. -/
structure ExecutableParams (p : DiffusionParams) : Prop where
  genLength : 0 < p.genLength ∨ p.genLength = -1
  blockLength_ne : p.blockLength ≠ 0
  blocks_divide : p.blockLength ∣ p.genLength
  steps_divide :
    (if 0 < p.blockLength then p.genLength / p.blockLength else p.genLength) ∣ p.steps
  unguided : p.cfgScale ≤ 0
  maskId_fits : FitsInt64 p.maskId
  -- the quotas of a block are a tensor with an entry of eight bytes for each step
  quotas_fit : FitsInt64 (8 * p.stepsPerBlock)

structure Executable (req : DiffusionRequest) : Prop where
  params : ExecutableParams req.params
  prompt_single : req.params.genLength = -1 → req.inputTokenIds.length = 1
  prompt_fits : ∀ t ∈ req.inputTokenIds, FitsInt64 t

/-- The number of tokens of a request. -/
def totalLen (req : DiffusionRequest) : ℤ := req.inputTokenIds.length + req.params.genLength

/-- In a batch of these requests the offsets fit 32 bits, also when each length is cut to 32 bits
first, and the padded sequences fit one tensor. -/
structure OffsetsFit (reqs : List DiffusionRequest) : Prop where
  tokens : (reqs.map fun req => totalLen req % 2 ^ 32).sum < 2 ^ 31
  rows : ∀ req ∈ reqs, FitsInt64 (8 * reqs.length * totalLen req)

/-! ### Parameters -/

section Params

variable {p : DiffusionParams}

theorem checkParams_eq_ok : checkParams p = .ok () ↔
    p.blockLength ≠ 0 ∧ p.blockLength ∣ p.genLength ∧ p.genLength.fdiv p.blockLength ≠ 0 ∧
      p.genLength.fdiv p.blockLength ∣ p.steps := by
  rw [dvd_iff_fmod_eq_zero, dvd_iff_fmod_eq_zero]
  unfold checkParams
  split
  · rename_i hzero
    simp [hzero]
  · split
    · rename_i hmod
      simp [hmod]
    · split
      · rename_i hdiv
        simp [hdiv]
      · split
        · rename_i hsteps
          simp [hsteps]
        · rename_i hzero hmod hdiv hsteps
          simpa using ⟨hzero, not_not.mp hmod, hdiv, not_not.mp hsteps⟩

variable {r : DiffusionStepRequest}

theorem requestTokens_isOk {maxTotalLen : ℕ} :
    (∃ tokens, requestTokens maxTotalLen r = .ok tokens) ↔
      let bl := if r.params.blockLength ≤ 0 then 1 else r.params.blockLength
      bl ∣ r.params.genLength ∧ max 1 (r.params.genLength.fdiv bl) ∣ r.params.steps ∧
        FitsInt64 (8 * max 1 (r.params.steps.fdiv (max 1 (r.params.genLength.fdiv bl)))) := by
  dsimp only
  rw [dvd_iff_fmod_eq_zero, dvd_iff_fmod_eq_zero]
  unfold requestTokens
  dsimp only
  generalize (if r.params.blockLength ≤ 0 then 1 else r.params.blockLength) = bl
  split
  · rename_i hmod
    simp [hmod]
  · rename_i hmod
    split
    · rename_i hsteps
      simp [hsteps]
    · rename_i hsteps
      split
      · rename_i hfits
        simp [hfits]
      · rename_i hfits
        simpa using ⟨not_not.mp hmod, not_not.mp hsteps, not_not.mp hfits⟩

/-- The number of blocks that a step divides by is that of the scheduler. -/
theorem stepsPerBlock_eq (p : DiffusionParams) :
    p.stepsPerBlock = max 1 (p.steps.fdiv (max 1 (p.genLength.fdiv
      (if p.blockLength ≤ 0 then 1 else p.blockLength)))) := by
  have hbl : (if p.blockLength ≤ 0 then 1 else p.blockLength) = max 1 p.blockLength := by
    split
    · omega
    · omega
  rw [hbl, fdiv_eq_ediv_of_nonneg _ (by omega), fdiv_eq_ediv_of_nonneg _ (by omega)]
  rfl

/-- For an output that is not empty, the checks of a step are the conditions on the lengths. -/
theorem checks_iff {maxTotalLen : ℕ} (hgen : 0 < r.params.genLength ∨ r.params.genLength = -1) :
    (checkParams r.params = .ok () ∧ ∃ tokens, requestTokens maxTotalLen r = .ok tokens) ↔
      r.params.blockLength ≠ 0 ∧ r.params.blockLength ∣ r.params.genLength ∧
        (if 0 < r.params.blockLength then r.params.genLength / r.params.blockLength
          else r.params.genLength) ∣ r.params.steps ∧ FitsInt64 (8 * r.params.stepsPerBlock) := by
  rw [checkParams_eq_ok, requestTokens_isOk, stepsPerBlock_eq]
  dsimp only
  generalize FitsInt64 _ = fits
  generalize r.params.blockLength = bl at *
  generalize r.params.genLength = gl at *
  generalize r.params.steps = steps at *
  rcases hgen with hgen | rfl
  swap
  · -- the only blocks are those of one token, and one block divides all steps
    by_cases hone : bl = 1
    · subst hone
      simp
    · by_cases hneg : bl = -1
      · subst hneg
        simp
      · have hdvd : ¬ bl ∣ -1 := by
          rw [Int.dvd_neg]
          intro h
          rcases Int.isUnit_iff.mp (isUnit_of_dvd_one h) with h | h
          · exact hone h
          · exact hneg h
        simp [hdvd]
  rcases lt_trichotomy bl 0 with hneg | rfl | hpos
  · -- the number of blocks, which is negative, divides the output, and so the steps
    simp only [hneg.ne, hneg.le, not_lt.mpr hneg.le, if_true, if_false, one_dvd, fdiv_one,
      max_eq_right (show 1 ≤ gl from hgen), ne_eq, not_false_eq_true, true_and]
    constructor
    · rintro ⟨⟨hdvd, -, -⟩, hsteps⟩
      exact ⟨hdvd, hsteps⟩
    · rintro ⟨hdvd, hsteps⟩
      have hmul := Int.fdiv_mul_cancel hdvd
      refine ⟨⟨hdvd, ?_, (Dvd.intro _ hmul).trans hsteps.1⟩, hsteps⟩
      intro hzero
      rw [hzero, Int.zero_mul] at hmul
      omega
  · simp
  · simp only [hpos.ne', not_le.mpr hpos, hpos, if_true, if_false, ne_eq, not_false_eq_true,
      true_and]
    constructor
    · rintro ⟨⟨hdvd, -, hsteps⟩, -, -, hfits⟩
      rw [fdiv_eq_ediv_of_dvd hdvd] at hsteps
      exact ⟨hdvd, hsteps, hfits⟩
    · rintro ⟨hdvd, hsteps, hfits⟩
      have hblocks : 0 < gl / bl :=
        ediv_pos_of_pos_of_dvd hgen hpos.le hdvd
      rw [fdiv_eq_ediv_of_dvd hdvd, max_eq_right (show 1 ≤ gl / bl from hblocks)]
      exact ⟨⟨hdvd, hblocks.ne', hsteps⟩, hdvd, hsteps, hfits⟩

theorem ExecutableParams.checks (maxTotalLen : ℕ) (h : ExecutableParams r.params) :
    checkParams r.params = .ok () ∧ ∃ tokens, requestTokens maxTotalLen r = .ok tokens :=
  (checks_iff h.genLength).mpr
    ⟨h.blockLength_ne, h.blocks_divide, h.steps_divide, h.quotas_fit⟩

end Params

/-! ### Batches -/

/-- The state of a request with executable parameters, somewhere in its run. -/
structure Held (st : DiffusionRuntimeState) : Prop where
  params : ExecutableParams st.params
  nonneg : 0 ≤ st.totalLen
  length : st.x.length ≤ st.totalLen.toNat ∨ st.x.length = 1
  fits : ∀ t ∈ st.x, FitsInt64 t

theorem held_initialState {req : DiffusionRequest} (h : Executable req) :
    Held req.initialState where
  params := h.params
  nonneg := by
    have hgen := h.params.genLength
    have hprompt := h.prompt_single
    simp only [DiffusionRequest.initialState]
    omega
  length := by
    have hgen := h.params.genLength
    have hprompt := h.prompt_single
    simp only [DiffusionRequest.initialState, length_append, length_replicate]
    omega
  fits := by
    intro t ht
    rcases mem_append.mp ht with hprompt | hmask
    · exact h.prompt_fits t hprompt
    · rw [eq_of_mem_replicate hmask]
      exact h.params.maskId_fits

section Batch

variable {st : DiffusionRuntimeState}

theorem totalLen_le_maxTotalLen {r r' : DiffusionStepRequest} {rest : List DiffusionStepRequest}
    (hr' : r' ∈ r :: rest) : r'.totalLen ≤ maxTotalLen r rest := by
  have hall : ∀ (rest : List DiffusionStepRequest) (len : ℤ),
      len ≤ rest.foldl (fun len r => max len r.totalLen) len ∧
        ∀ r ∈ rest, r.totalLen ≤ rest.foldl (fun len r => max len r.totalLen) len := by
    intro rest
    induction rest with
    | nil => simp
    | cons r rest ih =>
      intro len
      obtain ⟨hlen, hrest⟩ := ih (max len r.totalLen)
      refine ⟨(le_max_left _ _).trans hlen, forall_mem_cons.mpr ⟨?_, hrest⟩⟩
      exact (le_max_right _ _).trans hlen
  rcases mem_cons.mp hr' with rfl | hr'
  · exact (hall rest _).1
  · exact (hall rest _).2 r' hr'

theorem maxTotalLen_mem (r : DiffusionStepRequest) (rest : List DiffusionStepRequest) :
    ∃ r' ∈ r :: rest, maxTotalLen r rest = r'.totalLen := by
  induction rest using List.reverseRecOn with
  | nil => exact ⟨r, mem_cons_self, rfl⟩
  | append_singleton rest r' ih =>
    obtain ⟨r'', hr'', heq⟩ := ih
    have hmax : maxTotalLen r (rest ++ [r']) = max (maxTotalLen r rest) r'.totalLen := by
      simp [maxTotalLen]
    rw [hmax]
    rcases le_total (maxTotalLen r rest) r'.totalLen with hle | hle
    · exact ⟨r', by simp, max_eq_right hle⟩
    · exact ⟨r'', mem_append_left [r'] hr'', (max_eq_left hle).trans heq⟩

/-- The offsets of a batch fit: no length is negative when it is cut to 32 bits, and neither is the
sum of these. -/
structure BatchFits (requests : List DiffusionStepRequest) : Prop where
  lens : ∀ len ∈ seqLens requests, 0 ≤ len
  tokens : (seqLens requests).sum < 2 ^ 31
  rows : ∀ r ∈ requests, FitsInt64 (8 * requests.length * r.totalLen)

/-- A step of a batch of such requests runs the model. -/
theorem prepares_of_held (env : RunnerEnv F) {r : DiffusionStepRequest}
    {rest : List DiffusionStepRequest}
    (held : ∀ r' ∈ r :: rest, ∃ st, Held st ∧ r' = st.toStepRequest)
    (fits : BatchFits (r :: rest)) :
    ∃ rows flat tokens, Prepares env r rest rows flat tokens ∧
      (rows.headD []).length = (maxTotalLen r rest).toNat := by
  have hnonneg : ∀ r' ∈ r :: rest, 0 ≤ r'.totalLen := by
    intro r' hr'
    obtain ⟨st, hst, rfl⟩ := held r' hr'
    exact hst.nonneg
  have hle : ∀ r' ∈ r :: rest, r'.totalLen ≤ maxTotalLen r rest :=
    fun r' hr' => totalLen_le_maxTotalLen hr'
  -- A row is at most as wide as the longest, or of one token, which is broadcast.
  obtain ⟨rows, hrows, hwidths⟩ : ∃ rows, (r :: rest).mapM (fun r' =>
      padRow r.params.maskId (maxTotalLen r rest).toNat r'.x) = .ok rows ∧
        List.Forall₂ (fun _ row => row.length = (maxTotalLen r rest).toNat) (r :: rest) rows := by
    apply mapM_isOk_forall₂
    intro r' hr'
    obtain ⟨st, hst, rfl⟩ := held r' hr'
    have htotal : st.totalLen ≤ maxTotalLen r rest := hle _ hr'
    have hlength := hst.length
    have hwidth : st.x.length ≤ (maxTotalLen r rest).toNat ∨ st.x.length = 1 := by omega
    obtain ⟨row, hrow⟩ := (padRow_isOk r.params.maskId).mpr ⟨hst.fits, hwidth⟩
    exact ⟨row, hrow, length_of_padRow hrow⟩
  obtain ⟨tokens, htokens⟩ : ∃ tokens,
      (r :: rest).mapM (requestTokens (maxTotalLen r rest).toNat) = .ok tokens := by
    apply mapM_isOk
    intro r' hr'
    obtain ⟨st, hst, rfl⟩ := held r' hr'
    exact (hst.params.checks _ (r := st.toStepRequest)).2
  -- The lengths and their sum fit 32 bits, so that nothing wraps in the row offsets.
  have hsum : 0 ≤ (seqLens (r :: rest)).sum := List.sum_nonneg fits.lens
  have hnarrow : narrow (seqLens (r :: rest)).sum = (seqLens (r :: rest)).sum :=
    MachineInt.narrow_of_fits ⟨by omega, fits.tokens⟩
  have hcount : (seqLens (r :: rest)).length = rows.length := by
    rw [seqLens, length_map, hwidths.length_eq]
  obtain ⟨flat, hflat⟩ : ∃ flat, flatten ((seqLens (r :: rest)).zip rows) 0
      (env.fresh .flatInputIds (narrow (seqLens (r :: rest)).sum).toNat) = .ok flat := by
    refine ⟨_, flatten_eq_ok 0 _ ?_ ?_ ?_⟩
    · rintro ⟨len, row⟩ he
      obtain ⟨hlen, hrow⟩ := of_mem_zip he
      obtain ⟨r', hr', rfl⟩ := mem_map.mp hlen
      obtain ⟨_, -, hwidth⟩ := exists_of_mem_forall₂ hwidths hrow
      have hcut := narrow_le (hnonneg r' hr')
      have htotal := hle r' hr'
      exact ⟨fits.lens _ hlen, by dsimp only; omega⟩
    · rw [map_fst_zip hcount.le, length_fresh, hnarrow]
      omega
    · rw [length_fresh, hnarrow]
      have := fits.tokens
      omega
  obtain ⟨first, hfirst, rfl⟩ := held r mem_cons_self
  refine ⟨rows, flat, tokens, ⟨?_, ?_, ?_, hfirst.params.maskId_fits, hrows, ?_, hflat,
    (hfirst.params.checks 0 (r := first.toStepRequest)).1, htokens, fun _ => fits.lens,
    hfirst.params.unguided⟩, ?_⟩
  · intro r' hr'
    have hrow := (fits.rows r' hr').2
    have htotal := hnonneg r' hr'
    rw [length_cons] at hrow
    have hlt : r'.totalLen ≤ 8 * ((rest.length + 1 : ℕ) : ℤ) * r'.totalLen :=
      le_mul_of_one_le_left htotal (by omega)
    exact ⟨by omega, by omega⟩
  · exact (hnonneg _ mem_cons_self).trans (hle _ mem_cons_self)
  · obtain ⟨r', hr', heq⟩ := maxTotalLen_mem first.toStepRequest rest
    rw [heq]
    exact fits.rows r' hr'
  · rw [hnarrow]
    exact hsum
  · cases hwidths with
    | cons hrow _ => exact hrow

/-- A step of a batch of such requests returns. -/
theorem executeDiffusionOnce_held (env : RunnerEnv F) {r : DiffusionStepRequest}
    {rest : List DiffusionStepRequest}
    (held : ∀ r' ∈ r :: rest, ∃ st, Held st ∧ r' = st.toStepRequest)
    (fits : BatchFits (r :: rest)) :
    ∃ updates, executeDiffusionOnce env ⟨r :: rest⟩ = .ok updates := by
  obtain ⟨rows, flat, tokens, hprep, hrow⟩ := prepares_of_held env held fits
  have hsum : 0 ≤ (seqLens (r :: rest)).sum := List.sum_nonneg fits.lens
  have hfirst : 0 ≤ narrow r.totalLen := fits.lens _ mem_cons_self
  have hmem : narrow r.totalLen ≤ (seqLens (r :: rest)).sum :=
    List.single_le_sum fits.lens _ mem_cons_self
  have hnonneg : 0 ≤ r.totalLen := by
    obtain ⟨st, hst, rfl⟩ := held r mem_cons_self
    exact hst.nonneg
  have hcut := narrow_le hnonneg
  have htotal : r.totalLen ≤ maxTotalLen r rest := totalLen_le_maxTotalLen mem_cons_self
  have hstore := storeSlice_flatX env (rows.headD []) hfirst (seqLens (r :: rest)).sum.toNat
    (by omega) (by omega)
  exact ⟨_, executeDiffusionOnce_eq_ok_iff.mpr ⟨_, _, prepareStep_eq_ok.mpr
    ⟨rows, flat, tokens, hprep, rfl⟩, updateFirst_eq_ok.mpr ⟨hsum, _, hstore, rfl⟩, rfl⟩⟩

/-- The sequence that a step returns is not too long, and its tokens can be stored. -/
theorem newX_of_execute {env : RunnerEnv F} {r : DiffusionStepRequest}
    {rest : List DiffusionStepRequest} {up : DiffusionStepUpdate} (nonneg : 0 ≤ r.totalLen)
    (h : executeDiffusionOnce env ⟨r :: rest⟩ = .ok [up]) :
    up.newX.length ≤ r.totalLen.toNat ∧ ∀ t ∈ up.newX, FitsInt64 t := by
  obtain ⟨_, _, hprep, hup, hsame⟩ := executeDiffusionOnce_eq_ok_iff.mp h
  obtain rfl := singleton_inj.mp hsame
  obtain ⟨rows, _, _, hready, rfl⟩ := prepareStep_eq_ok.mp hprep
  obtain ⟨-, flatX, hflatX, rfl⟩ := updateFirst_eq_ok.mp hup
  refine ⟨?_, ?_⟩
  · rw [length_revealFirst env nonneg]
    exact min_le_left _ _
  · have hrows := hready.padded
    rw [mapM_cons] at hrows
    obtain ⟨row, hrow, hrows⟩ := bind_eq_ok.mp hrows
    obtain ⟨_, -, hrows⟩ := bind_eq_ok.mp hrows
    obtain rfl := Except.ok.inj hrows
    obtain ⟨hx, hstore⟩ := padRow_eq_ok hrow
    intro t ht
    rcases revealFirst_fits env r flatX _ _ _ t ht with hmem | hfits
    · rcases Tensor.mem_of_storeSlice hflatX hmem with hfresh | hslice
      · exact fits_fresh env _ _ t hfresh
      · -- what is copied from the padded row is a token of the sequence or a mask
        have hmem : t ∈ row := mem_of_mem_take (mem_of_mem_drop hslice)
        rcases Tensor.mem_of_storeSlice hstore hmem with hmask | hmem
        · rw [eq_of_mem_replicate hmask]
          exact hready.maskId_fits
        · exact hx t hmem
    · exact hfits

theorem advance_totalLen (st : DiffusionRuntimeState) (newX : List ℤ) :
    (st.advance newX).totalLen = st.totalLen := by
  unfold DiffusionRuntimeState.advance
  dsimp only
  split
  · rfl
  · rfl

/-- The state belongs to one of the requests. -/
def Of (requests : Set DiffusionRequest) (st : DiffusionRuntimeState) : Prop :=
  Held st ∧ ∃ req ∈ requests, st.reqId = req.reqId ∧ st.totalLen = totalLen req

theorem of_update (requests : Set DiffusionRequest) : UpdatePreserves F (Of requests) := by
  intro env st rest up ⟨hst, req, hreq, hid, htotal⟩ _ hexec
  obtain ⟨hlength, hfits⟩ := newX_of_execute (r := st.toStepRequest) hst.nonneg hexec
  have hkept := advance_totalLen st up.newX
  refine ⟨⟨?_, ?_, ?_, ?_⟩, req, hreq, ?_, ?_⟩
  · simpa using hst.params
  · simpa [hkept] using hst.nonneg
  · rw [DiffusionRuntimeState.advance_x, hkept]
    exact .inl hlength
  · simpa using hfits
  · simpa using hid
  · rw [hkept]
    exact htotal

end Batch

/-! ### The scheduler -/

/-- The ids of the requests differ, and there are not too many of them for one batch. -/
structure Batchable (reqs : List DiffusionRequest) : Prop where
  ids : (reqs.map DiffusionRequest.reqId).Nodup
  room : reqs.length ≤ 999

/-- The offsets fit for every batch that the requests can make. -/
def OffsetsAlwaysFit (requests : Set DiffusionRequest) : Prop :=
  ∀ reqs : List DiffusionRequest, (∀ req ∈ reqs, req ∈ requests) → Batchable reqs →
    OffsetsFit reqs

theorem narrow_eq_emod {n : ℤ} (h : n % 2 ^ 32 < 2 ^ 31) : narrow n = n % 2 ^ 32 := by
  unfold narrow
  omega

/-- The states of a batch belong to requests that can stand in a batch. -/
theorem batchFits_of_offsetsFit {requests : Set DiffusionRequest}
    (fits : OffsetsAlwaysFit requests) {sts : List DiffusionRuntimeState}
    (ids : (sts.map DiffusionRuntimeState.reqId).Nodup) (room : sts.length ≤ 999)
    (held : ∀ st ∈ sts, Of requests st) :
    BatchFits (sts.map DiffusionRuntimeState.toStepRequest) := by
  -- Each state belongs to a request with its id and total length.
  obtain ⟨reqs, hreqs⟩ : ∃ reqs : List DiffusionRequest, List.Forall₂ (fun st req =>
      req ∈ requests ∧ st.reqId = req.reqId ∧ st.totalLen = totalLen req) sts reqs := by
    clear ids room
    induction sts with
    | nil => exact ⟨[], .nil⟩
    | cons st sts ih =>
      obtain ⟨-, req, hreq⟩ := held st mem_cons_self
      obtain ⟨reqs, hreqs⟩ := ih fun st' hst' => held st' (mem_cons_of_mem _ hst')
      exact ⟨req :: reqs, .cons hreq hreqs⟩
  have hids : sts.map DiffusionRuntimeState.reqId = reqs.map DiffusionRequest.reqId := by
    rw [← forall₂_eq_eq_eq, forall₂_map_left_iff, forall₂_map_right_iff]
    exact hreqs.imp fun _ _ h => h.2.1
  have htotals : sts.map DiffusionRuntimeState.totalLen = reqs.map totalLen := by
    rw [← forall₂_eq_eq_eq, forall₂_map_left_iff, forall₂_map_right_iff]
    exact hreqs.imp fun _ _ h => h.2.2
  have hmem : ∀ req ∈ reqs, req ∈ requests := by
    intro req hreq
    obtain ⟨_, -, h⟩ := exists_of_mem_forall₂ hreqs hreq
    exact h.1
  obtain ⟨htokens, hrows⟩ := fits reqs hmem ⟨hids ▸ ids, by rwa [← hreqs.length_eq]⟩
  have hmods : (reqs.map fun req => totalLen req % 2 ^ 32) =
      sts.map fun st => st.totalLen % 2 ^ 32 := by
    have := congrArg (List.map (· % (2 : ℤ) ^ 32)) htotals
    simpa [Function.comp_def] using this.symm
  rw [hmods] at htokens
  have hnonneg : ∀ n ∈ sts.map fun st => st.totalLen % 2 ^ 32, 0 ≤ n := by
    intro n hn
    obtain ⟨_, -, rfl⟩ := mem_map.mp hn
    omega
  -- No remainder reaches 2 ^ 31, so that narrowing a length gives its remainder.
  have hcut : seqLens (sts.map DiffusionRuntimeState.toStepRequest) =
      sts.map fun st => st.totalLen % 2 ^ 32 := by
    rw [seqLens, map_map]
    apply map_congr_left
    intro st hst
    exact narrow_eq_emod ((List.single_le_sum hnonneg _ (mem_map_of_mem hst)).trans_lt htokens)
  refine ⟨by rwa [hcut], by rwa [hcut], ?_⟩
  intro r hr
  obtain ⟨st, hst, rfl⟩ := mem_map.mp hr
  have htotal : st.totalLen ∈ reqs.map totalLen := htotals ▸ mem_map_of_mem hst
  obtain ⟨req, hreq, heq⟩ := mem_map.mp htotal
  rw [length_map, hreqs.length_eq, show st.toStepRequest.totalLen = totalLen req from heq.symm]
  exact hrows req hreq

theorem scheduleStep_of_pool {s : DiffusionScheduler} (pool : s.poolInitialized = true) :
    s.scheduleStep = (.ok (if s.ensureRunningCapacity.2.stepRequests.isEmpty then none
      else some ⟨s.ensureRunningCapacity.2.stepRequests⟩), s.ensureRunningCapacity.2) := by
  have hreturns : s.ensureRunningCapacity.1 = .ok () := by
    obtain ⟨hok, _⟩ | ⟨_, hempty, hroom⟩ := s.ensureRunningCapacity_exit
    · exact hok
    · rw [DiffusionScheduler.canAddMoreRequests_of_waiting_nil hempty,
        DiffusionScheduler.ensureRunningCapacity_poolInitialized, pool] at hroom
      cases hroom
  rw [Prod.ext_iff, DiffusionScheduler.scheduleStep_result, hreturns]
  exact ⟨rfl, s.scheduleStep_state⟩

/-- With an initialised pool and executable requests, an iteration does not raise. -/
theorem diffusionStep_held {requests : Set DiffusionRequest} {s : DiffusionScheduler}
    (executable : ∀ req ∈ requests, Executable req) (fits : OffsetsAlwaysFit requests)
    (h : Stores (· ∈ requests) (Of requests) s) (pool : s.poolInitialized = true)
    (size : s.maxBatchSize = 999) (env : RunnerEnv F) :
    ∃ items, (diffusionStep env s).finished = .ok items := by
  have hfresh : ∀ req ∈ requests, Of requests req.initialState :=
    fun req hreq => ⟨held_initialState (executable req hreq), req, hreq, rfl, rfl⟩
  obtain ⟨sts, hsts, ⟨hids, hroom⟩, hheld⟩ :=
    (h.ensureRunningCapacity hfresh).stepRequests_eq_map
  rw [DiffusionScheduler.ensureRunningCapacity_maxBatchSize, size] at hroom
  unfold diffusionStep
  split
  · exact ⟨[], rfl⟩
  · rw [scheduleStep_of_pool pool, hsts]
    cases sts with
    | nil => exact ⟨[], rfl⟩
    | cons st rest =>
      have hbatch := batchFits_of_offsetsFit fits hids hroom fun st hst => (hheld st hst).1
      obtain ⟨_, hexec⟩ := executeDiffusionOnce_held env (by
        intro r hr
        obtain ⟨st', hst', rfl⟩ := mem_map.mp (map_cons ▸ hr)
        exact ⟨st', (hheld st' hst').1.1, rfl⟩) hbatch
      simp only [map_cons, isEmpty_cons, Bool.false_eq_true, if_false] at hexec ⊢
      rw [hexec]
      exact ⟨_, rfl⟩

/-! ### Runs -/

namespace EngineCore

/-- A step of the engine returns. -/
def StepReturns (env : RunnerEnv F) (e : EngineCore) : Prop :=
  ∃ out, (e.step env).1 = .ok out

theorem stepReturns_iff {env : RunnerEnv F} {e : EngineCore} :
    e.StepReturns env ↔ ∃ items, (diffusionStep env e.diffusionScheduler).finished = .ok items := by
  unfold StepReturns step
  dsimp only
  cases (diffusionStep env e.diffusionScheduler).finished with
  | error err => simp [Except.map]
  | ok items => simp [Except.map]

end EngineCore

open EngineCore

section Admitted

variable {float : ℚ → String} {proc : Processor}

theorem addRequest_admitted (e : EngineCore) (r : Admitted float proc) :
    (e.addRequest r.request).2 =
      { e with diffusionScheduler := e.diffusionScheduler.addRequest r.toDiffusionRequest } := by
  have htask : r.request.poolingTask = none := by rw [r.request_eq]
  unfold EngineCore.addRequest
  rw [htask]
  rfl

/-- No step fails in a run that adds only the given requests, however often and in which order
they are added, and whatever the model answers. -/
def NeverFails (F : Type) [LinearOrder F] (runner : Option ModelRunnerRef)
    (requests : Set (Admitted float proc)) : Prop :=
  ∀ events e, Execution (Step F) (init runner) events e →
    (∀ request, .added request ∈ events → ∃ r ∈ requests, r.request = request) →
    ∀ env : RunnerEnv F, e.StepReturns env

theorem diffusionStep_idle {s : DiffusionScheduler} (idle : s.hasActiveRequests = false)
    (env : RunnerEnv F) : diffusionStep env s = ⟨none, .ok [], s⟩ := by
  unfold diffusionStep
  rw [idle]
  rfl

/-- An engine to which nothing is added stays idle. -/
theorem idle_of_execution {runner : Option ModelRunnerRef} {events : List Event} {e : EngineCore}
    (run : Execution (Step F) (init runner) events e)
    (added : ∀ request, .added request ∉ events) :
    e.diffusionScheduler.hasActiveRequests = false := by
  induction run with
  | start => rfl
  | extend _ last ih =>
    have hidle := ih fun request hmem => added request (mem_append_left _ hmem)
    cases last with
    | added request => exact absurd (mem_append_right _ mem_cons_self) (added request)
    | aborted requestIds => exact hidle
    | stepped env =>
      unfold EngineCore.step
      rw [diffusionStep_idle hidle env]
      exact hidle

/-- A model whose answers are never confident. -/
def silentEnv (F : Type) [LinearOrder F] : RunnerEnv F where
  model ctx :=
    { index := List.replicate ctx.maskIndices.length 0
      confidence := List.replicate ctx.maskIndices.length ⊥
      length_index := length_replicate
      length_confidence := length_replicate
      index_fits := by
        intro v hv
        rw [eq_of_mem_replicate hv]
        decide }
  topk := .ofSort
  uninitialized := fun _ _ => 0

/-- Requests of different ids that were added one after the other all wait. -/
theorem foldl_addRequest (s : DiffusionScheduler) (reqs : List DiffusionRequest)
    (ids : (reqs.map DiffusionRequest.reqId).Nodup) :
    (reqs.foldl DiffusionScheduler.addRequest s).waiting = s.waiting ++ reqs ∧
      (reqs.foldl DiffusionScheduler.addRequest s).running = s.running ∧
      (reqs.foldl DiffusionScheduler.addRequest s).modelRunner = s.modelRunner ∧
      (reqs.foldl DiffusionScheduler.addRequest s).maxBatchSize = s.maxBatchSize ∧
      ∀ req ∈ reqs, (reqs.foldl DiffusionScheduler.addRequest s).states req.reqId =
        some req.initialState := by
  induction reqs using List.reverseRecOn with
  | nil => simp
  | append_singleton reqs req ih =>
    rw [map_append, map_singleton, nodup_append] at ids
    obtain ⟨hids, -, hnew⟩ := ids
    obtain ⟨hwait, hrun, hrunner, hmax, hstates⟩ := ih hids
    rw [foldl_append, foldl_cons, foldl_nil]
    refine ⟨by simp [DiffusionScheduler.addRequest, hwait], hrun, hrunner, hmax, ?_⟩
    intro req' hreq'
    rcases mem_append.mp hreq' with hold | hlast
    · have hne : req'.reqId ≠ req.reqId := hnew _ (mem_map_of_mem hold) _ mem_cons_self
      simp only [DiffusionScheduler.addRequest, Function.update_of_ne hne]
      exact hstates req' hold
    · obtain rfl := mem_singleton.mp hlast
      simp [DiffusionScheduler.addRequest]

/-- The refill loop moves all waiting requests, when there is room for them. -/
theorem ensureRunningCapacity_all {s : DiffusionScheduler} (pool : s.poolInitialized = true)
    (room : s.running.length + s.waiting.length ≤ s.maxBatchSize)
    (ids : (s.running ++ s.waiting.map DiffusionRequest.reqId).Nodup)
    (known : ∀ req ∈ s.waiting, (s.states req.reqId).isSome) :
    s.ensureRunningCapacity = (.ok (), { s with
      waiting := []
      running := s.running ++ s.waiting.map DiffusionRequest.reqId }) := by
  generalize hqueue : s.waiting = queue at *
  induction queue generalizing s with
  | nil =>
    rw [DiffusionScheduler.ensureRunningCapacity_eq,
      DiffusionScheduler.canAddMoreRequests_of_waiting_nil hqueue, pool, map_nil, append_nil,
      ← hqueue]
    rfl
  | cons req rest ih =>
    have hroom : s.canAddMoreRequests = true := by
      rw [DiffusionScheduler.canAddMoreRequests_of_waiting (by simp [hqueue]), decide_eq_true_eq]
      rw [length_cons] at room
      omega
    have hnew : req.reqId ∉ s.running := by
      intro hmem
      exact (nodup_append.mp ids).2.2 _ hmem _ mem_cons_self rfl
    have hstart : ({ s with waiting := rest } : DiffusionScheduler).startRunning req =
        { s with waiting := rest, running := s.running ++ [req.reqId] } :=
      DiffusionScheduler.startRunning_of_new hnew (known req mem_cons_self)
    rw [DiffusionScheduler.ensureRunningCapacity_eq, hroom]
    simp only [if_true, DiffusionScheduler.popRequest, hqueue]
    rw [hstart, ih (s := { s with waiting := rest, running := s.running ++ [req.reqId] }) pool
      rfl]
    · simp
    · simp only [length_append, length_cons, length_nil] at room ⊢
      omega
    · simpa using ids
    · exact fun req' hreq' => known req' (mem_cons_of_mem _ hreq')

/-- The engine after requests were added to a new one. -/
def addAll (runner : Option ModelRunnerRef) (rs : List (Admitted float proc)) : EngineCore :=
  { init runner with
    diffusionScheduler := (rs.map Admitted.toDiffusionRequest).foldl
      DiffusionScheduler.addRequest (init runner).diffusionScheduler }

theorem execution_addAll (runner : Option ModelRunnerRef) (rs : List (Admitted float proc)) :
    Execution (Step F) (init runner) (rs.map fun r => .added r.request) (addAll runner rs) := by
  induction rs using List.reverseRecOn with
  | nil => exact .start
  | append_singleton rs r ih =>
    have hlast := Step.added (F := F) (e := addAll runner rs) r.request
    rw [addRequest_admitted] at hlast
    rw [map_append, map_singleton]
    refine ih.extend ?_
    simpa [addAll] using hlast

/-- Without an initialised pool the refill takes a second request from the empty queue. -/
theorem poolInitialized_of_stepReturns {runner : Option ModelRunnerRef} (r : Admitted float proc)
    {env : RunnerEnv F} (h : (addAll runner [r]).StepReturns env) :
    (init runner).diffusionScheduler.poolInitialized = true := by
  by_contra hpool
  rw [Bool.not_eq_true] at hpool
  have hraises := decodeReport_of_raises r.toDiffusionRequest (fun _ => env)
    (s := (init runner).diffusionScheduler) ⟨rfl, rfl⟩ (by simp [init]) (by rw [hpool]; simp [init])
  obtain ⟨items, hitems⟩ := stepReturns_iff.mp h
  have hsame : decodeReport (fun _ => env)
      ((init runner).diffusionScheduler.addRequest r.toDiffusionRequest) 0 = .ok items := hitems
  rw [hraises] at hsame
  cases hsame

/-- With an initialised pool the first step takes all requests that fit a batch. -/
theorem execute_of_stepReturns {runner : Option ModelRunnerRef} {rs : List (Admitted float proc)}
    (hne : rs ≠ []) (pool : (init runner).diffusionScheduler.poolInitialized = true)
    (batchable : Batchable (rs.map Admitted.toDiffusionRequest)) {env : RunnerEnv F}
    (h : (addAll runner rs).StepReturns env) :
    ∃ updates, executeDiffusionOnce env
      ⟨rs.map fun r => r.toDiffusionRequest.initialState.toStepRequest⟩ = .ok updates := by
  set reqs := rs.map Admitted.toDiffusionRequest with hreqs
  set s := (addAll runner rs).diffusionScheduler with hs
  obtain ⟨hwait, hrun, hrunner, hmax, hstates⟩ :=
    foldl_addRequest (init runner).diffusionScheduler reqs batchable.ids
  -- Requests are only filed before the first step, so all of them wait.
  have hpool : s.poolInitialized = true := by
    rw [← pool]
    unfold DiffusionScheduler.poolInitialized
    rw [hs, addAll, hrunner]
  have hwait : s.waiting = reqs := hwait
  have hrun : s.running = [] := hrun
  have hmax : s.maxBatchSize = 999 := hmax
  have hreqsne : reqs ≠ [] := by simpa [hreqs] using hne
  have hactive : s.hasActiveRequests = true := by
    simp [DiffusionScheduler.hasActiveRequests, hwait, hreqsne]
  -- There is room for all of them in a batch.
  have hrefill := ensureRunningCapacity_all hpool (by
      rw [hwait, hrun, hmax]
      simpa using batchable.room) (by rw [hwait, hrun]; exact batchable.ids) (by
      intro req hreq
      rw [hwait] at hreq
      rw [show s.states req.reqId = some req.initialState from hstates req hreq]
      rfl)
  rw [hwait, hrun, nil_append] at hrefill
  have hids : (reqs.map DiffusionRequest.reqId).filterMap s.states =
      reqs.map DiffusionRequest.initialState := by
    rw [filterMap_map, ← filterMap_eq_map]
    apply filterMap_congr
    intro req hreq
    exact hstates req hreq
  have hbatch : s.ensureRunningCapacity.2.stepRequests =
      rs.map fun r => r.toDiffusionRequest.initialState.toStepRequest := by
    have htake : ∀ xs : List DiffusionStepRequest, xs.length ≤ 999 →
        xs.take (max 1 s.maxBatchSize) = xs := by
      intro xs hxs
      rw [hmax]
      exact take_of_length_le hxs
    have hroom := batchable.room
    rw [hrefill, DiffusionScheduler.stepRequests_eq]
    dsimp only
    rw [hids, hreqs, map_map, map_map]
    exact htake _ (by simpa [hreqs] using hroom)
  -- The step returned, hence the call that it makes did.
  obtain ⟨items, hitems⟩ := stepReturns_iff.mp h
  unfold diffusionStep at hitems
  rw [← hs, hactive, scheduleStep_of_pool hpool, hbatch] at hitems
  have hnonempty : (rs.map fun r =>
      r.toDiffusionRequest.initialState.toStepRequest).isEmpty = false := by simpa using hne
  simp only [hnonempty, Bool.not_true, Bool.false_eq_true, if_false] at hitems
  cases hexec : executeDiffusionOnce env
      ⟨rs.map fun r => r.toDiffusionRequest.initialState.toStepRequest⟩ with
  | error err =>
    rw [hexec] at hitems
    cases hitems
  | ok updates => exact ⟨updates, rfl⟩

/-- A request that can be stepped alone is executable. -/
theorem executable_of_steppable {req : DiffusionRequest}
    (h : Steppable req.initialState.toStepRequest) : Executable req := by
  have hnonneg := h.nonneg
  have hfits := h.fits
  have hparams := checkParams_eq_ok.mp h.params
  simp only [DiffusionRuntimeState.toStepRequest, DiffusionRequest.initialState,
    length_append, length_replicate] at hnonneg hfits hparams
  have hne : req.params.genLength ≠ 0 := by
    intro hzero
    rw [hzero] at hparams
    simp at hparams
  have hgen : 0 < req.params.genLength ∨ req.params.genLength = -1 := by omega
  obtain ⟨hblock, hblocks, hsteps, hquotas⟩ :=
    (checks_iff (r := req.initialState.toStepRequest) hgen).mp ⟨h.params, h.tokens⟩
  exact ⟨⟨hgen, hblock, hblocks, hsteps, h.unguided, h.maskId_fits, hquotas⟩, by omega,
    fun t ht => h.x_fits t (mem_append_left _ ht)⟩

/-- What a step of a batch that returns shows about the offsets. -/
theorem sum_nonneg_of_execute {env : RunnerEnv F} {r : DiffusionStepRequest}
    {rest : List DiffusionStepRequest} {updates : List DiffusionStepUpdate}
    (h : executeDiffusionOnce env ⟨r :: rest⟩ = .ok updates) :
    0 ≤ narrow (seqLens (r :: rest)).sum ∧ ∀ r' ∈ r :: rest, 0 ≤ r'.totalLen →
      FitsInt64 (8 * (r :: rest).length * r'.totalLen) := by
  obtain ⟨_, _, hprep, -, -⟩ := executeDiffusionOnce_eq_ok_iff.mp h
  obtain ⟨_, _, _, hready, -⟩ := prepareStep_eq_ok.mp hprep
  refine ⟨hready.length, ?_⟩
  intro r' hr' hnonneg
  have hle := totalLen_le_maxTotalLen hr'
  obtain ⟨-, hsize⟩ := hready.size
  have hfactor : (0 : ℤ) ≤ 8 * (r :: rest).length := by omega
  have hmul := mul_le_mul_of_nonneg_left hle hfactor
  have hpos := mul_nonneg hfactor hnonneg
  exact ⟨by omega, by omega⟩

/-- The offsets fit if every batch of the requests can be stepped. -/
theorem offsetsFit_of_execute (env : RunnerEnv F) {reqs : List DiffusionRequest}
    (hsteps : ∀ reqs' : List DiffusionRequest, reqs'.Sublist reqs → reqs' ≠ [] →
      ∃ updates, executeDiffusionOnce env
        ⟨reqs'.map fun req => req.initialState.toStepRequest⟩ = .ok updates) :
    OffsetsFit reqs := by
  have hsingle : ∀ req ∈ reqs, Steppable req.initialState.toStepRequest := by
    intro req hreq
    exact (executeDiffusionOnce_single_isOk env _).mp
      (hsteps [req] (singleton_sublist.mpr hreq) (by simp))
  have hcut : ∀ req ∈ reqs, narrow (totalLen req) = totalLen req % 2 ^ 32 ∧
      totalLen req % 2 ^ 32 < 2 ^ 31 := by
    intro req hreq
    have hlength : 0 ≤ narrow (totalLen req) := (hsingle req hreq).length
    unfold narrow at hlength ⊢
    omega
  refine ⟨?_, ?_⟩
  · -- a batch that does not fit has a first request with which it stops to fit
    clear hsingle
    induction reqs with
    | nil => simp
    | cons req reqs ih =>
      have hrest := ih (fun reqs' hsub => hsteps reqs' (hsub.cons _))
        fun req' hreq' => hcut req' (mem_cons_of_mem _ hreq')
      obtain ⟨updates, hexec⟩ := hsteps (req :: reqs) (Sublist.refl _) (by simp)
      have hsum := (sum_nonneg_of_execute hexec).1
      have hlens : seqLens ((req :: reqs).map fun req => req.initialState.toStepRequest) =
          (req :: reqs).map fun req => totalLen req % 2 ^ 32 := by
        rw [seqLens, map_map]
        exact map_congr_left fun req hreq => (hcut req hreq).1
      rw [← map_cons (f := fun req : DiffusionRequest => req.initialState.toStepRequest),
        hlens] at hsum
      have hfirst := (hcut req mem_cons_self).2
      have hnonneg : 0 ≤ (reqs.map fun req => totalLen req % 2 ^ 32).sum := by
        apply List.sum_nonneg
        intro n hn
        obtain ⟨_, -, rfl⟩ := mem_map.mp hn
        omega
      rw [map_cons, sum_cons] at hsum ⊢
      unfold narrow at hsum
      omega
  · intro req hreq
    obtain ⟨first, rest, rfl⟩ := exists_cons_of_ne_nil (ne_nil_of_mem hreq)
    obtain ⟨updates, hexec⟩ := hsteps (first :: rest) (Sublist.refl _) (by simp)
    have hrow := (sum_nonneg_of_execute hexec).2 req.initialState.toStepRequest
      (mem_map_of_mem (f := fun req : DiffusionRequest => req.initialState.toStepRequest) hreq)
      (hsingle req hreq).nonneg
    simpa [DiffusionRuntimeState.toStepRequest, DiffusionRequest.initialState, totalLen]
      using hrow

/-- The requests that clients were admitted with. -/
def asked (requests : Set (Admitted float proc)) : Set DiffusionRequest :=
  Admitted.toDiffusionRequest '' requests

theorem exists_map_eq {requests : Set (Admitted float proc)} {reqs : List DiffusionRequest}
    (h : ∀ req ∈ reqs, req ∈ asked requests) :
    ∃ rs : List (Admitted float proc), (∀ r ∈ rs, r ∈ requests) ∧
      rs.map Admitted.toDiffusionRequest = reqs := by
  induction reqs with
  | nil => exact ⟨[], by simp, rfl⟩
  | cons req reqs ih =>
    obtain ⟨r, hr, hreq⟩ := (Set.mem_image _ _ _).mp (h req mem_cons_self)
    obtain ⟨rs, hrs, hreqs⟩ := ih fun req' hreq' => h req' (mem_cons_of_mem _ hreq')
    exact ⟨r :: rs, forall_mem_cons.mpr ⟨hr, hrs⟩, by rw [map_cons, hreq, hreqs]⟩

/-- The condition under which no step fails. -/
structure AlwaysExecutable (runner : Option ModelRunnerRef) (requests : Set (Admitted float proc)) :
    Prop where
  each : ∀ r ∈ requests, (init runner).diffusionScheduler.poolInitialized = true ∧
    Executable r.toDiffusionRequest
  offsets : OffsetsAlwaysFit (asked requests)

theorem alwaysExecutable_of_neverFails {runner : Option ModelRunnerRef}
    {requests : Set (Admitted float proc)} (h : NeverFails F runner requests) :
    AlwaysExecutable runner requests := by
  have hreturns : ∀ rs : List (Admitted float proc), (∀ r ∈ rs, r ∈ requests) →
      (addAll runner rs).StepReturns (silentEnv F) := by
    intro rs hrs
    refine h _ _ (execution_addAll runner rs) ?_ _
    intro request hmem
    obtain ⟨r, hr, hrequest⟩ := mem_map.mp hmem
    exact ⟨r, hrs r hr, Event.added.inj hrequest⟩
  have hpool : ∀ r ∈ requests, (init runner).diffusionScheduler.poolInitialized = true :=
    fun r hr => poolInitialized_of_stepReturns r (hreturns [r] (by simpa using hr))
  have hexec : ∀ rs : List (Admitted float proc), (∀ r ∈ rs, r ∈ requests) → rs ≠ [] →
      Batchable (rs.map Admitted.toDiffusionRequest) → ∃ updates,
        executeDiffusionOnce (silentEnv F)
          ⟨rs.map fun r => r.toDiffusionRequest.initialState.toStepRequest⟩ = .ok updates := by
    intro rs hrs hne hbatch
    obtain ⟨r, hr⟩ := exists_mem_of_ne_nil rs hne
    exact execute_of_stepReturns hne (hpool r (hrs r hr)) hbatch (hreturns rs hrs)
  refine ⟨?_, ?_⟩
  · intro r hr
    refine ⟨hpool r hr, executable_of_steppable ?_⟩
    exact (executeDiffusionOnce_single_isOk _ _).mp
      (hexec [r] (by simpa using hr) (by simp) ⟨by simp, by simp⟩)
  · intro reqs hreqs hbatch
    refine offsetsFit_of_execute (silentEnv F) ?_
    intro reqs' hsub hne
    obtain ⟨rs, hrs, rfl⟩ := exists_map_eq fun req hreq => hreqs req (hsub.subset hreq)
    rw [map_map]
    exact hexec rs hrs (by simpa using hne)
      ⟨hbatch.ids.sublist (hsub.map _), hsub.length_le.trans hbatch.room⟩

/-- Admission does not make requests executable. No run that adds only the given admitted
requests has a step that fails, if and only if the pool is initialised, each of them is
executable, and the offsets fit for every batch that they can make. -/
theorem admitted_executable_iff (runner : Option ModelRunnerRef)
    (requests : Set (Admitted float proc)) :
    NeverFails F runner requests ↔ AlwaysExecutable runner requests := by
  refine ⟨alwaysExecutable_of_neverFails, ?_⟩
  intro h events e run added env
  have hadded : ∀ request, .added request ∈ events →
      request.toDiffusionRequest ∈ asked requests := by
    intro request hmem
    obtain ⟨r, hr, rfl⟩ := added request hmem
    exact ⟨r, hr, rfl⟩
  rcases requests.eq_empty_or_nonempty with hempty | ⟨r, hr⟩
  · -- nothing was ever added, so there is nothing to step
    have hidle := idle_of_execution run fun request hmem => by
      obtain ⟨r, hr, -⟩ := added request hmem
      rw [hempty] at hr
      exact hr
    refine stepReturns_iff.mpr ⟨[], ?_⟩
    rw [diffusionStep_idle hidle env]
  · have hexecutable : ∀ req ∈ asked requests, Executable req := by
      rintro _ ⟨r, hr, rfl⟩
      exact (h.each r hr).2
    have hstored : Stores (· ∈ asked requests) (Of (asked requests)) e.diffusionScheduler :=
      stores_of_execution
        (fun req hreq => ⟨held_initialState (hexecutable req hreq), req, hreq, rfl, rfl⟩)
        (of_update _) run hadded
    obtain ⟨hpool, hmax⟩ := frame_of_execution run
    exact stepReturns_iff.mpr (diffusionStep_held hexecutable h.offsets hstored
      (hpool.trans (h.each r hr).1) hmax env)

/-- A request with a block length of zero is admitted, and with an initialised pool the step that
it takes part in raises. -/
theorem admitted_request_fails :
    let proc : Processor := { vocabSize := 126464, tokenizer := none, maxModelLen := 4096 }
    let params : ClientParams := { steps := 1, genLength := 1, blockLength := 0 }
    ∃ r : Admitted (fun _ => "") proc, r.requestId = "r" ∧ r.promptIds = [1] ∧
      r.params = params ∧ (((init (some ⟨some ⟨true⟩⟩)).addRequest r.request).2.step
        (constantEnv 7)).1 = .error .zeroDivisionError := by
  intro proc params
  refine ⟨⟨"r", [1], params, _, by decide, rfl⟩, rfl, rfl, rfl, ?_⟩
  decide

end Admitted

end Engine
