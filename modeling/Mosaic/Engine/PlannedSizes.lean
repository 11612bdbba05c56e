import Mosaic.Block.BlockGraphs
import Mosaic.Engine.Executability

/-!
# Planned and executed sizes

The activation plan of a step is made for the lengths in the parameters of the first request of
the batch, one of which a client may choose; the forward is run on the concatenated sequences of
all requests, whose lengths are cut to 32 bits; and the forward of Dream looks for the masks once
more, with a mask id of its own. Here the steps are characterised in which these agree.
-/

namespace Engine

open Fallible Diffusion
open MachineInt (narrow)
open Transition (Execution)

variable {F : Type} [LinearOrder F]

/-- The slice `xs[i:]`; a negative `i` counts from the end. -/
def sliceFrom {α : Type} (xs : List α) (i : ℤ) : List α :=
  xs.drop (if i < 0 then xs.length + i else i).toNat

/-- What the model is run on in a step for the batch `r :: rest`, if the step gets that far. -/
def stepContext (env : RunnerEnv F) (r : DiffusionStepRequest) (rest : List DiffusionStepRequest) :
    Except PyError ForwardContext :=
  (prepareStep env r rest).map PreparedStep.ctx

/-- The masks that the forward of a family works on. Only Dream looks for them again. -/
def forwardMaskIndices (family : Block.Family) (ctx : ForwardContext) (outputLength : ℤ) :
    List ℕ :=
  match family with
  | .llada | .lladaMoe => ctx.maskIndices
  | .dream => maskIndices 151666 (sliceFrom ctx.flatInputIds (-outputLength))

/-- The plan is made for the tokens that are executed, and every mask index, of the runner and of
the forward, lies within the output and belongs to a mask of the request. -/
structure SizesMatch (family : Block.Family) (r : DiffusionStepRequest) (ctx : ForwardContext)
    (promptLength outputLength : ℤ) : Prop where
  planned : promptLength + outputLength = ctx.flatInputIds.length
  executed : (ctx.flatInputIds.length : ℤ) = r.promptLen + r.params.genLength
  runner : ∀ i ∈ ctx.maskIndices, (i : ℤ) < outputLength ∧
    (ctx.flatInputIds.drop r.promptLen)[i]? = some r.params.maskId
  forward : ∀ i ∈ forwardMaskIndices family ctx outputLength, (i : ℤ) < outputLength ∧
    (sliceFrom ctx.flatInputIds (-outputLength))[i]? = some r.params.maskId

/-! ### The context of a step -/

section Context

variable {r : DiffusionStepRequest} {rest : List DiffusionStepRequest} {ctx : ForwardContext}
  {env : RunnerEnv F}

theorem stepContext_eq_ok (h : stepContext env r rest = .ok ctx) :
    ∃ rows flat tokens, Prepares env r rest rows flat tokens ∧
      ctx = forwardContext r.params r.promptLen (seqLens (r :: rest)) flat := by
  unfold stepContext at h
  cases hprep : prepareStep env r rest with
  | error e =>
    rw [hprep] at h
    cases h
  | ok prep =>
    rw [hprep] at h
    obtain ⟨rows, flat, tokens, hready, rfl⟩ := prepareStep_eq_ok.mp hprep
    exact ⟨rows, flat, tokens, hready, (Except.ok.inj h).symm⟩

/-- The step runs the model on this context, and on no other. -/
theorem executeDiffusionOnce_runs {updates : List DiffusionStepUpdate}
    (h : executeDiffusionOnce env ⟨r :: rest⟩ = .ok updates) :
    ∃ ctx row tokens up, stepContext env r rest = .ok ctx ∧ updates = [up] ∧
      updateFirst env r row ctx.seqLens.sum tokens ctx.maskIndices (env.model ctx) = .ok up := by
  obtain ⟨prep, up, hprep, hup, rfl⟩ := executeDiffusionOnce_eq_ok_iff.mp h
  exact ⟨prep.ctx, prep.row, prep.tokens, up, by rw [stepContext, hprep]; rfl, rfl, hup⟩

theorem length_copyRow {flat out row : List ℤ} {s len : ℤ}
    (h : copyRow flat s len row = .ok out) : out.length = flat.length := by
  unfold copyRow at h
  dsimp only at h
  split at h
  · exact Tensor.length_of_storeSlice (stored_eq_ok.mp h)
  · rw [Except.ok.inj h]

theorem length_flatten {rows : List (ℤ × List ℤ)} {start : ℤ} {flat out : List ℤ}
    (h : flatten rows start flat = .ok out) : out.length = flat.length := by
  induction rows generalizing start flat with
  | nil => rw [Except.ok.inj h]
  | cons e rows ih =>
    obtain ⟨copied, hcopied, h⟩ := bind_eq_ok.mp h
    rw [ih h, length_copyRow hcopied]

/-- The number of tokens that the forward gets. -/
theorem length_flat {rows : List (List ℤ)} {flat : List ℤ} {tokens : List (List ℕ)}
    (h : Prepares env r rest rows flat tokens) :
    (flat.length : ℤ) = narrow (seqLens (r :: rest)).sum := by
  have hlength := h.length
  rw [length_flatten h.copied, length_fresh]
  omega

/-- The tokens of the batch `r :: rest`, one sequence behind the other, when they are as many as
those of `r`. -/
def inputTokens (r : DiffusionStepRequest) (rest : List DiffusionStepRequest) : List ℤ :=
  match (r :: rest).mapM fun r' =>
    padRow r.params.maskId (maxTotalLen r rest).toNat r'.x with
  | .error _ => []
  | .ok rows =>
    ((flatten ((seqLens rest).zip rows.tail) (narrow r.totalLen)
      (slice (rows.headD []) 0 r.totalLen)).toOption).getD []

/-- When the batch has as many tokens as its first sequence, that one fills the tensor, and what
was in it before is lost. -/
theorem flat_eq {rows : List (List ℤ)} {flat : List ℤ} {tokens : List (List ℕ)}
    (h : Prepares env r rest rows flat tokens)
    (hsum : narrow (seqLens (r :: rest)).sum = r.totalLen) : inputTokens r rest = flat := by
  have hnonneg : 0 ≤ r.totalLen := hsum ▸ h.length
  have hfits := MachineInt.fits_narrow (seqLens (r :: rest)).sum
  have hnarrow : narrow r.totalLen = r.totalLen :=
    MachineInt.narrow_of_fits (hsum ▸ hfits)
  have hrows := h.padded
  rw [List.mapM_cons] at hrows
  obtain ⟨row, hrow, hrest⟩ := bind_eq_ok.mp hrows
  obtain ⟨others, -, hrows⟩ := bind_eq_ok.mp hrest
  obtain rfl := Except.ok.inj hrows
  have hcopied := h.copied
  rw [hsum, seqLens, List.map_cons, List.zip_cons_cons, flatten, hnarrow] at hcopied
  obtain ⟨first, hfirst, hcopied⟩ := bind_eq_ok.mp hcopied
  have hwidth := length_of_padRow hrow
  have htotal : r.totalLen ≤ maxTotalLen r rest := totalLen_le_maxTotalLen List.mem_cons_self
  -- the first sequence is as long as the tensor
  have hfill : first = slice row 0 r.totalLen := by
    have hlen : (row.take r.totalLen.toNat).length = r.totalLen.toNat := by
      rw [List.length_take]
      omega
    have hzero : narrow 0 = 0 := by decide
    unfold copyRow at hfirst
    rw [hzero, slice_zero_of_nonneg _ hnonneg] at hfirst
    rw [slice_zero_of_nonneg _ hnonneg]
    dsimp only at hfirst
    split at hfirst
    · have hstore := Tensor.storeSlice_of_le (env.fresh .flatInputIds r.totalLen.toNat)
        (row.take r.totalLen.toNat) (k := 0) (by rw [length_fresh]; omega)
      have hend : ((0 + r.totalLen.toNat : ℕ) : ℤ) = 0 + r.totalLen := by omega
      rw [hlen, hend] at hstore
      have hsame := (stored_eq_ok.mp hfirst).symm.trans hstore
      rw [Option.some.inj hsame, List.drop_of_length_le (by rw [length_fresh]; omega)]
      simp
    · have hzero : r.totalLen.toNat = 0 := by omega
      rw [← Except.ok.inj hfirst, hzero]
      rfl
  rw [zero_add, hfill] at hcopied
  unfold inputTokens
  rw [h.padded]
  dsimp only [List.tail_cons, List.headD_cons]
  rw [hnarrow, seqLens, hcopied]
  rfl

/-- The tokens of a request that is alone and has its full length are its sequence. -/
theorem inputTokens_alone (hlength : (r.x.length : ℤ) = r.totalLen)
    (hfits : ∀ t ∈ r.x, FitsInt64 t) : inputTokens r [] = r.x := by
  have htotal : r.totalLen.toNat = r.x.length := by omega
  have hrow := padRow_of_le r.params.maskId hfits htotal.ge
  rw [htotal, Nat.sub_self, List.replicate_zero, List.append_nil] at hrow
  unfold inputTokens
  rw [maxTotalLen, List.foldl_nil, htotal, List.mapM_cons, hrow]
  have hslice : slice r.x 0 r.totalLen = r.x := by
    rw [slice_zero_of_nonneg _ (by omega), htotal, List.take_length]
  simp [bind, Except.bind, pure, Except.pure, seqLens, flatten, hslice, Except.toOption]

end Context

/-! ### Sizes of the stored requests -/

/-- The processor filled in the lengths. -/
structure LengthsFilled (req : DiffusionRequest) : Prop where
  promptLength : req.params.promptLength = some (req.inputTokenIds.length : ℤ)
  outputLength : ∃ outputLength, req.params.outputLength = some outputLength

/-- The lengths of a state, somewhere in the run of its request. -/
structure Sized (st : DiffusionRuntimeState) : Prop where
  total : st.totalLen = st.promptLen + st.params.genLength
  promptLength : st.params.promptLength = some (st.promptLen : ℤ)
  outputLength : ∃ outputLength, st.params.outputLength = some outputLength

theorem sized_initialState {req : DiffusionRequest} (h : LengthsFilled req) :
    Sized req.initialState where
  total := rfl
  promptLength := h.promptLength
  outputLength := h.outputLength

theorem sized_update : UpdatePreserves F Sized := by
  intro env st rest up hst _ _
  have hkept : (st.advance up.newX).promptLen = st.promptLen := by
    unfold DiffusionRuntimeState.advance
    dsimp only
    split
    · rfl
    · rfl
  constructor
  · simpa [hkept, advance_totalLen] using hst.total
  · simpa [hkept] using hst.promptLength
  · simpa using hst.outputLength

/-! ### When the sizes match -/

section Match

variable {family : Block.Family} {st : DiffusionRuntimeState} {rest : List DiffusionStepRequest}
  {ctx : ForwardContext} {env : RunnerEnv F}

theorem sliceFrom_neg {x : List ℤ} {promptLen : ℕ} {genLength : ℤ} (hgen : 0 < genLength)
    (hlength : (x.length : ℤ) = promptLen + genLength) :
    sliceFrom x (-genLength) = x.drop promptLen := by
  have hneg : -genLength < 0 := by omega
  have hstart : ((x.length : ℤ) + -genLength).toNat = promptLen := by omega
  rw [sliceFrom, if_pos hneg, hstart]

/-- The condition under which planned and executed sizes match in a step: the lengths of the batch,
each cut to 32 bits, add up to that of the first request, the length of the output is that of the
generated part, and for Dream the mask id is the one that the forward looks for, or that one does
not occur at the end of the tokens. -/
structure MatchCondition (family : Block.Family) (r : DiffusionStepRequest)
    (rest : List DiffusionStepRequest) : Prop where
  total : narrow (seqLens (r :: rest)).sum = r.totalLen
  output : r.params.outputLength = some r.params.genLength
  dream : family = .dream → (0 < r.params.genLength ∧ r.params.maskId = 151666) ∨
    151666 ∉ sliceFrom (inputTokens r rest) (-r.params.genLength)

theorem sizesMatch_of_condition (hst : Sized st)
    (hctx : stepContext env st.toStepRequest rest = .ok ctx)
    (h : MatchCondition family st.toStepRequest rest) :
    SizesMatch family st.toStepRequest ctx st.promptLen st.params.genLength := by
  obtain ⟨_, flat, _, hready, rfl⟩ := stepContext_eq_ok hctx
  have hflat := flat_eq hready h.total
  have htotal := hst.total
  -- there are as many tokens as the plan says
  have hlength : (flat.length : ℤ) = st.promptLen + st.params.genLength := by
    rw [length_flat hready, h.total]
    exact htotal
  have hmasks : ∀ (maskId : ℤ) (i : ℕ), i ∈ maskIndices maskId (flat.drop st.promptLen) →
      (i : ℤ) < st.params.genLength ∧ (flat.drop st.promptLen)[i]? = some maskId := by
    intro maskId i hi
    have hget := mem_maskIndices.mp hi
    have hlt := (List.getElem?_eq_some_iff.mp hget).1
    rw [List.length_drop] at hlt
    exact ⟨by omega, hget⟩
  have hforward : ∀ i ∈ maskIndices st.params.maskId (flat.drop st.promptLen),
      (i : ℤ) < st.params.genLength ∧
        (sliceFrom flat (-st.params.genLength))[i]? = some st.params.maskId := by
    intro i hi
    obtain ⟨hlt, hget⟩ := hmasks _ i hi
    rw [sliceFrom_neg (by omega) hlength]
    exact ⟨hlt, hget⟩
  refine ⟨hlength.symm, hlength, fun i hi => hmasks _ i hi, ?_⟩
  intro i hi
  cases family with
  | llada => exact hforward i hi
  | lladaMoe => exact hforward i hi
  | dream =>
    rcases h.dream rfl with ⟨hgen, hmask⟩ | hnone
    · have hgen' : 0 < st.params.genLength := hgen
      have hmask' : st.params.maskId = 151666 := hmask
      apply hforward
      rw [hmask', ← sliceFrom_neg hgen' hlength]
      exact hi
    · rw [hflat] at hnone
      exact absurd (List.mem_of_getElem? (mem_maskIndices.mp hi)) hnone

theorem condition_of_sizesMatch (hst : Sized st)
    (hctx : stepContext env st.toStepRequest rest = .ok ctx) {outputLength : ℤ}
    (houtput : st.params.outputLength = some outputLength)
    (h : SizesMatch family st.toStepRequest ctx st.promptLen outputLength) :
    MatchCondition family st.toStepRequest rest := by
  obtain ⟨_, flat, _, hready, rfl⟩ := stepContext_eq_ok hctx
  have hplanned : (st.promptLen : ℤ) + outputLength = flat.length := h.planned
  have hexecuted : (flat.length : ℤ) = st.promptLen + st.params.genLength := h.executed
  have hgen : outputLength = st.params.genLength := by omega
  have htotal : narrow (seqLens (st.toStepRequest :: rest)).sum = st.toStepRequest.totalLen := by
    rw [← length_flat hready, hexecuted]
    exact hst.total.symm
  refine ⟨htotal, ?_, ?_⟩
  · simpa [DiffusionRuntimeState.toStepRequest, hgen] using houtput
  · rintro rfl
    rw [flat_eq hready htotal]
    by_cases hmem : 151666 ∈ sliceFrom flat (-st.params.genLength)
    · left
      obtain ⟨i, hi⟩ := List.mem_iff_getElem?.mp hmem
      obtain ⟨hlt, hget⟩ := h.forward i (by
        simp only [forwardMaskIndices, forwardContext, hgen]
        exact mem_maskIndices.mpr hi)
      simp only [forwardContext, hgen] at hlt hget
      have hmask : some 151666 = some st.params.maskId := hi.symm.trans hget
      exact ⟨by simp only [DiffusionRuntimeState.toStepRequest]; omega,
        (Option.some.inj hmask).symm⟩
    · exact .inr hmem

end Match

/-! ### Runs -/

open EngineCore

variable {float : ℚ → String} {proc : Processor}

theorem lengthsFilled_admitted (r : Admitted float proc) : LengthsFilled r.toDiffusionRequest := by
  rw [r.toDiffusionRequest_eq]
  exact ⟨rfl, _, rfl⟩

theorem batch_of_stepBatch {env : RunnerEnv F} {e : EngineCore} {batch : DiffusionStepBatch}
    (h : e.stepBatch env = some batch) :
    batch.requests = e.diffusionScheduler.ensureRunningCapacity.2.stepRequests := by
  unfold stepBatch at h
  obtain heq | ⟨_, -, heq⟩ | ⟨_, hbatch, ⟨_, heq⟩ | ⟨_, -, heq⟩⟩ :=
    diffusionStep_cases env e.diffusionScheduler
  all_goals
    rw [heq] at h
    cases h
  · exact hbatch
  · exact hbatch

/-- The forward gets both lengths, and all sizes match for them. -/
def PlannedSizesMatch (family : Block.Family) (r : DiffusionStepRequest) (ctx : ForwardContext) :
    Prop :=
  ∃ promptLength outputLength, ctx.promptLength = some promptLength ∧
    ctx.outputLength = some outputLength ∧ SizesMatch family r ctx promptLength outputLength

/-- In every run over admitted requests, and for every next step that runs the model: planned and
executed sizes match if and only if the condition holds before the step. -/
theorem planned_sizes_iff (family : Block.Family) (runner : Option ModelRunnerRef)
    (events : List Event) (e : EngineCore) (run : Execution (Step F) (init runner) events e)
    (admitted : ∀ request, .added request ∈ events →
      ∃ r : Admitted float proc, r.request = request)
    (env : RunnerEnv F) (r : DiffusionStepRequest) (rest : List DiffusionStepRequest)
    (batch : e.stepBatch env = some ⟨r :: rest⟩) (ctx : ForwardContext)
    (runs : stepContext env r rest = .ok ctx) :
    PlannedSizesMatch family r ctx ↔ MatchCondition family r rest := by
  have hstored : Stores LengthsFilled Sized e.diffusionScheduler := by
    apply stores_of_execution (fun _ => sized_initialState) sized_update run
    intro request hmem
    obtain ⟨r, rfl⟩ := admitted request hmem
    exact lengthsFilled_admitted r
  -- the batch is made of stored states
  obtain ⟨sts, hsts, -, hsized⟩ :=
    (hstored.ensureRunningCapacity fun _ => sized_initialState).stepRequests_eq_map
  have hrequests := batch_of_stepBatch batch
  rw [hsts] at hrequests
  obtain ⟨st, hst, rfl⟩ : ∃ st, Sized st ∧ st.toStepRequest = r := by
    have hfirst : r ∈ sts.map DiffusionRuntimeState.toStepRequest := by
      rw [← hrequests]
      exact List.mem_cons_self
    obtain ⟨st, hmem, rfl⟩ := List.mem_map.mp hfirst
    exact ⟨st, (hsized st hmem).1, rfl⟩
  obtain ⟨_, _, _, -, hctx⟩ := stepContext_eq_ok runs
  constructor
  · intro ⟨promptLength, outputLength, hprompt, houtput, hmatch⟩
    rw [hctx] at hprompt houtput
    obtain rfl : (st.promptLen : ℤ) = promptLength :=
      Option.some.inj (hst.promptLength.symm.trans hprompt)
    exact condition_of_sizesMatch hst runs houtput hmatch
  · intro hcondition
    refine ⟨st.promptLen, st.params.genLength, ?_, ?_,
      sizesMatch_of_condition hst runs hcondition⟩
    · rw [hctx]
      exact hst.promptLength
    · rw [hctx]
      exact hcondition.output

/-- The processor of the runs below, and a request of one token that it accepts. -/
def openProcessor : Processor where
  vocabSize := 126464
  tokenizer := none
  maxModelLen := 4096

def shortRequest (outputLength : Option ℤ) : Admitted (fun _ => "") openProcessor where
  requestId := "r"
  promptIds := [1]
  params := { steps := 1, genLength := 1, blockLength := 1, outputLength := outputLength }
  request := _
  verified := by cases outputLength <;> rfl
  processed := rfl

def shortEngine (outputLength : Option ℤ) : EngineCore :=
  ((init (some ⟨some ⟨true⟩⟩)).addRequest (shortRequest outputLength).request).2

/-- The sizes match when the client leaves the length of the output to the processor, also for
Dream as long as its mask does not occur. -/
theorem planned_sizes_short :
    ∃ r ctx, (shortEngine none).stepBatch (constantEnv 7) = some ⟨[r]⟩ ∧
      stepContext (constantEnv 7) r [] = .ok ctx ∧ PlannedSizesMatch .dream r ctx := by
  refine ⟨_, _, rfl, rfl, ?_⟩
  have hadmitted : ∀ request, Event.added request ∈ [Event.added (shortRequest none).request] →
      ∃ r : Admitted (fun _ => "") openProcessor, r.request = request := by
    intro request hmem
    exact ⟨shortRequest none, (Event.added.inj (List.mem_singleton.mp hmem)).symm⟩
  refine (planned_sizes_iff (F := ℕ) .dream (some ⟨some ⟨true⟩⟩)
    [.added (shortRequest none).request] (shortEngine none) (Execution.single (Step.added _))
    hadmitted (constantEnv 7) _ [] rfl _ rfl).mpr ⟨by decide, rfl, fun _ => .inr ?_⟩
  rw [inputTokens_alone rfl (by decide)]
  decide

/-- The client asks for an output of five tokens and for the generation of one: the plan is made
for six tokens, and the forward runs on two. -/
theorem planned_sizes_differ :
    ∃ r ctx, (shortEngine (some 5)).stepBatch (constantEnv 7) = some ⟨[r]⟩ ∧
      stepContext (constantEnv 7) r [] = .ok ctx ∧ ctx.promptLength = some 1 ∧
      ctx.outputLength = some 5 ∧ ctx.flatInputIds.length = 2 ∧
      ¬ PlannedSizesMatch .llada r ctx := by
  refine ⟨_, _, rfl, rfl, rfl, rfl, rfl, ?_⟩
  intro ⟨promptLength, outputLength, hprompt, houtput, hmatch⟩
  obtain rfl : (1 : ℤ) = promptLength := Option.some.inj hprompt
  obtain rfl : (5 : ℤ) = outputLength := Option.some.inj houtput
  exact absurd hmatch.planned (by decide)

end Engine
