import Mosaic.Diffusion.Runner
import Mosaic.Diffusion.SchedulerRuns
import Mosaic.Transition.Execution

/-!
# The engine core in diffusion mode

The engine holds two schedulers. New requests go to the diffusion scheduler, and a step takes
its batch from there; an abort is handed to the token scheduler, which never sees a diffusion
request.
-/

namespace Engine

open List Diffusion
open Transition (Execution)

variable {F : Type} [LinearOrder F]

/-! ### The token scheduler -/

inductive RequestStatus where
  | waiting
  | running
  deriving DecidableEq

/-- The part of the token scheduler that an abort works on. -/
structure TokenScheduler where
  requests : String → Option RequestStatus := fun _ => none
  running : List String := []
  waiting : List String := []
  finishedReqIds : Finset String := ∅

/-- Remove the known requests among `requestIds`; unknown ids are skipped. -/
def TokenScheduler.finishRequests (s : TokenScheduler) (requestIds : List String) :
    TokenScheduler :=
  let valid := requestIds.dedup.filter fun id => (s.requests id).isSome
  { requests := fun id => if id ∈ valid then none else s.requests id
    running := s.running.filter fun id => ¬ (id ∈ valid ∧ s.requests id = some .running)
    waiting := s.waiting.filter fun id => ¬ (id ∈ valid ∧ s.requests id ≠ some .running)
    finishedReqIds := s.finishedReqIds ∪ valid.toFinset }

/-! ### The engine -/

/-- The fields of the sampling parameters that diffusion reads. -/
structure SamplingParams where
  steps : ℤ := 128
  genLength : ℤ := 128
  blockLength : ℤ := 32
  temperature : ℚ := 1
  cfgScale : ℚ := 0
  remasking : String := "low_confidence"
  maskId : ℤ := 126336
  promptLength : Option ℤ := none
  outputLength : Option ℤ := none

structure Request where
  requestId : String
  promptTokenIds : List ℤ
  samplingParams : Option SamplingParams
  poolingTask : Option String := none
  clientIndex : ℕ := 0

inductive FinishReason where
  | length
  deriving DecidableEq

structure EngineCoreOutput where
  requestId : String
  newTokenIds : List ℤ
  finishReason : FinishReason
  deriving DecidableEq

structure EngineCore where
  scheduler : TokenScheduler := {}
  diffusionScheduler : DiffusionScheduler := { maxBatchSize := 999 }
  supportedPoolingTasks : List String := []

/-- The diffusion request for an engine request. Without sampling parameters the defaults of the
engine apply; lengths that are not given are taken from the prompt and the output. The client
index is left behind. -/
def Request.toDiffusionRequest (request : Request) : DiffusionRequest :=
  let sp := request.samplingParams.getD { temperature := 0 }
  { reqId := request.requestId
    inputTokenIds := request.promptTokenIds
    params :=
      { steps := sp.steps
        genLength := sp.genLength
        blockLength := sp.blockLength
        temperature := sp.temperature
        cfgScale := sp.cfgScale
        remasking := sp.remasking
        maskId := sp.maskId
        promptLength := some (sp.promptLength.getD request.promptTokenIds.length)
        outputLength := some (sp.outputLength.getD sp.genLength) } }

namespace EngineCore

/-- Add a request to the diffusion scheduler. An unsupported pooling task is refused. -/
def addRequest (e : EngineCore) (request : Request) : Except PyError Unit × EngineCore :=
  match request.poolingTask with
  | some task =>
    if task ∉ e.supportedPoolingTasks then (.error .valueError, e)
    else (.ok (), { e with
      diffusionScheduler := e.diffusionScheduler.addRequest request.toDiffusionRequest })
  | none => (.ok (), { e with
      diffusionScheduler := e.diffusionScheduler.addRequest request.toDiffusionRequest })

/-- Only the token scheduler is told about an abort. -/
def abortRequests (e : EngineCore) (requestIds : List String) : EngineCore :=
  { e with scheduler := e.scheduler.finishRequests requestIds }

/-- The outputs of a step, all of them for client 0, and whether the model was executed. -/
def packOutputs (batch : Option DiffusionStepBatch) (finished : List FinishedDiffusionItem) :
    List (ℕ × List EngineCoreOutput) × Bool :=
  let outputs := finished.map fun item => ⟨item.reqId, item.tailTokenIds, .length⟩
  (if outputs.isEmpty then [] else [(0, outputs)], batch.isSome)

/-- One step of the engine: its result, or the exception it raises, and the engine it leaves. -/
def step (env : RunnerEnv F) (e : EngineCore) :
    Except PyError (List (ℕ × List EngineCoreOutput) × Bool) × EngineCore :=
  let outcome := diffusionStep env e.diffusionScheduler
  (outcome.finished.map (packOutputs outcome.batch),
    { e with diffusionScheduler := outcome.scheduler })

/-- The batch that a step hands to the model runner. -/
def stepBatch (env : RunnerEnv F) (e : EngineCore) : Option DiffusionStepBatch :=
  (diffusionStep env e.diffusionScheduler).batch

end EngineCore

/-! ### Runs -/

/-- What happens in a run: calls of the engine, and what a step schedules and puts out. A step
that raises puts out nothing. -/
inductive Event where
  | added (request : Request)
  | aborted (requestIds : List String)
  | stepped (batch : Option DiffusionStepBatch) (outputs : List (ℕ × List EngineCoreOutput))

namespace Event

/-- The id that is added. -/
def addedId : Event → List String
  | .added request => [request.requestId]
  | _ => []

/-- The ids in the batch of a step. -/
def scheduledIds : Event → List String
  | .stepped (some batch) _ => batch.requests.map DiffusionStepRequest.reqId
  | _ => []

/-- The ids in the outputs of a step, over all clients. -/
def outputIds : Event → List String
  | .stepped _ outputs => outputs.flatMap fun out => out.2.map EngineCoreOutput.requestId
  | _ => []

end Event

namespace EngineCore

/-- A new engine, with the model runner that the diffusion scheduler was given. -/
def init (runner : Option ModelRunnerRef) : EngineCore where
  diffusionScheduler := { maxBatchSize := 999, modelRunner := runner }

/-- One call of the engine. The model may answer differently in every step. -/
inductive Step (F : Type) [LinearOrder F] : EngineCore → Event → EngineCore → Prop where
  | added {e : EngineCore} (request : Request) :
      Step F e (.added request) (e.addRequest request).2
  | aborted {e : EngineCore} (requestIds : List String) :
      Step F e (.aborted requestIds) (e.abortRequests requestIds)
  | stepped {e : EngineCore} (env : RunnerEnv F) :
      Step F e
        (.stepped (e.stepBatch env) (match (e.step env).1 with
          | .ok (outputs, _) => outputs
          | .error _ => []))
        (e.step env).2

end EngineCore

/-! ### What a diffusion step reaches -/

section DiffusionStep

variable {s : DiffusionScheduler}

theorem stepRequests_subset_running (hs : s.Consistent) :
    s.stepRequests.map DiffusionStepRequest.reqId ⊆ s.running := by
  intro id hid
  rw [DiffusionScheduler.stepRequests_eq] at hid
  obtain ⟨_, hr, rfl⟩ := mem_map.mp hid
  obtain ⟨st, hst, rfl⟩ := mem_map.mp (mem_of_mem_take hr)
  obtain ⟨key, hkey, hstate⟩ := mem_filterMap.mp hst
  rw [DiffusionRuntimeState.toStepRequest_reqId, hs.filed key st hstate]
  exact hkey

/-- Only ids that were updated can be reported. -/
theorem reported_subset_updated (hs : s.Consistent) (updates : List DiffusionStepUpdate) :
    (s.applyUpdatesAndCollectFinished updates).1.map FinishedDiffusionItem.reqId ⊆
      updates.map DiffusionStepUpdate.reqId := by
  induction updates generalizing s with
  | nil => exact List.Subset.refl _
  | cons up rest ih =>
    rw [DiffusionScheduler.applyUpdates_cons, map_append, map_cons]
    apply append_subset.mpr
    constructor
    · obtain ⟨_, heq⟩ | ⟨st, hst, ⟨_, heq⟩ | ⟨_, heq⟩⟩ := s.applyUpdate_cases up
      · simp [heq]
      · simp [heq]
      · simp [heq, hs.filed _ st hst]
    · exact subset_cons_of_subset _ (ih (hs.applyUpdate up))

theorem applyUpdates_activeIds_subset (updates : List DiffusionStepUpdate) :
    (s.applyUpdatesAndCollectFinished updates).2.activeIds ⊆ s.activeIds := by
  intro id hid
  rw [DiffusionScheduler.mem_activeIds, DiffusionScheduler.applyUpdates_waitingIds] at hid
  rw [DiffusionScheduler.mem_activeIds]
  exact hid.imp_left fun h => DiffusionScheduler.applyUpdates_running_subset s updates h

/-- A diffusion step schedules, reports and keeps only ids that were active before it. -/
structure WithinActive (s : DiffusionScheduler) (outcome : StepOutcome) : Prop where
  consistent : outcome.scheduler.Consistent
  active : outcome.scheduler.activeIds ⊆ s.activeIds
  batch : ∀ batch, outcome.batch = some batch →
    ∀ r ∈ batch.requests, r.reqId ∈ s.activeIds
  finished : ∀ items, outcome.finished = .ok items → ∀ item ∈ items, item.reqId ∈ s.activeIds

/-- The updates of a step are for requests of its batch. -/
theorem updates_subset_batch {env : RunnerEnv F} {batch : DiffusionStepBatch}
    {updates : List DiffusionStepUpdate} (h : executeDiffusionOnce env batch = .ok updates) :
    updates.map DiffusionStepUpdate.reqId ⊆ batch.requests.map DiffusionStepRequest.reqId := by
  obtain ⟨requests⟩ := batch
  cases requests with
  | nil =>
    cases h
    exact List.Subset.refl _
  | cons r rest =>
    -- the only update is that of the first request
    obtain ⟨_, rfl, hid⟩ := executeDiffusionOnce_eq_ok h
    simp [hid]

theorem diffusionStep_withinActive (env : RunnerEnv F) (hs : s.Consistent) :
    WithinActive s (diffusionStep env s) := by
  have hrefilled := hs.ensureRunningCapacity
  have hactive := s.ensureRunningCapacity_activeIds
  obtain heq | ⟨_, hnone, heq⟩ | ⟨batch, hbatch, hrun⟩ := diffusionStep_cases env s
  · rw [heq]
    exact ⟨hs, subset_rfl, by simp, by simp⟩
  · rw [heq]
    refine ⟨hrefilled, hactive.le, by simp, ?_⟩
    intro items hitems
    simp [hnone items hitems]
  · -- what is scheduled runs in the refilled scheduler, which has the same active ids
    have hids : ∀ id ∈ batch.requests.map DiffusionStepRequest.reqId, id ∈ s.activeIds := by
      intro id hid
      rw [hbatch] at hid
      rw [← hactive, DiffusionScheduler.mem_activeIds]
      exact .inl (stepRequests_subset_running hrefilled hid)
    have hreqs : ∀ r ∈ batch.requests, r.reqId ∈ s.activeIds :=
      fun r hr => hids _ (mem_map_of_mem hr)
    obtain ⟨_, heq⟩ | ⟨updates, hexec, heq⟩ := hrun
    · rw [heq]
      exact ⟨hrefilled, hactive.le, by simpa using hreqs, by simp⟩
    · rw [heq]
      refine ⟨hrefilled.applyUpdates updates, ?_, by simpa using hreqs, ?_⟩
      · exact (applyUpdates_activeIds_subset updates).trans hactive.le
      · intro items hitems item hitem
        cases hitems
        have hup := reported_subset_updated hrefilled updates (mem_map_of_mem hitem)
        exact hids _ (updates_subset_batch hexec hup)

end DiffusionStep

namespace EngineCore

/-! ### Inactive ids -/

theorem Step.consistent {e e' : EngineCore} {event : Event} (h : Step F e event e')
    (hs : e.diffusionScheduler.Consistent) : e'.diffusionScheduler.Consistent := by
  cases h with
  | added request =>
    unfold addRequest
    split
    · split
      · exact hs
      · exact hs.addRequest _
    · exact hs.addRequest _
  | aborted requestIds => exact hs
  | stepped env => exact (diffusionStep_withinActive env hs).consistent

theorem consistent_of_execution {runner : Option ModelRunnerRef} {events : List Event}
    {e : EngineCore} (run : Execution (Step F) (init runner) events e) :
    e.diffusionScheduler.Consistent := by
  apply run.preserves (P := fun e => e.diffusionScheduler.Consistent)
  · intro t event u ht hstep
    exact hstep.consistent ht
  · have h := DiffusionScheduler.consistent_init 999
    exact ⟨h.nodup, h.filed⟩

theorem mem_activeIds_addRequest {e : EngineCore} {request : Request} {id : String}
    (h : id ∈ (e.addRequest request).2.diffusionScheduler.activeIds) :
    id = request.requestId ∨ id ∈ e.diffusionScheduler.activeIds := by
  have hadd (hmem : id ∈ (e.diffusionScheduler.addRequest
      request.toDiffusionRequest).activeIds) :
      id = request.requestId ∨ id ∈ e.diffusionScheduler.activeIds := by
    rw [DiffusionScheduler.mem_activeIds] at hmem ⊢
    simp only [DiffusionScheduler.addRequest, DiffusionScheduler.waitingIds, map_append,
      mem_append, map_singleton, mem_singleton, Request.toDiffusionRequest]
      at hmem ⊢
    tauto
  unfold addRequest at h
  split at h
  · split at h
    · exact .inr h
    · exact hadd h
  · exact hadd h

/-- An id that is not active is neither scheduled nor put out, and becomes active only when it
is added. -/
theorem Step.keeps_inactive {e e' : EngineCore} {event : Event} (h : Step F e event e')
    (hs : e.diffusionScheduler.Consistent) {id : String}
    (inactive : id ∉ e.diffusionScheduler.activeIds) (notAdded : id ∉ event.addedId) :
    id ∉ e'.diffusionScheduler.activeIds ∧ id ∉ event.scheduledIds ∧ id ∉ event.outputIds := by
  cases h with
  | added request =>
    refine ⟨?_, by simp [Event.scheduledIds], by simp [Event.outputIds]⟩
    intro hmem
    cases mem_activeIds_addRequest hmem with
    | inl hsame => exact notAdded (by simp [Event.addedId, hsame])
    | inr hold => exact inactive hold
  | aborted requestIds => exact ⟨inactive, by simp [Event.scheduledIds], by simp [Event.outputIds]⟩
  | stepped env =>
    have hwithin := diffusionStep_withinActive env hs
    refine ⟨fun hmem => inactive (hwithin.active hmem), ?_, ?_⟩
    · intro hmem
      cases hbatch : e.stepBatch env with
      | none => simp [Event.scheduledIds, hbatch] at hmem
      | some batch =>
        simp only [Event.scheduledIds, hbatch, mem_map] at hmem
        obtain ⟨r, hr, rfl⟩ := hmem
        exact inactive (hwithin.batch batch hbatch r hr)
    · intro hmem
      cases hfin : (diffusionStep env e.diffusionScheduler).finished with
      | error err => simp [Event.outputIds, step, hfin, Except.map] at hmem
      | ok items =>
        -- every output is made from a finished item
        have hitem : ∃ item ∈ items, item.reqId = id := by
          simp only [Event.outputIds, step, hfin, Except.map, packOutputs] at hmem
          split at hmem
          · simp at hmem
          · simpa using hmem
        obtain ⟨item, hitem, rfl⟩ := hitem
        exact inactive (hwithin.finished items hfin item hitem)

end EngineCore

end Engine
