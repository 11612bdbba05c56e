import Mathlib.Data.Finset.Basic
import Mathlib.Data.Rat.Defs
import Mathlib.Logic.Function.Basic

/-!
# The diffusion scheduler

Requests wait in arrival order, are moved to the running list while there is room, take part in
one step batch after the other, and leave the running list when an update completes them. The
runtime state of a request is kept in a map of its own, from the arrival of the request on.
-/

namespace Diffusion

open Function

/-- The exceptions that the modelled code raises. -/
inductive PyError where
  | assertionError (message : String)
  | indexError
  | nameError
  | runtimeError
  | valueError
  | zeroDivisionError
  deriving DecidableEq, Repr

/-! ### Requests, states, batches and updates -/

structure DiffusionParams where
  steps : ℤ := 128
  genLength : ℤ := 128
  blockLength : ℤ := 32
  temperature : ℚ := 0
  cfgScale : ℚ := 0
  remasking : String := "low_confidence"
  maskId : ℤ := 126336
  promptLength : Option ℤ := none
  outputLength : Option ℤ := none
  deriving DecidableEq

structure DiffusionRequest where
  reqId : String
  inputTokenIds : List ℤ
  params : DiffusionParams
  deriving DecidableEq

/-- The progress of one request. -/
structure DiffusionRuntimeState where
  reqId : String
  x : List ℤ
  promptLen : ℕ
  totalLen : ℤ
  params : DiffusionParams
  blockIdx : ℕ := 0
  stepIdxInBlock : ℕ := 0
  deriving DecidableEq

structure DiffusionStepRequest where
  reqId : String
  x : List ℤ
  promptLen : ℕ
  totalLen : ℤ
  params : DiffusionParams
  blockIdx : ℕ
  stepIdxInBlock : ℕ
  deriving DecidableEq

structure DiffusionStepBatch where
  requests : List DiffusionStepRequest
  deriving DecidableEq

structure DiffusionStepUpdate where
  reqId : String
  newX : List ℤ
  blockIdx : ℕ
  stepIdxInBlock : ℕ
  deriving DecidableEq

structure FinishedDiffusionItem where
  reqId : String
  tailTokenIds : List ℤ
  deriving DecidableEq

namespace DiffusionParams

/-- The number of blocks, as the scheduler counts them. -/
def numBlocks (p : DiffusionParams) : ℤ :=
  max 1 (p.genLength / max 1 p.blockLength)

/-- The number of steps for each block, as the scheduler counts them. -/
def stepsPerBlock (p : DiffusionParams) : ℤ :=
  max 1 (p.steps / p.numBlocks)

theorem one_le_numBlocks (p : DiffusionParams) : 1 ≤ p.numBlocks := le_max_left _ _

theorem one_le_stepsPerBlock (p : DiffusionParams) : 1 ≤ p.stepsPerBlock := le_max_left _ _

end DiffusionParams

namespace DiffusionRequest

/-- The runtime state of a new request: the prompt, followed by masks. -/
def initialState (req : DiffusionRequest) : DiffusionRuntimeState where
  reqId := req.reqId
  x := req.inputTokenIds ++ List.replicate req.params.genLength.toNat req.params.maskId
  promptLen := req.inputTokenIds.length
  totalLen := req.inputTokenIds.length + req.params.genLength
  params := req.params

@[simp] theorem initialState_reqId (req : DiffusionRequest) :
    req.initialState.reqId = req.reqId := rfl

end DiffusionRequest

/-- The slice `xs[i:j]`; a negative `j` counts from the end. -/
def slice {α : Type*} (xs : List α) (i : ℕ) (j : ℤ) : List α :=
  (xs.take (if j < 0 then xs.length + j else j).toNat).drop i

namespace DiffusionRuntimeState

/-- One step for the scheduler to hand out, with a copy of the sequence. -/
def toStepRequest (st : DiffusionRuntimeState) : DiffusionStepRequest where
  reqId := st.reqId
  x := st.x
  promptLen := st.promptLen
  totalLen := st.totalLen
  params := st.params
  blockIdx := st.blockIdx
  stepIdxInBlock := st.stepIdxInBlock

/-- Replace the sequence and advance the step counter, which rolls over into the next block. -/
def advance (st : DiffusionRuntimeState) (newX : List ℤ) : DiffusionRuntimeState :=
  let step := st.stepIdxInBlock + 1
  -- the block counter may pass the last block, which is what ends a request by budget
  if (step : ℤ) ≥ st.params.stepsPerBlock then
    { st with x := newX, stepIdxInBlock := 0, blockIdx := st.blockIdx + 1 }
  else { st with x := newX, stepIdxInBlock := step }

/-- No mask is left in the generated part. -/
def finishedByMask (st : DiffusionRuntimeState) : Bool :=
  (st.x.drop st.promptLen).count st.params.maskId == 0

/-- All blocks have had their steps. -/
def finishedByBudget (st : DiffusionRuntimeState) : Bool :=
  decide ((st.blockIdx : ℤ) ≥ st.params.numBlocks)

def isFinished (st : DiffusionRuntimeState) : Bool :=
  st.finishedByMask || st.finishedByBudget

/-- The generated tokens. -/
def tail (st : DiffusionRuntimeState) : List ℤ :=
  slice st.x st.promptLen (st.promptLen + st.params.genLength)

@[simp] theorem toStepRequest_reqId (st : DiffusionRuntimeState) :
    st.toStepRequest.reqId = st.reqId := rfl

section

variable (st : DiffusionRuntimeState) (newX : List ℤ)
include st newX

@[simp] theorem advance_reqId : (st.advance newX).reqId = st.reqId := by
  unfold advance
  dsimp only
  split <;> rfl

@[simp] theorem advance_params : (st.advance newX).params = st.params := by
  unfold advance
  dsimp only
  split <;> rfl

@[simp] theorem advance_x : (st.advance newX).x = newX := by
  unfold advance
  dsimp only
  split <;> rfl

end

end DiffusionRuntimeState

/-! ### The scheduler -/

/-- What the scheduler sees of the activation memory pool. -/
structure PoolRef where
  initialized : Bool
  deriving DecidableEq

/-- What the scheduler sees of the model runner, which may lack a pool. -/
structure ModelRunnerRef where
  activationMemoryPool : Option PoolRef
  deriving DecidableEq

structure DiffusionScheduler where
  maxBatchSize : ℕ := 1
  modelRunner : Option ModelRunnerRef := none
  waiting : List DiffusionRequest := []
  states : String → Option DiffusionRuntimeState := fun _ => none
  running : List String := []
  finishedReqIds : Finset String := ∅

namespace DiffusionScheduler

/-- The ids of the waiting requests, in arrival order. -/
def waitingIds (s : DiffusionScheduler) : List String :=
  s.waiting.map DiffusionRequest.reqId

/-- The model runner is set and its pool is initialised. -/
def poolInitialized (s : DiffusionScheduler) : Bool :=
  match s.modelRunner with
  | some ⟨some pool⟩ => pool.initialized
  | _ => false

def setModelRunner (s : DiffusionScheduler) (runner : Option ModelRunnerRef) :
    DiffusionScheduler :=
  { s with modelRunner := runner }

/-- Only the branch for an initialised pool looks at the queue. -/
def canAddMoreRequests (s : DiffusionScheduler) : Bool :=
  match s.modelRunner with
  -- without a pool the queue is not consulted, so the answer may be yes for an empty queue
  | none | some ⟨none⟩ => decide (s.running.length < s.maxBatchSize)
  | some ⟨some pool⟩ =>
    if !pool.initialized then decide (s.running.length < s.maxBatchSize)
    else if s.waiting.isEmpty then false
    else decide (s.running.length < s.maxBatchSize)

def addRequest (s : DiffusionScheduler) (req : DiffusionRequest) : DiffusionScheduler :=
  { s with
    -- an id that is known already starts from scratch
    states := update s.states req.reqId (some req.initialState)
    waiting := s.waiting ++ [req] }

/-- Take the first request of the queue. An empty queue raises. -/
def popRequest (s : DiffusionScheduler) :
    Except PyError (DiffusionRequest × DiffusionScheduler) :=
  match s.waiting with
  | [] => .error .indexError
  | req :: rest => .ok (req, { s with waiting := rest })

/-- Add a request that was taken from the queue to the running list, once. -/
def startRunning (s : DiffusionScheduler) (req : DiffusionRequest) : DiffusionScheduler :=
  { s with
    states := if (s.states req.reqId).isNone then
        update s.states req.reqId (some req.initialState)
      else s.states
    running := if req.reqId ∈ s.running then s.running else s.running ++ [req.reqId] }

/-- The refill loop, by recursion on the queue. What was changed before an exception stays. -/
def refill : List DiffusionRequest → DiffusionScheduler → Except PyError Unit × DiffusionScheduler
  | [], s =>
    -- the loop condition does not stop at an empty queue, and then the pop raises
    if { s with waiting := [] }.canAddMoreRequests then
      (.error .indexError, { s with waiting := [] })
    else (.ok (), { s with waiting := [] })
  | req :: rest, s =>
    if { s with waiting := req :: rest }.canAddMoreRequests then
      refill rest ({ s with waiting := rest }.startRunning req)
    else (.ok (), { s with waiting := req :: rest })

/-- Move waiting requests to the running list while there is room. -/
def ensureRunningCapacity (s : DiffusionScheduler) : Except PyError Unit × DiffusionScheduler :=
  refill s.waiting s

/-- The loop over the running ids, which stops when the batch is full. -/
def collectStepRequests (s : DiffusionScheduler) :
    List String → List DiffusionStepRequest → List DiffusionStepRequest
  | [], stepReqs => stepReqs
  | reqId :: rest, stepReqs =>
    match s.states reqId with
    | none => s.collectStepRequests rest stepReqs
    | some state =>
      let stepReqs := stepReqs ++ [state.toStepRequest]
      -- the limit is tested behind the insertion
      if stepReqs.length ≥ s.maxBatchSize then stepReqs else s.collectStepRequests rest stepReqs

/-- The requests of the next batch. -/
def stepRequests (s : DiffusionScheduler) : List DiffusionStepRequest :=
  s.collectStepRequests s.running []

/-- Refill the running list and make a batch of it. -/
def scheduleStep (s : DiffusionScheduler) :
    Except PyError (Option DiffusionStepBatch) × DiffusionScheduler :=
  let (refilled, s) := s.ensureRunningCapacity
  match refilled with
  | .error e => (.error e, s)
  | .ok () =>
    if s.stepRequests.isEmpty then (.ok none, s) else (.ok (some ⟨s.stepRequests⟩), s)

/-- Merge one update. An update for an unknown id is ignored. -/
def applyUpdate (s : DiffusionScheduler) (up : DiffusionStepUpdate) :
    List FinishedDiffusionItem × DiffusionScheduler :=
  match s.states up.reqId with
  | none => ([], s)
  | some st =>
    let st := st.advance up.newX
    let s := { s with states := update s.states up.reqId (some st) }
    if st.isFinished then
      -- the state of a finished request is kept
      ([⟨st.reqId, st.tail⟩],
        { s with
          finishedReqIds := insert st.reqId s.finishedReqIds
          running := s.running.erase st.reqId })
    else ([], s)

/-- Merge the updates one after the other and collect what they complete. -/
def applyUpdatesAndCollectFinished (s : DiffusionScheduler) :
    List DiffusionStepUpdate → List FinishedDiffusionItem × DiffusionScheduler
  | [] => ([], s)
  | up :: rest =>
    let (finished, s) := s.applyUpdate up
    let (finishedLater, s) := s.applyUpdatesAndCollectFinished rest
    (finished ++ finishedLater, s)

def hasActiveRequests (s : DiffusionScheduler) : Bool :=
  !s.waiting.isEmpty || decide (s.running.length > 0)

/-! ### The refill loop -/

variable {s : DiffusionScheduler}

theorem canAddMoreRequests_imp_lt (h : s.canAddMoreRequests = true) :
    s.running.length < s.maxBatchSize := by
  unfold canAddMoreRequests at h
  split at h
  · simpa using h
  · simpa using h
  · split at h
    · simpa using h
    · split at h
      · simp at h
      · simpa using h

theorem canAddMoreRequests_of_waiting (h : s.waiting ≠ []) :
    s.canAddMoreRequests = decide (s.running.length < s.maxBatchSize) := by
  unfold canAddMoreRequests
  split
  · rfl
  · rfl
  · split
    · rfl
    · simp [h]

/-- With an empty queue the admission test differs between the branches: without an
initialised pool it may still say yes. -/
theorem canAddMoreRequests_of_waiting_nil (h : s.waiting = []) :
    s.canAddMoreRequests = (!s.poolInitialized && decide (s.running.length < s.maxBatchSize)) := by
  obtain ⟨maxBatchSize, modelRunner, waiting, _, running, _⟩ := s
  subst h
  match modelRunner with
  | none => simp [canAddMoreRequests, poolInitialized]
  | some ⟨none⟩ => simp [canAddMoreRequests, poolInitialized]
  | some ⟨some ⟨false⟩⟩ => simp [canAddMoreRequests, poolInitialized]
  | some ⟨some ⟨true⟩⟩ => simp [canAddMoreRequests, poolInitialized]

/-- The usual case of an admission: a new id whose state was filed when it arrived. -/
theorem startRunning_of_new {req : DiffusionRequest}
    (hnew : req.reqId ∉ s.running) (hknown : (s.states req.reqId).isSome) :
    s.startRunning req = { s with running := s.running ++ [req.reqId] } := by
  have hnone : (s.states req.reqId).isNone = false := Option.isNone_eq_false_iff.mpr hknown
  unfold startRunning
  rw [if_neg hnew, hnone]
  rfl

theorem ensureRunningCapacity_eq (s : DiffusionScheduler) :
    s.ensureRunningCapacity =
      if s.canAddMoreRequests then
        match s.popRequest with
        | .error e => (.error e, s)
        | .ok (req, popped) => (popped.startRunning req).ensureRunningCapacity
      else (.ok (), s) := by
  obtain ⟨_, _, waiting, _, _, _⟩ := s
  cases waiting with
  | nil => rfl
  | cons req rest => rfl

/-- The invariant rule of the refill loop: the loop body pops the first request and admits it
while there is room. -/
theorem ensureRunningCapacity_induction {P : DiffusionScheduler → Prop} (start : P s)
    (body : ∀ t req rest, P t → t.waiting = req :: rest → t.running.length < t.maxBatchSize →
      P ({ t with waiting := rest }.startRunning req)) :
    P s.ensureRunningCapacity.2 := by
  generalize hqueue : s.waiting = queue
  induction queue generalizing s with
  | nil =>
    rw [ensureRunningCapacity_eq]
    unfold popRequest
    rw [hqueue]
    split <;> exact start
  | cons req rest ih =>
    rw [ensureRunningCapacity_eq]
    unfold popRequest
    rw [hqueue]
    split
    · rename_i hroom
      exact ih (body s req rest start hqueue (canAddMoreRequests_imp_lt hroom)) rfl
    · exact start

/-- When the loop ends normally there is no room left or nothing is waiting; when it raises,
there was room left and nothing was waiting. -/
theorem ensureRunningCapacity_exit (s : DiffusionScheduler) :
    (s.ensureRunningCapacity.1 = .ok () ∧ s.ensureRunningCapacity.2.canAddMoreRequests = false) ∨
      (s.ensureRunningCapacity.1 = .error .indexError ∧ s.ensureRunningCapacity.2.waiting = [] ∧
        s.ensureRunningCapacity.2.canAddMoreRequests = true) := by
  generalize hqueue : s.waiting = queue
  induction queue generalizing s with
  | nil =>
    rw [ensureRunningCapacity_eq]
    unfold popRequest
    rw [hqueue]
    by_cases hroom : s.canAddMoreRequests = true
    · exact .inr (by simp [hroom, hqueue])
    · exact .inl (by simp [hroom])
  | cons req rest ih =>
    rw [ensureRunningCapacity_eq]
    unfold popRequest
    rw [hqueue]
    by_cases hroom : s.canAddMoreRequests = true
    · simpa [hroom] using ih ({ s with waiting := rest }.startRunning req) rfl
    · exact .inl (by simp [hroom])

/-! ### What the operations leave alone -/

section Frames

variable (s : DiffusionScheduler)

@[simp] theorem ensureRunningCapacity_maxBatchSize :
    s.ensureRunningCapacity.2.maxBatchSize = s.maxBatchSize :=
  ensureRunningCapacity_induction (P := fun t => t.maxBatchSize = s.maxBatchSize) rfl
    fun _ _ _ h _ _ => h

@[simp] theorem ensureRunningCapacity_poolInitialized :
    s.ensureRunningCapacity.2.poolInitialized = s.poolInitialized :=
  ensureRunningCapacity_induction (P := fun t => t.poolInitialized = s.poolInitialized) rfl
    fun _ _ _ h _ _ => h

@[simp] theorem ensureRunningCapacity_finishedReqIds :
    s.ensureRunningCapacity.2.finishedReqIds = s.finishedReqIds :=
  ensureRunningCapacity_induction (P := fun t => t.finishedReqIds = s.finishedReqIds) rfl
    fun _ _ _ h _ _ => h

@[simp] theorem scheduleStep_state : s.scheduleStep.2 = s.ensureRunningCapacity.2 := by
  unfold scheduleStep
  dsimp only
  split
  · rfl
  · split <;> rfl

theorem scheduleStep_result : s.scheduleStep.1 =
    s.ensureRunningCapacity.1.map fun _ =>
      if s.ensureRunningCapacity.2.stepRequests.isEmpty then none
      else some ⟨s.ensureRunningCapacity.2.stepRequests⟩ := by
  unfold scheduleStep
  dsimp only
  split
  · rename_i h
    rw [h]
    rfl
  · rename_i h
    rw [h]
    split <;> rfl

/-- A batch that is scheduled holds the step requests of the refilled scheduler, and there are
some. -/
theorem requests_of_scheduleStep {batch : DiffusionStepBatch}
    (h : s.scheduleStep.1 = .ok (some batch)) :
    batch.requests = s.ensureRunningCapacity.2.stepRequests ∧ batch.requests ≠ [] := by
  rw [scheduleStep_result] at h
  cases hrefill : s.ensureRunningCapacity.1 with
  | error e =>
    rw [hrefill] at h
    cases h
  | ok u =>
    rw [hrefill, Except.map, Except.ok.injEq] at h
    split at h
    · cases h
    · rename_i hne
      rw [← Option.some.inj h]
      exact ⟨rfl, by simpa using hne⟩

end Frames

/-! ### Batches -/

theorem collectStepRequests_eq (s : DiffusionScheduler) (ids : List String)
    (stepReqs : List DiffusionStepRequest)
    (room : stepReqs.length < max 1 s.maxBatchSize) :
    s.collectStepRequests ids stepReqs =
      stepReqs ++ ((ids.filterMap s.states).map DiffusionRuntimeState.toStepRequest).take
        (max 1 s.maxBatchSize - stepReqs.length) := by
  induction ids generalizing stepReqs with
  | nil => simp [collectStepRequests]
  | cons reqId rest ih =>
    unfold collectStepRequests
    cases hstate : s.states reqId with
    | none => simpa [hstate] using ih stepReqs room
    | some state =>
      have htake : max 1 s.maxBatchSize - stepReqs.length =
          (max 1 s.maxBatchSize - (stepReqs.length + 1)) + 1 := by omega
      dsimp only
      split
      · -- the batch is full
        rename_i hfull
        have hlast : max 1 s.maxBatchSize - (stepReqs.length + 1) = 0 := by
          simp only [List.length_append, List.length_singleton] at hfull
          omega
        rw [htake, hlast]
        simp [hstate]
      · rename_i hroom
        have hlt : (stepReqs ++ [state.toStepRequest]).length < max 1 s.maxBatchSize := by
          omega
        rw [ih _ hlt, htake]
        simp [hstate]

/-- A batch holds the first `maxBatchSize` running requests that have a state, and never fewer
than one of them. -/
theorem stepRequests_eq (s : DiffusionScheduler) :
    s.stepRequests =
      ((s.running.filterMap s.states).map DiffusionRuntimeState.toStepRequest).take
        (max 1 s.maxBatchSize) := by
  unfold stepRequests
  rw [collectStepRequests_eq s s.running [] (by simp)]
  simp

/-! ### Updates -/

/-- What one update can do. -/
theorem applyUpdate_cases (s : DiffusionScheduler) (up : DiffusionStepUpdate) :
    (s.states up.reqId = none ∧ s.applyUpdate up = ([], s)) ∨
    ∃ st, s.states up.reqId = some st ∧
      (((st.advance up.newX).isFinished = false ∧
        s.applyUpdate up = ([],
          { s with states := update s.states up.reqId (some (st.advance up.newX)) })) ∨
      ((st.advance up.newX).isFinished = true ∧
        s.applyUpdate up = ([⟨st.reqId, (st.advance up.newX).tail⟩],
          { s with
            states := update s.states up.reqId (some (st.advance up.newX))
            finishedReqIds := insert st.reqId s.finishedReqIds
            running := s.running.erase st.reqId }))) := by
  unfold applyUpdate
  cases hstate : s.states up.reqId with
  | none => exact .inl ⟨rfl, rfl⟩
  | some st =>
    refine .inr ⟨st, rfl, ?_⟩
    cases hfin : (st.advance up.newX).isFinished with
    | false => exact .inl ⟨rfl, by simp [hfin]⟩
    | true => exact .inr ⟨rfl, by simp [hfin]⟩

@[simp] theorem applyUpdates_nil (s : DiffusionScheduler) :
    s.applyUpdatesAndCollectFinished [] = ([], s) := rfl

theorem applyUpdates_cons (s : DiffusionScheduler) (up : DiffusionStepUpdate)
    (rest : List DiffusionStepUpdate) :
    s.applyUpdatesAndCollectFinished (up :: rest) =
      ((s.applyUpdate up).1 ++ ((s.applyUpdate up).2.applyUpdatesAndCollectFinished rest).1,
        ((s.applyUpdate up).2.applyUpdatesAndCollectFinished rest).2) := rfl

/-- What every single update preserves, a list of updates preserves. -/
theorem applyUpdates_preserves {P : DiffusionScheduler → Prop}
    (step : ∀ t up, P t → P (t.applyUpdate up).2) (start : P s)
    (updates : List DiffusionStepUpdate) : P (s.applyUpdatesAndCollectFinished updates).2 := by
  induction updates generalizing s with
  | nil => exact start
  | cons up rest ih => exact ih (step s up start)

/-- Updates neither move requests out of the queue nor change the limits. -/
theorem applyUpdate_frame (s : DiffusionScheduler) (up : DiffusionStepUpdate) :
    (s.applyUpdate up).2.waiting = s.waiting ∧
      (s.applyUpdate up).2.maxBatchSize = s.maxBatchSize ∧
      (s.applyUpdate up).2.modelRunner = s.modelRunner := by
  obtain ⟨_, h⟩ | ⟨_, _, ⟨_, h⟩ | ⟨_, h⟩⟩ := s.applyUpdate_cases up <;> simp [h]

theorem applyUpdates_frame (s : DiffusionScheduler) (updates : List DiffusionStepUpdate) :
    (s.applyUpdatesAndCollectFinished updates).2.waiting = s.waiting ∧
      (s.applyUpdatesAndCollectFinished updates).2.maxBatchSize = s.maxBatchSize ∧
      (s.applyUpdatesAndCollectFinished updates).2.modelRunner = s.modelRunner := by
  apply applyUpdates_preserves (P := fun t => t.waiting = s.waiting ∧
    t.maxBatchSize = s.maxBatchSize ∧ t.modelRunner = s.modelRunner)
  · intro t up ⟨hwait, hlimit, hrunner⟩
    obtain ⟨hwait', hlimit', hrunner'⟩ := t.applyUpdate_frame up
    exact ⟨hwait'.trans hwait, hlimit'.trans hlimit, hrunner'.trans hrunner⟩
  · exact ⟨rfl, rfl, rfl⟩

@[simp] theorem applyUpdates_poolInitialized (s : DiffusionScheduler)
    (updates : List DiffusionStepUpdate) :
    (s.applyUpdatesAndCollectFinished updates).2.poolInitialized = s.poolInitialized := by
  unfold poolInitialized
  rw [(s.applyUpdates_frame updates).2.2]

end DiffusionScheduler

end Diffusion
