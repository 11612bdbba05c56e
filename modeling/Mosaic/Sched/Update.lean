import Mosaic.Sched.Schedule
import Mosaic.Transition.Execution

/-!
# Outputs of the model runner, and runs of the scheduler

The output of a batch is applied request by request: rejected draft tokens are taken back, new
tokens are appended, and what stops is freed. Between scheduling a batch and applying its output,
requests may come and go and other batches may be scheduled. Outputs are applied in the order in
which their batches were scheduled.
-/

namespace Sched

open Fallible Option Except

/-- What the model runner returns, by request. The draft tokens are those that the grammar of a
request has accepted. The answers of the connector to finished requests are given with it. -/
structure ModelRunnerOutput where
  sampledTokenIds : String → Option (List ℤ)
  specTokenIds : Option (String → List ℤ) := none
  poolerOutput : Option (String → Bool) := none
  finishedRecving : List String := []
  finishedSending : List String := []
  delayFreeBlocks : String → Bool := fun _ => false

structure EngineCoreOutput where
  requestId : String
  newTokenIds : List ℤ
  finishReason : Option FinishReason
  stopReason : Option ℤ
  numCachedTokens : ℤ
  deriving DecidableEq

/-- The scheduler and the local variables of an update. -/
structure UpdateState where
  scheduler : Scheduler
  outputs : List (ℕ × List EngineCoreOutput) := []
  stoppedRunningReqs : List String := []
  stoppedPreemptedReqs : List String := []

namespace Request

/-- Draft tokens that were rejected do not count as computed. -/
def rejectTokens (r : Request) (scheduledSpecTokenIds : List ℤ) (numGenerated : ℕ) : Request :=
  if scheduledSpecTokenIds = [] then r
  else { r with
    numComputedTokens := r.numComputedTokens -
      (scheduledSpecTokenIds.length + 1 - numGenerated) }

/-- With pooler outputs, every request is tested again. Returns whether it has an output. -/
def stopPooling (r : Request) (maxModelLen : ℕ) (poolerOutput : Option (String → Bool))
    (stopped : Bool) : Except SchedulerError (Request × Bool × Bool) :=
  match poolerOutput with
  | none => .ok (r, stopped, false)
  | some hasOutput => do
    let (r, stopped) ← r.checkStop maxModelLen (hasOutput r.requestId)
    return (r, stopped, hasOutput r.requestId)

theorem rejectTokens_eq (r : Request) (scheduledSpecTokenIds : List ℤ) (numGenerated : ℕ) :
    r.rejectTokens scheduledSpecTokenIds numGenerated = { r with
      numComputedTokens :=
        (r.rejectTokens scheduledSpecTokenIds numGenerated).numComputedTokens } := by
  unfold rejectTokens
  split <;> rfl

variable {maxModelLen : ℕ}

/-- What stopped a request stops it again, since its status and its stop reason are not tested. -/
theorem checkStop_again {r r' r'' : Request} {hasOutput stopped : Bool}
    (hok : r.checkStop maxModelLen false = .ok (r', true))
    (again : r'.checkStop maxModelLen hasOutput = .ok (r'', stopped)) : stopped = true := by
  obtain ⟨⟨hsame⟩, -⟩ := checkStop_eq_ok hok
  rw [List.append_nil] at hsame
  -- Only the status and the stop reason have changed, and no test reads these.
  have hlens : r'.numTokens = r.numTokens ∧ r'.numOutputTokens = r.numOutputTokens := by
    rw [hsame]
    exact ⟨rfl, rfl⟩
  have hpooling : r'.hasPoolingParams = r.hasPoolingParams := by rw [hsame]
  have hsampling : r'.samplingParams = r.samplingParams ∧
      r'.outputTokenIds = r.outputTokenIds ∧ r'.eosTokenId = r.eosTokenId ∧
      r'.maxTokens = r.maxTokens := by
    rw [hsame]
    exact ⟨rfl, rfl, rfl, rfl⟩
  unfold checkStop at hok again
  rw [hlens.1, hlens.2, hpooling, hsampling.1, hsampling.2.1, hsampling.2.2.1,
    hsampling.2.2.2] at again
  split at hok
  · rename_i hlen
    rw [if_pos hlen] at again
    exact (Prod.mk.inj (ok.inj again)).2.symm
  · rename_i hshort
    rw [if_neg hshort] at again
    split at hok
    · split at hok
      · rename_i hnone
        cases hnone
      · cases hok
    · rename_i hnone
      rw [if_neg hnone] at again
      split at hok
      · cases hok
      · cases hok
      · rename_i params lastTokenId hparams hlast
        rw [hparams, hlast] at again
        dsimp only at again
        split at hok
        · rename_i heos
          rw [if_pos heos] at again
          exact (Prod.mk.inj (ok.inj again)).2.symm
        · rename_i heos
          rw [if_neg heos] at again
          split at hok
          · rename_i hstop
            rw [if_pos hstop] at again
            exact (Prod.mk.inj (ok.inj again)).2.symm
          · cases hok

/-- A stopped request was stopped by the test after its last token. -/
theorem checkStop_of_stopped {given tokens : List ℤ} {r r' : Request}
    (hok : updateWithOutput maxModelLen given r = .ok (r', tokens, true)) :
    ∃ r₀ : Request, r₀.checkStop maxModelLen false = .ok (r', true) := by
  induction given generalizing r tokens with
  | nil => cases hok
  | cons token rest ih =>
    obtain ⟨⟨_, _⟩, hcheck, hok⟩ := bind_eq_ok.mp hok
    dsimp only at hok
    split at hok
    · rename_i hstopped
      cases hok
      exact ⟨_, hstopped ▸ hcheck⟩
    · obtain ⟨⟨_, _, _⟩, hrest, hok⟩ := bind_eq_ok.mp hok
      obtain ⟨rfl, htoks⟩ := Prod.mk.inj (ok.inj hok)
      obtain ⟨-, rfl⟩ := Prod.mk.inj htoks
      exact ih hrest

/-- After both tests a request is finished if it stopped, and has its old status if it did not. An
output of the pooler stops it. -/
theorem stopPooling_eq_ok {given tokens : List ℤ} {r r₁ r₂ : Request}
    {poolerOutput : Option (String → Bool)} {stopped₁ stopped hasPooler : Bool}
    (hok : updateWithOutput maxModelLen given r = .ok (r₁, tokens, stopped₁))
    (pooling : r₁.stopPooling maxModelLen poolerOutput stopped₁ = .ok (r₂, stopped, hasPooler)) :
    Extends r r₂ tokens ∧
      ((stopped = true ∧ r₂.isFinished = true) ∨
        (stopped = false ∧ tokens = given ∧ r₂.status = r.status ∧
          (given ≠ [] → r₂.numTokens < maxModelLen) ∧
          (r.hasPoolingParams = true → ∀ hasOutput, poolerOutput = some hasOutput →
            hasOutput r.requestId = false))) := by
  obtain ⟨⟨hsame⟩, hstop⟩ := updateWithOutput_eq_ok hok
  unfold stopPooling at pooling
  split at pooling
  · obtain ⟨rfl, hrest⟩ := Prod.mk.inj (ok.inj pooling)
    obtain ⟨rfl, rfl⟩ := Prod.mk.inj hrest
    refine ⟨⟨hsame⟩, hstop.imp_right ?_⟩
    rintro ⟨hgoesOn, htoks, hstatus, hshort⟩
    exact ⟨hgoesOn, htoks, hstatus, hshort, fun _ _ hsome => by cases hsome⟩
  · rename_i hasOutput
    obtain ⟨⟨_, _⟩, hcheck, hres⟩ := bind_eq_ok.mp pooling
    obtain ⟨rfl, hflags⟩ := Prod.mk.inj (ok.inj hres)
    obtain ⟨rfl, -⟩ := Prod.mk.inj hflags
    obtain ⟨⟨hsame₂⟩, hstop₂⟩ := checkStop_eq_ok hcheck
    have hkeeps : r₁.hasPoolingParams = r.hasPoolingParams ∧ r₁.requestId = r.requestId := by
      rw [hsame]
      exact ⟨rfl, rfl⟩
    refine ⟨⟨by rw [hsame₂, hsame]; simp⟩, ?_⟩
    rcases hstop₂ with hfin | ⟨rfl, rfl, -, hnone⟩
    · exact .inl hfin
    · rcases hstop with ⟨rfl, -⟩ | ⟨-, htoks, hstatus, hshort⟩
      · obtain ⟨_, hr₀⟩ := checkStop_of_stopped hok
        cases checkStop_again hr₀ hcheck
      · refine .inr ⟨rfl, htoks, hstatus, hshort, fun hpooling _ hsome => ?_⟩
        cases hsome
        rw [← hkeeps.2]
        exact hnone (hkeeps.1.trans hpooling)

end Request

/-- Append to the outputs of a client. -/
def appendOutput (outputs : List (ℕ × List EngineCoreOutput)) (client : ℕ)
    (output : EngineCoreOutput) : List (ℕ × List EngineCoreOutput) :=
  if client ∈ outputs.map Prod.fst then
    outputs.map fun entry => if entry.1 = client then (client, entry.2 ++ [output]) else entry
  else outputs ++ [(client, [output])]

namespace Scheduler

/-- Draft tokens for the next step. A request that is gone gets none. -/
def setSpecTokens (s : Scheduler) (requestId : String) (specTokenIds : Option (String → List ℤ)) :
    Scheduler :=
  match specTokenIds with
  | none => s
  | some tokens => { s with
      requests := Function.update s.requests requestId
        ((s.requests requestId).map fun r => { r with specTokenIds := tokens requestId }) }

/-- A request that stopped is freed. -/
def freeStopped (s : Scheduler) (r : Request) (stopped delayFreeBlocks : Bool) :
    Except SchedulerError Scheduler :=
  if stopped then s.freeRequest r delayFreeBlocks else .ok s

end Scheduler

namespace UpdateState

/-- Where a stopped request is removed from depends on its status before the update. -/
def recordStopped (st : UpdateState) (requestId : String) (statusBefore : RequestStatus)
    (stopped : Bool) : UpdateState :=
  if stopped then
    if statusBefore = .running then
      { st with stoppedRunningReqs := st.stoppedRunningReqs ++ [requestId] }
    else { st with stoppedPreemptedReqs := st.stoppedPreemptedReqs ++ [requestId] }
  else st

/-- A request has an output if there are new tokens for it, or an output of the pooler. -/
def recordOutput (st : UpdateState) (r : Request) (newTokenIds : List ℤ) (hasPooler : Bool) :
    UpdateState :=
  if newTokenIds ≠ [] ∨ hasPooler then
    let output : EngineCoreOutput :=
      ⟨r.requestId, newTokenIds, r.status.getFinishedReason, r.stopReason, r.numCachedTokens⟩
    { st with outputs := appendOutput st.outputs r.clientIndex output }
  else st

/-- Apply the output to one request that is known. -/
def updateKnown (batch : SchedulerOutput) (out : ModelRunnerOutput) (st : UpdateState)
    (r : Request) : Except SchedulerError UpdateState :=
  match out.sampledTokenIds r.requestId with
  | none => .error .keyError
  | some generated => do
    let maxModelLen := st.scheduler.config.maxModelLen
    let spec := (batch.scheduledSpecDecodeTokens.lookup r.requestId).getD []
    let (r', newTokenIds, stopped) ←
      (r.rejectTokens spec generated.length).updateWithOutput maxModelLen generated
    let (r', stopped, hasPooler) ← r'.stopPooling maxModelLen out.poolerOutput stopped
    let s ← (st.scheduler.setRequest r').freeStopped r' stopped (out.delayFreeBlocks r.requestId)
    return (({ st with scheduler := s.setSpecTokens r.requestId out.specTokenIds }
      ).recordStopped r.requestId r.status stopped).recordOutput r' newTokenIds hasPooler

/-- Apply the output to one entry of the batch. The request may be gone by now. -/
def updateOne (batch : SchedulerOutput) (out : ModelRunnerOutput) (st : UpdateState)
    (entry : String × ℤ) : Except SchedulerError UpdateState :=
  if entry.2 ≤ 0 then .error .assertionError
  else
    match st.scheduler.requests entry.1 with
    | none => .ok st
    | some r => st.updateKnown batch out r

/-- The parts of an update of one request. -/
theorem updateKnown_eq_ok {batch : SchedulerOutput} {out : ModelRunnerOutput}
    {st st' : UpdateState} {r : Request} (hok : updateKnown batch out st r = .ok st') :
    ∃ given tokens r₁ r₂ stopped hasPooler s,
      out.sampledTokenIds r.requestId = some given ∧
      r₁ = r.rejectTokens ((batch.scheduledSpecDecodeTokens.lookup r.requestId).getD [])
        given.length ∧
      r₁.Extends r₂ tokens ∧
      ((stopped = true ∧ r₂.isFinished = true) ∨
        (stopped = false ∧ tokens = given ∧ r₂.status = r₁.status ∧
          (given ≠ [] → r₂.numTokens < st.scheduler.config.maxModelLen) ∧
          (r₁.hasPoolingParams = true → ∀ hasOutput, out.poolerOutput = some hasOutput →
            hasOutput r₁.requestId = false))) ∧
      (st.scheduler.setRequest r₂).freeStopped r₂ stopped (out.delayFreeBlocks r.requestId) =
        .ok s ∧
      st' = (({ st with scheduler := s.setSpecTokens r.requestId out.specTokenIds }
        ).recordStopped r.requestId r.status stopped).recordOutput r₂ tokens hasPooler := by
  unfold updateKnown at hok
  split at hok
  · cases hok
  · rename_i given hgiven
    obtain ⟨⟨r₁, tokens, _⟩, hupd, hok⟩ := bind_eq_ok.mp hok
    obtain ⟨⟨r₂, stopped, hasPooler⟩, hpooling, hok⟩ := bind_eq_ok.mp hok
    obtain ⟨s, hs, hok⟩ := bind_eq_ok.mp hok
    cases hok
    obtain ⟨hextends, hstop⟩ := Request.stopPooling_eq_ok hupd hpooling
    exact ⟨given, tokens, _, r₂, stopped, hasPooler, s, hgiven, rfl, hextends, hstop, hs, rfl⟩

end UpdateState

namespace Scheduler

def receiveFinished (s : Scheduler) (out : ModelRunnerOutput) : Scheduler :=
  { s with finishedRecvingKvReqIds := s.finishedRecvingKvReqIds ∪ out.finishedRecving.toFinset }

/-- The blocks of a finished request have been sent. -/
def finishSending (s : Scheduler) (requestId : String) : Except SchedulerError Scheduler := do
  let r ← s.request requestId
  s.freeBlocks r

/-- Remove what has stopped from the running list and the queue. -/
def removeStopped (st : UpdateState) : Except SchedulerError Scheduler := do
  let waiting ← removeWaiting st.scheduler.waiting st.stoppedPreemptedReqs
  return { st.scheduler with
    running := st.scheduler.running.filter (· ∉ st.stoppedRunningReqs)
    waiting := waiting }

def updateFromOutput (s : Scheduler) (batch : SchedulerOutput) (out : ModelRunnerOutput) :
    Except SchedulerError (Scheduler × List (ℕ × List EngineCoreOutput)) := do
  let st ← batch.numScheduledTokens.foldlM (UpdateState.updateOne batch out) { scheduler := s }
  let s ← removeStopped st
  let s ← out.finishedSending.foldlM finishSending (s.receiveFinished out)
  return (s, st.outputs)

end Scheduler

/-! ### Runs -/

/-- The scheduler, and the batches whose outputs have not been applied. -/
structure Pipeline where
  scheduler : Scheduler
  inFlight : List SchedulerOutput := []

/-- What happens in a run. -/
inductive Event where
  | added (r : Request)
  | finished (requestIds : List String) (status : RequestStatus)
  | scheduled (ext : External) (batch : SchedulerOutput)
  | updated (out : ModelRunnerOutput)
  | resetPrefixCache

/-- A request as it is made from what a client sends. -/
structure Request.Fresh (r : Request) : Prop where
  outputTokenIds : r.outputTokenIds = []
  specTokenIds : r.specTokenIds = []
  numComputedTokens : r.numComputedTokens = 0
  numCachedTokens : r.numCachedTokens = -1
  status : r.status = if r.useStructuredOutput then .waitingForFsm else .waiting

/-- A call of the scheduler that returns. Ids of known requests are not used again. Only a batch
without tokens may be dropped. -/
inductive Step (env : Kv.HashEnv) : Pipeline → Event → Pipeline → Prop where
  | added {p : Pipeline} {r : Request} {s : Scheduler} (fresh : r.Fresh)
      (unknown : p.scheduler.requests r.requestId = none)
      (returns : p.scheduler.addRequest r = .ok s) :
      Step env p (.added r) { p with scheduler := s }
  | finished {p : Pipeline} {requestIds : List String} {status : RequestStatus}
      {delayFreeBlocks : String → Bool} {s : Scheduler}
      (returns : p.scheduler.finishRequests requestIds status delayFreeBlocks = .ok s) :
      Step env p (.finished requestIds status) { p with scheduler := s }
  | scheduled {p : Pipeline} {ext : External} {s : Scheduler} {batch : SchedulerOutput}
      {executed : Bool} (returns : p.scheduler.schedule env ext = .ok (s, batch))
      (dropped : executed = false → batch.totalNumScheduledTokens ≤ 0) :
      Step env p (.scheduled ext batch)
        { scheduler := s
          inFlight := if executed then p.inFlight ++ [batch] else p.inFlight }
  | updated {s s' : Scheduler} {batch : SchedulerOutput} {rest : List SchedulerOutput}
      {out : ModelRunnerOutput} {outputs : List (ℕ × List EngineCoreOutput)}
      (returns : s.updateFromOutput batch out = .ok (s', outputs)) :
      Step env ⟨s, batch :: rest⟩ (.updated out) ⟨s', rest⟩
  | resetPrefixCache {p : Pipeline} :
      Step env p .resetPrefixCache { p with scheduler := p.scheduler.resetPrefixCache.2 }

/-! ### Runs that are computed -/

instance (r : Request) : Decidable r.Fresh :=
  decidable_of_iff (r.outputTokenIds = [] ∧ r.specTokenIds = [] ∧ r.numComputedTokens = 0 ∧
      r.numCachedTokens = -1 ∧
      r.status = if r.useStructuredOutput then .waitingForFsm else .waiting)
    ⟨fun ⟨h₁, h₂, h₃, h₄, h₅⟩ => ⟨h₁, h₂, h₃, h₄, h₅⟩,
      fun ⟨h₁, h₂, h₃, h₄, h₅⟩ => ⟨h₁, h₂, h₃, h₄, h₅⟩⟩

/-- What the scheduler is told to do. -/
inductive Command where
  | add (r : Request)
  | finish (requestIds : List String) (status : RequestStatus)
  | schedule (ext : External)
  | update (out : ModelRunnerOutput)

/-- The event that a command leads to. -/
def Command.Is : Command → Event → Prop
  | .add r, event => event = .added r
  | .finish requestIds status, event => event = .finished requestIds status
  | .schedule ext, event => ∃ batch, event = .scheduled ext batch
  | .update out, event => event = .updated out

namespace Pipeline

/-- Follow a command, if the call returns. Every batch is executed. -/
def follow (env : Kv.HashEnv) (p : Pipeline) : Command → Option Pipeline
  | .add r =>
    if r.Fresh ∧ p.scheduler.requests r.requestId = none then
      (p.scheduler.addRequest r).toOption.map fun s => { p with scheduler := s }
    else none
  | .finish requestIds status =>
    (p.scheduler.finishRequests requestIds status fun _ => false).toOption.map fun s =>
      { p with scheduler := s }
  | .schedule ext =>
    (p.scheduler.schedule env ext).toOption.map fun (s, batch) => ⟨s, p.inFlight ++ [batch]⟩
  | .update out =>
    match p.inFlight with
    | [] => none
    | batch :: rest =>
      (p.scheduler.updateFromOutput batch out).toOption.map fun (s, _) => ⟨s, rest⟩

/-- Follow commands from the start. -/
def follows (env : Kv.HashEnv) (config : SchedulerConfig) (encoderCacheSize : ℕ)
    (cfg : Kv.KVCacheConfig) (enableCaching : Bool) (commands : List Command) :
    Option Pipeline := do
  let kv ← (Kv.KVCacheManager.new cfg config.maxModelLen enableCaching false false).toOption
  commands.foldlM (follow env) ⟨.new config encoderCacheSize kv, []⟩

/-- Follow commands from the start, as long as they are allowed. -/
def followsIf (allowed : Pipeline → Command → Bool) (env : Kv.HashEnv) (config : SchedulerConfig)
    (encoderCacheSize : ℕ) (cfg : Kv.KVCacheConfig) (enableCaching : Bool)
    (commands : List Command) : Option Pipeline := do
  let kv ← (Kv.KVCacheManager.new cfg config.maxModelLen enableCaching false false).toOption
  commands.foldlM (fun p command => if allowed p command then p.follow env command else none)
    ⟨.new config encoderCacheSize kv, []⟩

/-- One group of layers that attend to all tokens. -/
def oneGroup (numBlocks blockSize : ℕ) : Kv.KVCacheConfig where
  numBlocks := numBlocks
  kvCacheTensors := []
  kvCacheGroups := [⟨["full"], .fullAttention ⟨blockSize, 1, 1, .float16, false⟩ none none⟩]

variable {env : Kv.HashEnv} {p q : Pipeline}

theorem step_of_follow {command : Command} (h : p.follow env command = some q) :
    ∃ event, command.Is event ∧ Step env p event q := by
  cases command with
  | add r =>
    dsimp only [follow] at h
    split at h
    · rename_i hnew
      obtain ⟨s, hs, rfl⟩ := map_eq_some_iff.mp h
      exact ⟨_, rfl, .added hnew.1 hnew.2 (toOption_eq_some.mp hs)⟩
    · cases h
  | finish requestIds status =>
    obtain ⟨s, hs, rfl⟩ := map_eq_some_iff.mp h
    exact ⟨_, rfl, .finished (toOption_eq_some.mp hs)⟩
  | schedule ext =>
    obtain ⟨⟨s, batch⟩, hs, rfl⟩ := map_eq_some_iff.mp h
    have hstep : Step env p (.scheduled ext batch)
        ⟨s, if true then p.inFlight ++ [batch] else p.inFlight⟩ :=
      .scheduled (toOption_eq_some.mp hs) (by simp)
    exact ⟨_, ⟨batch, rfl⟩, hstep⟩
  | update out =>
    obtain ⟨s, inFlight⟩ := p
    cases inFlight with
    | nil => cases h
    | cons batch rest =>
      obtain ⟨⟨_, _⟩, hs, rfl⟩ := map_eq_some_iff.mp h
      exact ⟨_, rfl, .updated (toOption_eq_some.mp hs)⟩

/-- What commands lead to is reached by a run. -/
theorem execution_of_follows {config : SchedulerConfig} {encoderCacheSize : ℕ}
    {cfg : Kv.KVCacheConfig} {enableCaching : Bool} {commands : List Command}
    (h : follows env config encoderCacheSize cfg enableCaching commands = some p) :
    ∃ kv events, Kv.KVCacheManager.new cfg config.maxModelLen enableCaching false false = .ok kv ∧
      Transition.Execution (Step env) ⟨.new config encoderCacheSize kv, []⟩ events p := by
  obtain ⟨kv, hkv, h⟩ := bind_eq_some_iff.mp h
  obtain ⟨events, run, -⟩ : ∃ events, Transition.Execution (Step env) _ events p ∧ True :=
    Transition.Execution.exists_of_foldlM (P := fun _ => True) (fun p command q _ _ hfollow => by
      obtain ⟨event, -, hstep⟩ := step_of_follow hfollow
      exact ⟨event, hstep, trivial⟩) trivial h
  exact ⟨kv, events, toOption_eq_some.mp hkv, run⟩

/-- What allowed commands lead to is reached by a run of special steps, if allowed commands make
such steps. -/
theorem execution_of_followsIf {R : Pipeline → Event → Pipeline → Prop} {P : Pipeline → Prop}
    {allowed : Pipeline → Command → Bool} {config : SchedulerConfig} {encoderCacheSize : ℕ}
    {cfg : Kv.KVCacheConfig} {enableCaching : Bool} {commands : List Command}
    (start : ∀ kv, Kv.KVCacheManager.new cfg config.maxModelLen enableCaching false false =
      .ok kv → P ⟨.new config encoderCacheSize kv, []⟩)
    (each : ∀ p q command event, command ∈ commands → P p → allowed p command = true →
      command.Is event → Step env p event q → R p event q ∧ P q)
    (h : followsIf allowed env config encoderCacheSize cfg enableCaching commands = some p) :
    ∃ kv events, Kv.KVCacheManager.new cfg config.maxModelLen enableCaching false false = .ok kv ∧
      Transition.Execution R ⟨.new config encoderCacheSize kv, []⟩ events p ∧ P p := by
  obtain ⟨kv, hkv, h⟩ := bind_eq_some_iff.mp h
  have hkv := toOption_eq_some.mp hkv
  obtain ⟨events, run, hlast⟩ : ∃ events, Transition.Execution R _ events p ∧ P p :=
    Transition.Execution.exists_of_foldlM
    (fun p command q hmem hp hfollow => by
      split at hfollow
      · rename_i hallowed
        obtain ⟨event, his, hstep⟩ := step_of_follow hfollow
        exact ⟨event, each p q command event hmem hp hallowed his hstep⟩
      · cases hfollow) (start kv hkv) h
  exact ⟨kv, events, hkv, run, hlast⟩

end Pipeline

end Sched
