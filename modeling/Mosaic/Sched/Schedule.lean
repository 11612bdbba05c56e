import Mosaic.Sched.Scheduler

/-!
# Scheduling

A call first goes over the running requests and gives each of them the tokens that fit in the
budget. If there are no blocks for a request, others are preempted until there are. Unless one was
preempted, the call then admits waiting requests.
-/

namespace Sched

/-- Assignment to a key of a dictionary, which keeps its insertion order. -/
def setKey {α : Type} (d : List (String × α)) (key : String) (value : α) : List (String × α) :=
  if key ∈ d.map Prod.fst then d.map fun entry => if entry.1 = key then (key, value) else entry
  else d ++ [(key, value)]

structure NewRequestData where
  reqId : String
  promptTokenIds : List ℤ
  blockIds : List (List ℕ)
  numComputedTokens : ℤ
  loraIntId : Option ℤ
  deriving DecidableEq

structure CachedRequestData where
  reqIds : List String
  resumedFromPreemption : List Bool
  newTokenIds : List (List ℤ)
  newBlockIds : List (List (List ℕ))
  numComputedTokens : List ℤ
  deriving DecidableEq

structure SchedulerOutput where
  scheduledNewReqs : List NewRequestData
  scheduledCachedReqs : CachedRequestData
  numScheduledTokens : List (String × ℤ)
  totalNumScheduledTokens : ℤ
  scheduledSpecDecodeTokens : List (String × List ℤ)
  scheduledEncoderInputs : List (String × List ℕ)
  numCommonPrefixBlocks : List ℕ
  finishedReqIds : Finset String
  freeEncoderInputIds : List (String × ℕ)
  structuredOutputRequestIds : List (String × ℕ)

/-- The scheduler and the local variables of a call. -/
structure ScheduleState where
  scheduler : Scheduler
  tokenBudget : ℤ
  encoderBudget : ℤ
  reqIndex : ℕ := 0
  scheduledNewReqs : List String := []
  scheduledResumedReqs : List String := []
  scheduledRunningReqs : List String := []
  preemptedReqs : List String := []
  structuredOutputRequestIds : List (String × ℕ) := []
  reqToNewBlockIds : List (String × List (List ℕ)) := []
  numScheduledTokens : List (String × ℤ) := []
  scheduledSpecDecodeTokens : List (String × List ℤ) := []
  scheduledEncoderInputs : List (String × List ℕ) := []
  scheduledLoras : Finset ℤ := ∅
  skippedWaitingRequests : RequestQueue

/-- A request of `n` tokens gets at most as many as the threshold for long prompts allows. -/
def SchedulerConfig.clipLongPrefill (config : SchedulerConfig) (n : ℤ) : ℤ :=
  if 0 < config.longPrefillTokenThreshold ∧ config.longPrefillTokenThreshold < n then
    config.longPrefillTokenThreshold
  else n

/-- The tokens of a running request for the next step, as far as the budget and the length of the
model allow. -/
def SchedulerConfig.numNewTokens (config : SchedulerConfig) (r : Request) (tokenBudget : ℤ) : ℤ :=
  min (min (config.clipLongPrefill (r.numTokensWithSpec - r.numComputedTokens)) tokenBudget)
    (config.maxModelLen - 1 - r.numComputedTokens)

namespace Scheduler

/-! ### Preemption -/

/-- Requests with greater values are preempted first. -/
def preemptionKey (requests : String → Option Request) (requestId : String) : ℤ × ℚ :=
  match requests requestId with
  | none => (0, 0)
  | some r => (r.priority, r.arrivalTime)

/-- The comparison of tuples. -/
def preemptsBefore (requests : String → Option Request) (a b : String) : Bool :=
  decide ((preemptionKey requests b).1 < (preemptionKey requests a).1) ||
    (decide ((preemptionKey requests b).1 = (preemptionKey requests a).1) &&
      decide ((preemptionKey requests b).2 < (preemptionKey requests a).2))

/-- The first one of the requests with the greatest value. -/
def lowestPriority (requests : String → Option Request) : List String → Option String
  | [] => none
  | id :: rest =>
    match lowestPriority requests rest with
    | none => some id
    | some best => if preemptsBefore requests best id then some best else some id

theorem lowestPriority_mem {requests : String → Option Request} {ids : List String} {id : String}
    (h : lowestPriority requests ids = some id) : id ∈ ids := by
  induction ids with
  | nil => cases h
  | cons first rest ih =>
    unfold lowestPriority at h
    split at h
    · rw [Option.some.inj h]
      exact List.mem_cons_self
    · rename_i best hbest
      split at h
      · exact List.mem_cons_of_mem _ (ih (hbest.trans h))
      · rw [Option.some.inj h]
        exact List.mem_cons_self

/-- Take the request that is preempted next out of the running list. -/
def popVictim (s : Scheduler) : Except SchedulerError (String × List String) :=
  match s.config.policy with
  | .priority =>
    match lowestPriority s.requests s.running with
    | none => .error .valueError
    | some id => .ok (id, s.running.erase id)
  | .fcfs =>
    match s.running.getLast? with
    | none => .error .indexError
    | some id => .ok (id, s.running.dropLast)

end Scheduler

/-- A preempted request starts again from its first token. -/
def Request.preempted (r : Request) : Request :=
  { r with status := .preempted, numComputedTokens := 0 }

namespace ScheduleState

/-- Replace the cache manager. -/
def setKv (st : ScheduleState) (kv : Kv.KVCacheManager) : ScheduleState :=
  { st with scheduler := { st.scheduler with kvCacheManager := kv } }

/-- Replace the scheduler. -/
def setScheduler (st : ScheduleState) (s : Scheduler) : ScheduleState :=
  { st with scheduler := s }

/-! ### Running requests -/

def planRunning (st : ScheduleState) (r : Request) : Except SchedulerError (List ℕ × ℤ × ℤ) :=
  if r.hasEncoderInputs then
    st.scheduler.tryScheduleEncoderInputs r r.numComputedTokens
      (st.scheduler.config.numNewTokens r st.tokenBudget) st.encoderBudget
  else .ok ([], st.scheduler.config.numNewTokens r st.tokenBudget, st.encoderBudget)

def afterPreemption (st : ScheduleState) (r : Request) (running : List String)
    (waiting : RequestQueue) (kv : Kv.KVCacheManager) : ScheduleState :=
  { st with
    scheduler := { st.scheduler.setRequest r.preempted with
      running := running
      waiting := waiting
      kvCacheManager := kv }
    preemptedReqs := st.preemptedReqs ++ [r.requestId] }

/-- Preempt one request for another one. Its blocks are freed. -/
def preemptOne (st : ScheduleState) : Except SchedulerError (String × ScheduleState) := do
  let (victim, running) ← st.scheduler.popVictim
  let r ← st.scheduler.request victim
  let kv ← liftKv (st.scheduler.kvCacheManager.free victim)
  let waiting ← st.scheduler.waiting.prependRequest r.preempted
  return (victim, st.afterPreemption r running waiting kv)

/-- Get slots for a running request, and preempt others as long as there are none. No blocks are
returned if the request itself is preempted. Every round but the last removes a running request,
so at most `fuel` rounds fail. -/
def allocateOrPreempt (env : Kv.HashEnv) (r : Request) (numNewTokens : ℤ) :
    ℕ → ScheduleState → Except SchedulerError (ScheduleState × Option (List (List ℕ)))
  | 0, _ => .error .indexError
  | fuel + 1, st => do
    let (kv, newBlocks) ← liftKv (st.scheduler.kvCacheManager.allocateSlotsInt env r.toKv
      numNewTokens 0 st.scheduler.kvCacheManager.createEmptyBlockList
      st.scheduler.config.numLookaheadTokens false)
    match newBlocks with
    | some newBlocks => .ok (st.setKv kv, some newBlocks)
    | none => do
      let (victim, st) ← (st.setKv kv).preemptOne
      if victim = r.requestId then return (st, none)
      else allocateOrPreempt env r numNewTokens fuel st

/-- The number of draft tokens among the tokens that are scheduled. -/
def numScheduledSpecTokens (r : Request) (numNewTokens : ℤ) : ℤ :=
  numNewTokens + r.numComputedTokens - r.numTokens

/-- Draft tokens that are not scheduled are dropped. If none is scheduled, they are all kept. -/
def trimSpec (r : Request) (numNewTokens : ℤ) : Request :=
  if r.specTokenIds ≠ [] ∧ 0 < numScheduledSpecTokens r numNewTokens then
    { r with specTokenIds := r.specTokenIds.take (numScheduledSpecTokens r numNewTokens).toNat }
  else r

/-- Take the slots of the encoder inputs. -/
def allocateEncoderInputs (m : EncoderCacheManager) (r : Request) (inputs : List ℕ) :
    Except SchedulerError EncoderCacheManager :=
  inputs.foldlM (fun m i => m.allocate r i) m

def scheduledRunning (st : ScheduleState) (r : Request) (newBlocks : List (List ℕ))
    (inputs : List ℕ) (numNewTokens newEncoderBudget : ℤ) (encoder : EncoderCacheManager) :
    ScheduleState :=
  { st with
    scheduler := { st.scheduler.setRequest (trimSpec r numNewTokens) with
      encoderCacheManager := encoder }
    scheduledRunningReqs := st.scheduledRunningReqs ++ [r.requestId]
    structuredOutputRequestIds := if r.useStructuredOutput then
        setKey st.structuredOutputRequestIds r.requestId st.reqIndex
      else st.structuredOutputRequestIds
    reqToNewBlockIds := setKey st.reqToNewBlockIds r.requestId newBlocks
    numScheduledTokens := setKey st.numScheduledTokens r.requestId numNewTokens
    tokenBudget := st.tokenBudget - numNewTokens
    reqIndex := st.reqIndex + 1
    scheduledSpecDecodeTokens :=
      if r.specTokenIds ≠ [] ∧ 0 < numScheduledSpecTokens r numNewTokens then
        setKey st.scheduledSpecDecodeTokens r.requestId (trimSpec r numNewTokens).specTokenIds
      else st.scheduledSpecDecodeTokens
    scheduledEncoderInputs := if inputs ≠ [] then
        setKey st.scheduledEncoderInputs r.requestId inputs
      else st.scheduledEncoderInputs
    encoderBudget := if inputs ≠ [] then newEncoderBudget else st.encoderBudget }

def scheduleRunning (st : ScheduleState) (r : Request) (newBlocks : List (List ℕ))
    (inputs : List ℕ) (numNewTokens newEncoderBudget : ℤ) :
    Except SchedulerError ScheduleState := do
  let encoder ← allocateEncoderInputs st.scheduler.encoderCacheManager r inputs
  return st.scheduledRunning r newBlocks inputs numNewTokens newEncoderBudget encoder

/-- One round of the loop over the running requests, and whether the loop goes on. -/
def runningStep (env : Kv.HashEnv) (st : ScheduleState) (id : String) :
    Except SchedulerError (ScheduleState × Bool) := do
  let r ← st.scheduler.request id
  let (inputs, numNewTokens, newEncoderBudget) ← st.planRunning r
  if numNewTokens = 0 then
    -- requests behind this one may still be scheduled
    return ({ st with reqIndex := st.reqIndex + 1 }, true)
  else do
    let (st, newBlocks) ←
      allocateOrPreempt env r numNewTokens (st.scheduler.running.length + 1) st
    match newBlocks with
    | none => .ok (st, false)
    | some newBlocks => do
      return (← st.scheduleRunning r newBlocks inputs numNewTokens newEncoderBudget, true)

/-- The loop over the running requests. The index grows in every round, and the list does not. -/
def runningLoop (env : Kv.HashEnv) : ℕ → ScheduleState → Except SchedulerError ScheduleState
  | 0, st => .ok st
  | fuel + 1, st =>
    if st.tokenBudget ≤ 0 then .ok st
    else
      match st.scheduler.running[st.reqIndex]? with
      | none => .ok st
      | some id => do
        let (st, goOn) ← st.runningStep env id
        if goOn then runningLoop env fuel st else return st

/-- The adapters of the running requests that are scheduled. -/
def recordLoras (st : ScheduleState) : Except SchedulerError ScheduleState :=
  match st.scheduler.config.maxLoras with
  | none => .ok st
  | some maxLoras =>
    let loras := ((st.scheduledRunningReqs.filterMap fun id =>
      (st.scheduler.requests id).bind Request.loraIntId).filter (0 < ·)).toFinset
    if loras.card ≤ maxLoras then .ok { st with scheduledLoras := loras }
    else .error .assertionError

/-! ### Waiting requests -/

/-- The queues after a request was put aside. -/
def putAside (st : ScheduleState) (waiting skipped : RequestQueue) : ScheduleState :=
  { st with
    scheduler := { st.scheduler with waiting := waiting }
    skippedWaitingRequests := skipped }

/-- Put the first waiting request aside. -/
def skip (st : ScheduleState) (r : Request) : Except SchedulerError ScheduleState := do
  let (_, waiting) ← st.scheduler.waiting.popRequest
  let skipped ← st.skippedWaitingRequests.prependRequest r
  return st.putAside waiting skipped

/-- The tokens that count as computed when a load has ended: those of all blocks, but not the last
token. -/
def numLoadedTokens (s : Scheduler) (r : Request) : ℕ :=
  let n := min (((s.kvCacheManager.managers 0).reqToBlocks r.requestId).length *
    s.config.blockSize) r.numTokens
  if n = r.numTokens then n - 1 else n

/-- A request whose blocks were loaded waits like any other one. The connector supports one group
only. -/
def remoteReady (env : Kv.HashEnv) (s : Scheduler) (r : Request) :
    Except SchedulerError (Scheduler × Request) :=
  if s.kvCacheManager.numKvCacheGroups ≠ 1 then .error .valueError
  else do
    let kv ← liftKv (s.kvCacheManager.cacheRequestBlocks env r.toKv (numLoadedTokens s r))
    let r := { r with numComputedTokens := numLoadedTokens s r, status := .waiting }
    return ({ s.setRequest r with
      kvCacheManager := kv
      finishedRecvingKvReqIds := s.finishedRecvingKvReqIds.erase r.requestId }, r)

/-- Whether a request still waits for its blocks. -/
def remoteGate (env : Kv.HashEnv) (s : Scheduler) (r : Request) :
    Except SchedulerError (Scheduler × Request × Bool) :=
  if r.status ≠ .waitingForRemoteKvs then .ok (s, r, true)
  else if s.config.hasConnector = false then .error .assertionError
  else if r.requestId ∉ s.finishedRecvingKvReqIds then .ok (s, r, false)
  else do
    let (s, r) ← remoteReady env s r
    return (s, r, true)

/-- Whether a request still waits for its grammar. -/
def fsmGate (ext : External) (s : Scheduler) (r : Request) : Scheduler × Request × Bool :=
  if r.status ≠ .waitingForFsm then (s, r, true)
  else if ext.grammarReady r.requestId then
    (s.setRequest { r with status := .waiting }, { r with status := .waiting }, true)
  else (s, r, false)

/-- Whether the adapter of a request is in use or fits. -/
def loraGate (st : ScheduleState) (r : Request) : Bool :=
  match st.scheduler.config.maxLoras, r.loraIntId with
  | some maxLoras, some lora => ¬ (st.scheduledLoras.card = maxLoras ∧ lora ∉ st.scheduledLoras)
  | _, _ => true

/-- What is known about the computed tokens of a waiting request: its blocks and tokens in the local
cache, the tokens that the connector offers, and whether it loads them asynchronously. -/
structure ComputedTokens where
  kv : Kv.KVCacheManager
  newComputedBlocks : List (List ℕ)
  numNewLocalComputedTokens : ℕ
  numExternalComputedTokens : ℕ
  loadKvAsync : Bool
  numComputedTokens : ℤ

def findComputedTokens (env : Kv.HashEnv) (ext : External) (s : Scheduler) (r : Request) :
    Except SchedulerError ComputedTokens :=
  if r.numComputedTokens = 0 then do
    let (kv, blocks, numLocal) ← liftKv (s.kvCacheManager.getComputedBlocks env r.toKv)
    let (numExternal, loadKvAsync) :=
      if s.config.hasConnector then ext.getNumNewMatchedTokens r numLocal else (0, false)
    return ⟨kv, blocks, numLocal, numExternal, loadKvAsync, (numLocal + numExternal : ℕ)⟩
  else
    -- after an asynchronous load
    .ok ⟨s.kvCacheManager, s.kvCacheManager.createEmptyBlockList, 0, 0, false,
      r.numComputedTokens⟩

/-- What happens to the first waiting request. -/
inductive WaitingPlan where
  | skip
  | stop
  | schedule (inputs : List ℕ) (numNewTokens newEncoderBudget : ℤ)

def planWaiting (st : ScheduleState) (r : Request) (found : ComputedTokens) :
    Except SchedulerError WaitingPlan :=
  if found.loadKvAsync then
    if 0 < found.numExternalComputedTokens then .ok (.schedule [] 0 st.encoderBudget)
    else .error .assertionError
  else
    let numNewTokens := st.scheduler.config.clipLongPrefill (r.numTokens - found.numComputedTokens)
    if st.scheduler.config.chunkedPrefillEnabled = false ∧ st.tokenBudget < numNewTokens then
      .ok .skip
    else if min numNewTokens st.tokenBudget ≤ 0 then .error .assertionError
    else if r.hasEncoderInputs then
      match st.scheduler.tryScheduleEncoderInputs r found.numComputedTokens
          (min numNewTokens st.tokenBudget) st.encoderBudget with
      | .error e => .error e
      | .ok (inputs, numNewTokens, newEncoderBudget) =>
        if numNewTokens = 0 then .ok .stop
        else .ok (.schedule inputs numNewTokens newEncoderBudget)
    else .ok (.schedule [] (min numNewTokens st.tokenBudget) st.encoderBudget)

/-- The slots are reserved, and the request is put aside until its blocks are loaded. -/
def startRemoteLoad (st : ScheduleState) (r : Request) : Except SchedulerError ScheduleState :=
  (st.setScheduler (st.scheduler.setRequest { r with status := .waitingForRemoteKvs })).skip r

/-- A request that is admitted runs from its first token that is not computed. -/
def startRunning (r : Request) (numComputedTokens : ℤ) : Request :=
  { r with
    status := .running
    numComputedTokens := numComputedTokens
    numCachedTokens := if r.numCachedTokens < 0 then numComputedTokens else r.numCachedTokens }

def admitted (st : ScheduleState) (r : Request) (found : ComputedTokens) (inputs : List ℕ)
    (numNewTokens newEncoderBudget : ℤ) (waiting : RequestQueue) (encoder : EncoderCacheManager) :
    ScheduleState :=
  { st with
    scheduler := { st.scheduler.setRequest (startRunning r found.numComputedTokens) with
      waiting := waiting
      running := st.scheduler.running ++ [r.requestId]
      encoderCacheManager := encoder }
    structuredOutputRequestIds := if r.useStructuredOutput then
        setKey st.structuredOutputRequestIds r.requestId st.reqIndex
      else st.structuredOutputRequestIds
    reqIndex := st.reqIndex + 1
    scheduledNewReqs := if r.status = .waiting then st.scheduledNewReqs ++ [r.requestId]
      else st.scheduledNewReqs
    scheduledResumedReqs := if r.status = .waiting then st.scheduledResumedReqs
      else st.scheduledResumedReqs ++ [r.requestId]
    scheduledLoras := match st.scheduler.config.maxLoras, r.loraIntId with
      | some _, some lora => insert lora st.scheduledLoras
      | _, _ => st.scheduledLoras
    reqToNewBlockIds := setKey st.reqToNewBlockIds r.requestId
      (st.scheduler.kvCacheManager.getBlockIds r.requestId)
    numScheduledTokens := setKey st.numScheduledTokens r.requestId numNewTokens
    tokenBudget := st.tokenBudget - numNewTokens
    scheduledEncoderInputs := if inputs ≠ [] then
        setKey st.scheduledEncoderInputs r.requestId inputs
      else st.scheduledEncoderInputs
    encoderBudget := if inputs ≠ [] then newEncoderBudget else st.encoderBudget }

def admitRequest (st : ScheduleState) (r : Request) (found : ComputedTokens) (inputs : List ℕ)
    (numNewTokens newEncoderBudget : ℤ) : Except SchedulerError ScheduleState := do
  let (_, waiting) ← st.scheduler.waiting.popRequest
  if r.status ≠ .waiting ∧ r.status ≠ .preempted then .error .runtimeError
  else do
    let encoder ← allocateEncoderInputs st.scheduler.encoderCacheManager r inputs
    return st.admitted r found inputs numNewTokens newEncoderBudget waiting encoder

/-- A request without computed tokens gets no slots for draft tokens. -/
def effectiveLookaheadTokens (st : ScheduleState) (r : Request) : ℕ :=
  if r.numComputedTokens = 0 then 0 else st.scheduler.config.numLookaheadTokens

/-- Allocate slots for the first waiting request and admit it, and whether the loop goes on. -/
def tryAdmit (env : Kv.HashEnv) (st : ScheduleState) (r : Request) (found : ComputedTokens)
    (inputs : List ℕ) (numNewTokens newEncoderBudget : ℤ) :
    Except SchedulerError (ScheduleState × Bool) := do
  let (kv, newBlocks) ← liftKv (found.kv.allocateSlotsInt env r.toKv
    (numNewTokens + found.numExternalComputedTokens) found.numNewLocalComputedTokens
    found.newComputedBlocks (st.effectiveLookaheadTokens r) found.loadKvAsync)
  match newBlocks with
  | none => .ok (st.setKv kv, false)
  | some _ =>
    if found.loadKvAsync then do
      return (← (st.setKv kv).startRemoteLoad r, true)
    else do
      return (← (st.setKv kv).admitRequest r found inputs numNewTokens newEncoderBudget, true)

/-- A request that passes the gates is admitted, if there is room for its tokens. -/
def considerWaiting (env : Kv.HashEnv) (ext : External) (st : ScheduleState) (r : Request) :
    Except SchedulerError (ScheduleState × Bool) := do
  let found ← findComputedTokens env ext st.scheduler r
  match ← (st.setKv found.kv).planWaiting r found with
  | .skip => do return (← (st.setKv found.kv).skip r, true)
  | .stop => .ok (st.setKv found.kv, false)
  | .schedule inputs numNewTokens newEncoderBudget =>
    st.tryAdmit env r found inputs numNewTokens newEncoderBudget

/-- A request that the last two gates keep waiting is put aside. -/
def passGates (env : Kv.HashEnv) (ext : External) (st : ScheduleState) (r : Request) :
    Except SchedulerError (ScheduleState × Bool) :=
  let (s, r, isOpen) := fsmGate ext st.scheduler r
  if isOpen && (st.setScheduler s).loraGate r then
    considerWaiting env ext (st.setScheduler s) r
  else do
    return (← (st.setScheduler s).skip r, true)

/-- One round of the loop over the waiting requests, and whether the loop goes on. -/
def waitingStep (env : Kv.HashEnv) (ext : External) (st : ScheduleState) :
    Except SchedulerError (ScheduleState × Bool) := do
  let id ← st.scheduler.waiting.peekRequest
  let r ← st.scheduler.request id
  let (s, r, isOpen) ← remoteGate env st.scheduler r
  if isOpen then passGates env ext (st.setScheduler s) r
  else do
    return (← (st.setScheduler s).skip r, true)

/-- The loop over the waiting requests. A round that goes on takes one request out of the
queue. -/
def waitingLoop (env : Kv.HashEnv) (ext : External) :
    ℕ → ScheduleState → Except SchedulerError ScheduleState
  | 0, st => .ok st
  | fuel + 1, st =>
    if st.scheduler.waiting.ids = [] ∨ st.tokenBudget ≤ 0 then .ok st
    else if st.scheduler.running.length = st.scheduler.config.maxNumRunningReqs then .ok st
    else do
      let (st, goOn) ← st.waitingStep env ext
      if goOn then waitingLoop env ext fuel st else return st

/-- After a preemption no request is admitted. -/
def admitWaiting (env : Kv.HashEnv) (ext : External) (st : ScheduleState) :
    Except SchedulerError ScheduleState :=
  if st.preemptedReqs ≠ [] then .ok st
  else waitingLoop env ext st.scheduler.waiting.ids.length st

/-- The requests that were put aside go back to the queue. -/
def putBack (st : ScheduleState) : Except SchedulerError ScheduleState :=
  if st.skippedWaitingRequests.ids = [] then .ok st
  else do
    let waiting ← st.scheduler.waiting.prependRequests st.skippedWaitingRequests
    return { st with scheduler := { st.scheduler with waiting := waiting } }

/-! ### The output -/

def totalNumScheduledTokens (st : ScheduleState) : ℤ := (st.numScheduledTokens.map Prod.snd).sum

/-- The assertions at the end of a call. -/
def constraintsHold (st : ScheduleState) : Bool :=
  decide (st.totalNumScheduledTokens ≤ st.scheduler.config.maxNumScheduledTokens) &&
    decide (0 ≤ st.tokenBudget) &&
    decide (st.scheduler.running.length ≤ st.scheduler.config.maxNumRunningReqs) &&
    decide (st.scheduledNewReqs.length + st.scheduledResumedReqs.length +
      st.scheduledRunningReqs.length ≤ st.scheduler.running.length)

def checkConstraints (st : ScheduleState) : Except SchedulerError ScheduleState :=
  if st.constraintsHold then .ok st else .error .assertionError

def numCommonPrefixBlocks (s : Scheduler) : List ℕ :=
  match s.running with
  | [] => List.replicate s.kvCacheManager.numKvCacheGroups 0
  | anyRequest :: _ =>
    s.kvCacheManager.getNumCommonPrefixBlocks anyRequest s.running.length

/-- The values of a dictionary under the given keys. -/
def lookupAll {α : Type} (d : List (String × α)) (keys : List String) :
    Except SchedulerError (List α) :=
  keys.mapM fun key =>
    match d.lookup key with
    | none => .error .keyError
    | some value => .ok value

def newRequestData (st : ScheduleState) : Except SchedulerError (List NewRequestData) :=
  st.scheduledNewReqs.mapM fun id => do
    let r ← st.scheduler.request id
    match st.reqToNewBlockIds.lookup id with
    | none => .error .keyError
    | some blockIds =>
      .ok ⟨id, r.promptTokenIds, blockIds, r.numComputedTokens, r.loraIntId⟩

/-- The tokens that are sent back to the first stage of a pipeline. -/
def sentTokenIds (st : ScheduleState) (r : Request) (numScheduled : ℤ) : List ℤ :=
  let numTokens := numScheduled -
    ((st.scheduledSpecDecodeTokens.lookup r.requestId).getD []).length
  (r.allTokenIds.take (r.numComputedTokens + numTokens).toNat).drop r.numComputedTokens.toNat

def makeCachedRequestData (st : ScheduleState) : Except SchedulerError CachedRequestData := do
  let ids := st.scheduledRunningReqs ++ st.scheduledResumedReqs
  let reqs ← ids.mapM st.scheduler.request
  let counts ← lookupAll st.numScheduledTokens ids
  let newBlockIds ← lookupAll st.reqToNewBlockIds ids
  return {
    reqIds := ids
    resumedFromPreemption := st.scheduledRunningReqs.map (fun _ => false) ++
      st.scheduledResumedReqs.map (fun _ => true)
    newTokenIds := if st.scheduler.config.usePp then
        List.zipWith st.sentTokenIds reqs counts
      else if st.scheduler.config.hasConnector then ids.map fun _ => []
      else []
    newBlockIds := newBlockIds
    numComputedTokens := reqs.map Request.numComputedTokens }

def makeOutput (st : ScheduleState) : Except SchedulerError SchedulerOutput := do
  let newReqs ← st.newRequestData
  let cachedReqs ← st.makeCachedRequestData
  return {
    scheduledNewReqs := newReqs
    scheduledCachedReqs := cachedReqs
    numScheduledTokens := st.numScheduledTokens
    totalNumScheduledTokens := st.totalNumScheduledTokens
    scheduledSpecDecodeTokens := st.scheduledSpecDecodeTokens
    scheduledEncoderInputs := st.scheduledEncoderInputs
    numCommonPrefixBlocks := numCommonPrefixBlocks st.scheduler
    finishedReqIds := st.scheduler.finishedReqIds
    freeEncoderInputIds := st.scheduler.encoderCacheManager.getFreedIds.1
    structuredOutputRequestIds := st.structuredOutputRequestIds }

end ScheduleState

namespace Scheduler

/-- Free what the tokens that are counted now have consumed. -/
def consumeEncoderInputs (s : Scheduler) (r : Request) :
    Except SchedulerError EncoderCacheManager :=
  if r.hasEncoderInputs then freeEncoderInputs s.encoderCacheManager r
  else .ok s.encoderCacheManager

/-- Count the scheduled tokens of one request as computed. -/
def advance (s : Scheduler) (entry : String × ℤ) : Except SchedulerError Scheduler := do
  let r ← s.request entry.1
  let r := { r with numComputedTokens := r.numComputedTokens + entry.2 }
  let encoder ← s.consumeEncoderInputs r
  return { s.setRequest r with encoderCacheManager := encoder }

/-- The finished ids are reported once. -/
def updateAfterSchedule (s : Scheduler) (numScheduledTokens : List (String × ℤ)) :
    Except SchedulerError Scheduler := do
  let s ← numScheduledTokens.foldlM advance s
  return { s with finishedReqIds := ∅ }

/-- The local variables at the start of a call. -/
def startSchedule (s : Scheduler) : ScheduleState where
  scheduler := s
  tokenBudget := s.config.maxNumScheduledTokens
  encoderBudget := s.config.maxNumEncoderInputTokens
  skippedWaitingRequests := createRequestQueue s.config.policy

/-- A call up to where its output is made. -/
def scheduleRequests (env : Kv.HashEnv) (ext : External) (s : Scheduler) :
    Except SchedulerError ScheduleState := do
  let st ← s.startSchedule.runningLoop env s.running.length
  let st ← st.recordLoras
  let st ← st.admitWaiting env ext
  let st ← st.putBack
  st.checkConstraints

/-- The scheduler gives out the list of freed encoder inputs with the output. -/
def takeFreedIds (s : Scheduler) : Scheduler :=
  { s with encoderCacheManager := s.encoderCacheManager.getFreedIds.2 }

def schedule (env : Kv.HashEnv) (ext : External) (s : Scheduler) :
    Except SchedulerError (Scheduler × SchedulerOutput) := do
  let st ← s.scheduleRequests env ext
  let output ← st.makeOutput
  let s ← st.scheduler.takeFreedIds.updateAfterSchedule st.numScheduledTokens
  return (s, output)

end Scheduler

end Sched
