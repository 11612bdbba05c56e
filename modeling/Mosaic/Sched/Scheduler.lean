import Mosaic.Sched.EncoderCache
import Mosaic.Sched.RequestQueue
import Mathlib.Data.List.Dedup
import Mathlib.Algebra.Order.Ring.Rat

/-!
# The state of the token scheduler

The scheduler knows its requests by their ids. Some of them run, the others wait in a queue, and
the cache manager holds blocks for them.
-/

namespace Kv.KVCacheManager

/-- Slots for a number of tokens that may be below zero. Only the test for zero depends on the
sign, so a negative count asks for fewer slots than the computed tokens take. -/
def allocateSlotsInt (env : HashEnv) (s : KVCacheManager) (r : Request) (numNewTokens : ℤ)
    (numNewComputedTokens : ℕ) (newComputedBlocks : List (List ℕ)) (numLookaheadTokens : ℕ)
    (delayCacheBlocks : Bool) : Except KvError (KVCacheManager × Option (List (List ℕ))) :=
  if 0 ≤ numNewTokens then
    s.allocateSlots env r numNewTokens.toNat numNewComputedTokens newComputedBlocks
      numLookaheadTokens delayCacheBlocks
  else do
    let s ← s.removeSkippedBlocks r.requestId r.numComputedTokens
    let numTokens : ℤ := (r.numComputedTokens + numNewComputedTokens : ℕ) + numNewTokens
    let numTokensNeedSlot := min (numTokens + numLookaheadTokens).toNat s.maxModelLen
    let numBlocksToAllocate :=
      s.getNumBlocksToAllocate r.requestId numTokensNeedSlot newComputedBlocks
    if s.blockPool.getNumFreeBlocks < numBlocksToAllocate then return (s, none)
    let s ← s.takeComputedBlocks r.requestId newComputedBlocks
    let (s, newBlocks) ← s.allocateNewBlocks r.requestId numTokensNeedSlot
    if !s.enableCaching || delayCacheBlocks then return (s, some newBlocks)
    let s ← s.cacheBlocks env r (min numTokens.toNat r.numTokens)
    return (s, some newBlocks)

/-- The blocks of a request in each group. -/
def getBlockIds (s : KVCacheManager) (requestId : String) : List (List ℕ) :=
  (List.range s.numKvCacheGroups).map fun g => (s.managers g).reqToBlocks requestId

end Kv.KVCacheManager

namespace Sched

/-- Exceptions of the cache manager pass through the scheduler. -/
def liftKv {α : Type} (x : Except Kv.KvError α) : Except SchedulerError α := x.mapError .kv

theorem liftKv_eq_ok {α : Type} {x : Except Kv.KvError α} {a : α} :
    liftKv x = .ok a ↔ x = .ok a := by
  cases x <;> simp [liftKv, Except.mapError]

/-- The limits of the scheduler, and which parts of it are there. -/
structure SchedulerConfig where
  policy : SchedulingPolicy := .fcfs
  maxNumRunningReqs : ℕ
  maxNumScheduledTokens : ℕ
  maxModelLen : ℕ
  longPrefillTokenThreshold : ℤ := 0
  chunkedPrefillEnabled : Bool := true
  disableChunkedMmInput : Bool := false
  maxLoras : Option ℕ := none
  hasConnector : Bool := false
  usePp : Bool := false
  blockSize : ℕ
  numLookaheadTokens : ℕ := 0
  maxNumEncoderInputTokens : ℕ := 0

/-- What a call of `schedule` asks others: whether a grammar is compiled, and how many tokens the
connector could load for a request, and if it does so asynchronously. -/
structure External where
  grammarReady : String → Bool := fun _ => true
  getNumNewMatchedTokens : Request → ℕ → ℕ × Bool := fun _ _ => (0, false)

structure Scheduler where
  config : SchedulerConfig
  requests : String → Option Request
  waiting : RequestQueue
  running : List String
  finishedReqIds : Finset String
  finishedRecvingKvReqIds : Finset String
  encoderCacheManager : EncoderCacheManager
  kvCacheManager : Kv.KVCacheManager

namespace Scheduler

def new (config : SchedulerConfig) (encoderCacheSize : ℕ) (kvCacheManager : Kv.KVCacheManager) :
    Scheduler where
  config := config
  requests := fun _ => none
  waiting := createRequestQueue config.policy
  running := []
  finishedReqIds := ∅
  finishedRecvingKvReqIds := ∅
  encoderCacheManager := .new encoderCacheSize
  kvCacheManager := kvCacheManager

/-- The request with an id. Queues hold ids of known requests only. -/
def request (s : Scheduler) (requestId : String) : Except SchedulerError Request :=
  match s.requests requestId with
  | none => .error .keyError
  | some r => .ok r

def setRequest (s : Scheduler) (r : Request) : Scheduler :=
  { s with requests := Function.update s.requests r.requestId (some r) }

theorem request_eq_ok {s : Scheduler} {id : String} {r : Request} :
    s.request id = .ok r ↔ s.requests id = some r := by
  unfold request
  cases s.requests id <;> simp

/-! ### Encoder inputs -/

/-- The loop over the items of a request: which of them are scheduled, how many tokens are left to
schedule, and the budget. -/
def encoderLoop (s : Scheduler) (r : Request) (numComputedTokens : ℤ) :
    List (Kv.PlaceholderRange × ℕ) → List ℕ → ℤ → ℤ → Except SchedulerError (List ℕ × ℤ × ℤ)
  | [], inputs, numNewTokens, budget => .ok (inputs, numNewTokens, budget)
  | (pos, i) :: rest, inputs, numNewTokens, budget =>
    if numComputedTokens + numNewTokens ≤ pos.offset then .ok (inputs, numNewTokens, budget)
    else if ((pos.offset + pos.length : ℕ) : ℤ) ≤ numComputedTokens then
      s.encoderLoop r numComputedTokens rest inputs numNewTokens budget
    else if s.encoderCacheManager.hasCache r i then
      s.encoderLoop r numComputedTokens rest inputs numNewTokens budget
    else if s.config.disableChunkedMmInput ∧ numComputedTokens < pos.offset ∧
        numComputedTokens + numNewTokens < (pos.offset + pos.length : ℕ) then
      -- an item is not cut, so the request stops in front of it
      .ok (inputs, pos.offset - numComputedTokens, budget)
    else
      match s.encoderCacheManager.canAllocate r i with
      | .error e => .error e
      | .ok fits =>
        if fits = false ∨ budget < pos.length then
          if numComputedTokens < pos.offset then
            .ok (inputs, pos.offset - numComputedTokens, budget)
          else .ok (inputs, 0, budget)
        else
          -- the slots are not taken before the request is scheduled
          s.encoderLoop r numComputedTokens rest (inputs ++ [i]) numNewTokens
            (budget - pos.length)

def tryScheduleEncoderInputs (s : Scheduler) (r : Request)
    (numComputedTokens numNewTokens encoderBudget : ℤ) :
    Except SchedulerError (List ℕ × ℤ × ℤ) :=
  if numNewTokens = 0 ∨ r.hasEncoderInputs = false then .ok ([], numNewTokens, encoderBudget)
  else s.encoderLoop r numComputedTokens r.mmPositions.zipIdx [] numNewTokens encoderBudget

/-- Free the items that the decoder has consumed. -/
def freeEncoderInputs (m : EncoderCacheManager) (r : Request) :
    Except SchedulerError EncoderCacheManager :=
  (m.getCachedInputIds r).foldlM (fun m inputId =>
    match r.mmPositions[inputId]? with
    | none => .error .indexError
    | some pos =>
      if ((pos.offset + pos.length : ℕ) : ℤ) ≤ r.numComputedTokens then
        m.freeEncoderInput r inputId
      else .ok m) m

/-! ### Requests come and go -/

def addRequest (s : Scheduler) (r : Request) : Except SchedulerError Scheduler := do
  let waiting ← s.waiting.addRequest r
  return { s.setRequest r with waiting := waiting }

def freeBlocks (s : Scheduler) (r : Request) : Except SchedulerError Scheduler :=
  if r.isFinished = false then .error .assertionError
  else do
    let kv ← liftKv (s.kvCacheManager.free r.requestId)
    return { s with
      kvCacheManager := kv.freeBlockHashes r.requestId
      requests := Function.update s.requests r.requestId none }

/-- With a connector, the blocks may be kept until they are sent. -/
def freeRequest (s : Scheduler) (r : Request) (delayFreeBlocks : Bool) :
    Except SchedulerError Scheduler :=
  if r.isFinished = false then .error .assertionError
  else do
    let encoder ← s.encoderCacheManager.free r
    let s := { s with
      encoderCacheManager := encoder
      finishedReqIds := insert r.requestId s.finishedReqIds }
    if s.config.hasConnector && delayFreeBlocks then .ok s else s.freeBlocks r

/-- Take one request out of the running list. -/
def removeRunning (running : List String) (requestId : String) :
    Except SchedulerError (List String) :=
  if requestId ∈ running then .ok (running.erase requestId) else .error .valueError

/-- A queue is rebuilt only if something is removed from it. -/
def removeWaiting (waiting : RequestQueue) (requestIds : List String) :
    Except SchedulerError RequestQueue :=
  if requestIds = [] then .ok waiting else waiting.removeRequests requestIds

/-- The second pass over the requests that are finished from outside. -/
def finishRequest (finishedStatus : RequestStatus) (delayFreeBlocks : String → Bool)
    (s : Scheduler) (r : Request) : Except SchedulerError Scheduler :=
  let r := { r with status := finishedStatus }
  (s.setRequest r).freeRequest r (delayFreeBlocks r.requestId)

/-- The requests are given as a set, in the order in which it is walked. -/
def finishRequests (s : Scheduler) (requestIds : List String) (finishedStatus : RequestStatus)
    (delayFreeBlocks : String → Bool) : Except SchedulerError Scheduler :=
  if finishedStatus.isFinished = false then .error .assertionError
  else do
    let valid := requestIds.dedup.filterMap s.requests
    let running ← (valid.filter (·.status = .running)).foldlM
      (fun running r => removeRunning running r.requestId) s.running
    let waiting ← removeWaiting s.waiting
      ((valid.filter (·.status ≠ .running)).map Request.requestId)
    valid.foldlM (finishRequest finishedStatus delayFreeBlocks)
      { s with running := running, waiting := waiting }

def resetPrefixCache (s : Scheduler) : Bool × Scheduler :=
  (s.kvCacheManager.resetPrefixCache.1,
    { s with kvCacheManager := s.kvCacheManager.resetPrefixCache.2 })

variable {s s' : Scheduler} {r : Request} {delayFreeBlocks : Bool}

theorem freeBlocks_eq_ok (hok : s.freeBlocks r = .ok s') :
    r.isFinished = true ∧ ∃ kv, s.kvCacheManager.free r.requestId = .ok kv ∧
      s' = { s with
        kvCacheManager := kv.freeBlockHashes r.requestId
        requests := Function.update s.requests r.requestId none } := by
  unfold freeBlocks at hok
  split at hok
  · cases hok
  · rename_i hfin
    obtain ⟨kv, hkv, hok⟩ := Fallible.bind_eq_ok.mp hok
    refine ⟨by simpa using hfin, kv, liftKv_eq_ok.mp hkv, (Except.ok.inj hok).symm⟩

/-- Only finished requests are freed. -/
theorem freeRequest_eq_ok (hok : s.freeRequest r delayFreeBlocks = .ok s') :
    r.isFinished = true ∧ ∃ encoder, s.encoderCacheManager.free r = .ok encoder ∧
      let s₁ := { s with
        encoderCacheManager := encoder
        finishedReqIds := insert r.requestId s.finishedReqIds }
      (s' = s₁ ∧ s.config.hasConnector = true ∧ delayFreeBlocks = true) ∨
        s₁.freeBlocks r = .ok s' := by
  unfold freeRequest at hok
  split at hok
  · cases hok
  · rename_i hfin
    obtain ⟨encoder, henc, hok⟩ := Fallible.bind_eq_ok.mp hok
    refine ⟨by simpa using hfin, encoder, henc, ?_⟩
    dsimp only at hok ⊢
    split at hok
    · rename_i hdelay
      rw [Bool.and_eq_true] at hdelay
      exact .inl ⟨(Except.ok.inj hok).symm, hdelay⟩
    · exact .inr hok

end Scheduler

end Sched
