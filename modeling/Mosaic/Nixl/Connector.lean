import Mosaic.Sched.Schedule

/-!
# The scheduler side of the NIXL connector

With this connector the prompt of a request is computed by one engine, the producer, and its cached
blocks are read by another one, the consumer. The side of it that lives in the scheduler process
decides which requests load their blocks from a producer, and whether the blocks of a finished
request are kept until a consumer has read them. What the workers have to do is collected and goes
to them with the next step.
-/

namespace Nixl

open Sched (Request setKey)

inductive ConnectorError where
  | assertionError
  | attributeError
  | keyError
  | runtimeError
  deriving DecidableEq

/-- The transfer parameters of a request. A key may be missing, and its value may be null. -/
structure KvTransferParams where
  doRemotePrefill : Bool := false
  doRemoteDecode : Bool := false
  remoteBlockIds : Option (Option (List ℕ)) := none
  remoteEngineId : Option (Option String) := none
  remoteHost : Option (Option String) := none
  remotePort : Option (Option ℕ) := none
  tpSize : Option ℕ := none
  deriving DecidableEq

structure ReqMeta where
  localBlockIds : List ℕ
  remoteBlockIds : Option (List ℕ)
  remoteHost : Option String
  remotePort : Option ℕ
  remoteEngineId : Option String
  tpSize : ℕ
  deriving DecidableEq

/-- What the workers have to do, by request. Requests to send come with the time at which they
expire. -/
structure ConnectorMetadata where
  reqsToRecv : List (String × ReqMeta) := []
  reqsToSave : List (String × ReqMeta) := []
  reqsToSend : List (String × ℚ) := []
  deriving DecidableEq

namespace ConnectorMetadata

def addNewReq (m : ConnectorMetadata) (requestId : String) (localBlockIds : List ℕ)
    (params : KvTransferParams) (loadRemoteCache saveToHost : Bool) :
    Except ConnectorError ConnectorMetadata :=
  if loadRemoteCache = saveToHost then .error .assertionError
  else
    match params.remoteBlockIds, params.remoteEngineId, params.remoteHost, params.remotePort with
    | some remoteBlockIds, some remoteEngineId, some remoteHost, some remotePort =>
      let req : ReqMeta :=
        { localBlockIds, remoteBlockIds, remoteHost, remotePort, remoteEngineId
          tpSize := params.tpSize.getD 1 }
      if saveToHost then .ok { m with reqsToSave := setKey m.reqsToSave requestId req }
      else .ok { m with reqsToRecv := setKey m.reqsToRecv requestId req }
    | _, _, _, _ => .error .keyError

end ConnectorMetadata

/-- The state of the connector in the scheduler process. The three collections hold what goes to
the workers with the next step. -/
structure ConnectorScheduler where
  blockSize : ℕ
  engineId : String
  sideChannelHost : String
  sideChannelPort : ℕ
  tensorParallelSize : ℕ
  useHostBuffer : Bool := false
  /-- How long the blocks of a finished request are kept for a consumer. -/
  abortRequestTimeout : ℚ
  reqsNeedRecv : List (String × KvTransferParams × List ℕ) := []
  reqsNeedSave : List (String × KvTransferParams × List ℕ) := []
  reqsNeedSend : List (String × ℚ) := []

namespace ConnectorScheduler

/-- Told of the blocks that a scheduled request has. The transfer of a request is started once. -/
def updateStateAfterAlloc (c : ConnectorScheduler) (requestId : String) (numTokens : ℕ)
    (params : Option KvTransferParams) (blockIds unhashedBlockIds : List ℕ)
    (numExternalTokens : ℕ) :
    Except ConnectorError (ConnectorScheduler × Option KvTransferParams) :=
  match params with
  | none => .ok (c, params)
  | some p =>
    if c.useHostBuffer && p.doRemoteDecode then
      let fullBlockIds := if numTokens % c.blockSize = 0 then blockIds else blockIds.dropLast
      if fullBlockIds = [] then .ok (c, params)
      else
        .ok ({ c with reqsNeedSave := setKey c.reqsNeedSave requestId (p, fullBlockIds) }, params)
    else if p.doRemotePrefill then
      let started := some { p with doRemotePrefill := false }
      if (p.remoteBlockIds.getD none).getD [] ≠ [] then
        if p.remoteEngineId.isSome && p.remoteHost.isSome && p.remotePort.isSome then
          -- without tokens to load, the producer is still told that its blocks are not needed
          let localBlockIds := if 0 < numExternalTokens then unhashedBlockIds else []
          .ok ({ c with reqsNeedRecv := setKey c.reqsNeedRecv requestId (p, localBlockIds) },
            started)
        else .ok (c, started)
      else if numExternalTokens ≠ 0 then .error .assertionError
      else .ok (c, started)
    else .ok (c, params)

/-- Hand over what was collected. -/
def buildConnectorMeta (c : ConnectorScheduler) :
    Except ConnectorError (ConnectorMetadata × ConnectorScheduler) := do
  let recv ← c.reqsNeedRecv.foldlM (fun (m : ConnectorMetadata) entry =>
    m.addNewReq entry.1 entry.2.2 entry.2.1 true false) {}
  let all ← c.reqsNeedSave.foldlM (fun (m : ConnectorMetadata) entry =>
    m.addNewReq entry.1 entry.2.2 entry.2.1 false true) recv
  return ({ all with reqsToSend := c.reqsNeedSend },
    { c with reqsNeedRecv := [], reqsNeedSave := [], reqsNeedSend := [] })

/-- The blocks of a request that are full. -/
def computedBlockIds (c : ConnectorScheduler) (r : Request) (blockIds : List ℕ) : List ℕ :=
  if r.numComputedTokens % c.blockSize = 0 then blockIds else blockIds.dropLast

/-- What is said about a finished request: whether its blocks are kept, what the response tells the
consumer, and the new state. -/
structure Finished where
  delayFreeBlocks : Bool
  response : Option KvTransferParams
  params : Option KvTransferParams
  connector : ConnectorScheduler

/-- Decide what happens to the blocks of a finished request, given the reading of the clock. -/
def requestFinished (c : ConnectorScheduler) (r : Request) (params : Option KvTransferParams)
    (blockIds : List ℕ) (now : ℚ) : Finished :=
  match params with
  | none => ⟨false, none, params, c⟩
  | some p =>
    if p.doRemotePrefill then
      -- the request was never scheduled, so the producer is told that its blocks are not needed
      ⟨false, none, some { p with doRemotePrefill := false },
        { c with reqsNeedRecv := setKey c.reqsNeedRecv r.requestId (p, []) }⟩
    else if p.doRemoteDecode = false ∨ r.status ≠ .finishedLengthCapped then
      ⟨false, none, params, c⟩
    else
      let response : KvTransferParams :=
        { doRemotePrefill := true
          doRemoteDecode := false
          remoteBlockIds := some (some (c.computedBlockIds r blockIds))
          remoteEngineId := some (some c.engineId)
          remoteHost := some (some c.sideChannelHost)
          remotePort := some (some c.sideChannelPort)
          tpSize := some c.tensorParallelSize }
      if c.computedBlockIds r blockIds = [] then ⟨false, some response, params, c⟩
      else ⟨true, some response, params,
        { c with
          reqsNeedSend := setKey c.reqsNeedSend r.requestId (now + c.abortRequestTimeout) }⟩

variable {c c' : ConnectorScheduler} {r : Request} {params : Option KvTransferParams}
  {blockIds : List ℕ} {now : ℚ} {m : ConnectorMetadata}

/-- Nothing is registered to be sent when blocks are allocated. -/
theorem reqsNeedSend_updateStateAfterAlloc {requestId : String} {n numExternalTokens : ℕ}
    {unhashedBlockIds : List ℕ} {params' : Option KvTransferParams}
    (hok : c.updateStateAfterAlloc requestId n params blockIds unhashedBlockIds numExternalTokens =
      .ok (c', params')) : c'.reqsNeedSend = c.reqsNeedSend := by
  unfold updateStateAfterAlloc at hok
  split at hok
  · cases hok
    rfl
  · dsimp only at hok
    split_ifs at hok <;> cases hok <;> rfl

/-- Blocks are kept for a consumer, or nothing is registered to be sent. -/
theorem requestFinished_cases (c : ConnectorScheduler) (r : Request)
    (params : Option KvTransferParams) (blockIds : List ℕ) (now : ℚ) :
    ((c.requestFinished r params blockIds now).delayFreeBlocks = true ∧
      (c.requestFinished r params blockIds now).connector = { c with
        reqsNeedSend := setKey c.reqsNeedSend r.requestId (now + c.abortRequestTimeout) }) ∨
    ((c.requestFinished r params blockIds now).delayFreeBlocks = false ∧
      (c.requestFinished r params blockIds now).connector = { c with
        reqsNeedRecv := (c.requestFinished r params blockIds now).connector.reqsNeedRecv }) := by
  unfold requestFinished
  split
  · exact .inr ⟨rfl, rfl⟩
  · split
    · exact .inr ⟨rfl, rfl⟩
    · split
      · exact .inr ⟨rfl, rfl⟩
      · dsimp only
        split
        · exact .inr ⟨rfl, rfl⟩
        · exact .inl ⟨rfl, rfl⟩

/-- What was collected goes with the step, and nothing of it stays. -/
theorem reqsToSend_buildConnectorMeta (hok : c.buildConnectorMeta = .ok (m, c')) :
    m.reqsToSend = c.reqsNeedSend ∧
      c' = { c with reqsNeedRecv := [], reqsNeedSave := [], reqsNeedSend := [] } := by
  obtain ⟨_, -, hok⟩ := Fallible.bind_eq_ok.mp hok
  obtain ⟨_, -, hok⟩ := Fallible.bind_eq_ok.mp hok
  cases hok
  exact ⟨rfl, rfl⟩

end ConnectorScheduler

end Nixl
