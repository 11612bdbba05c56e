import Mosaic.Nixl.Worker
import Mosaic.Nixl.Aggregator
import Mosaic.Transition.Execution

/-!
# A producer engine and its consumers

The scheduler of a producer keeps the blocks of a finished request and registers it with the
metadata of a later step. The workers execute the steps in order, each at its own pace; several
steps may be under way. In every step a worker registers what the metadata says, takes the
notifications that have arrived, and reports what is done. The reports of a step are aggregated when
all workers have made theirs, and then the scheduler frees the blocks.

The consumers of a request are the workers of another engine, which has a multiple of the workers of
the producer. Each of them reads from one producer worker and notifies it once, at any time after
the response to the request was delivered.
-/

namespace Nixl

open Function

open Sched (Request)

/-- What has happened to a request since its blocks are kept, on each of the producer workers. -/
structure Transfer (W : ℕ) where
  /-- How many consumers read from each producer worker. -/
  tpRatio : ℕ := 0
  /-- The ranks of the consumers that have sent their notification. -/
  notified : Finset ℕ := ∅
  /-- How many notifications the worker has taken. -/
  fetched : Fin W → ℕ := fun _ => 0
  /-- How often the worker has reported the request. -/
  reported : Fin W → ℕ := fun _ => 0
  /-- How many of these reports have been aggregated. -/
  aggregated : Fin W → ℕ := fun _ => 0
  /-- How often the scheduler was told. -/
  delivered : ℕ := 0

/-- A producer with `W` workers. -/
structure Producer (W : ℕ) where
  /-- Which workers belong to the last stage of the pipeline. -/
  lastStage : Fin W → Bool
  clock : ℚ := 0
  connector : ConnectorScheduler
  /-- The requests whose blocks are kept. -/
  held : Finset String := ∅
  /-- The steps that a worker has not executed: the metadata and the number of tokens. -/
  pending : Fin W → List (ConnectorMetadata × ℤ) := fun _ => []
  workers : Fin W → ConnectorWorker := fun _ => {}
  /-- The notifications that have arrived and are not taken yet. -/
  inbox : Fin W → List Notification := fun _ => []
  /-- The outputs of executed steps that are not aggregated yet. -/
  outputs : Fin W → List (Option KVConnectorOutput) := fun _ => []
  aggregator : KVOutputAggregator := { worldSize := W }
  /-- Aggregation has raised an exception. -/
  failed : Bool := false
  transfers : String → Transfer W := fun _ => {}

/-- What a worker returns from a step. If it has no transfers to report and either no tokens to
compute or a stage of the pipeline behind it, it is an empty output. -/
def connectorOutput (lastStage : Bool) (totalNumScheduledTokens : ℤ)
    (doneSending doneRecving : Finset String) : Option KVConnectorOutput :=
  if (totalNumScheduledTokens = 0 ∨ lastStage = false) ∧ doneSending = ∅ ∧ doneRecving = ∅ then
    none
  else some { finishedSending := some doneSending, finishedRecving := some doneRecving }

/-- The requests that an output reports as sent. -/
def sentIds (output : Option KVConnectorOutput) : Finset String :=
  (output.bind KVConnectorOutput.finishedSending).getD ∅

namespace Producer

variable {W : ℕ}

/-- A producer before anything happened. -/
def new (c : ConnectorScheduler) (lastStage : Fin W → Bool) : Producer W where
  lastStage := lastStage
  connector := { c with reqsNeedRecv := [], reqsNeedSave := [], reqsNeedSend := [] }

/-- What happens in a run. -/
inductive Event (W : ℕ) where
  /-- Time passes. -/
  | time (elapsed : ℚ)
  /-- The scheduler finishes a request, of which a consumer engine with so many workers for each
  worker of the producer will read the blocks. -/
  | finish (r : Request) (params : Option KvTransferParams) (blockIds : List ℕ) (tpRatio : ℕ)
  /-- A request is given blocks. -/
  | alloc (requestId : String) (numTokens : ℕ) (params : Option KvTransferParams)
      (blockIds unhashedBlockIds : List ℕ) (numExternalTokens : ℕ)
  /-- A step goes to the workers. -/
  | dispatch (totalNumScheduledTokens : ℤ)
  /-- A step without tokens is not executed if steps are queued. -/
  | skip
  /-- A consumer worker is done reading. -/
  | notify (requestId : String) (rank : ℕ)
  /-- A worker executes its next step. It takes the notifications in some order, and the reads of
  its own that are done are given. -/
  | execute (w : Fin W) (notifs : List Notification) (doneRecving : Finset String)
  /-- The outputs of the oldest step are aggregated. -/
  | aggregate

def finish (p : Producer W) (r : Request) (params : Option KvTransferParams) (blockIds : List ℕ)
    (tpRatio : ℕ) : Producer W :=
  let finished := p.connector.requestFinished r params blockIds p.clock
  if finished.delayFreeBlocks then { p with
    connector := finished.connector
    held := insert r.requestId p.held
    transfers := update p.transfers r.requestId { tpRatio := tpRatio } }
  else { p with connector := finished.connector }

def dispatch (p : Producer W) (tokens : ℤ) (m : ConnectorMetadata) (c : ConnectorScheduler) :
    Producer W :=
  { p with connector := c, pending := fun w => p.pending w ++ [(m, tokens)] }

/-- The notification goes to the worker that the consumer reads from. -/
def notify (p : Producer W) (requestId : String) (rank : ℕ) : Producer W :=
  let t := p.transfers requestId
  { p with
    inbox := fun w =>
      if rank / t.tpRatio = w then p.inbox w ++ [⟨requestId, t.tpRatio⟩] else p.inbox w
    transfers := update p.transfers requestId
      { t with notified := insert rank t.notified } }

/-- A worker executes a step. -/
def execute (p : Producer W) (w : Fin W) (m : ConnectorMetadata) (tokens : ℤ)
    (rest : List (ConnectorMetadata × ℤ)) (notifs : List Notification)
    (doneRecving : Finset String) : Producer W :=
  let st := ((p.workers w).startLoadKv m).getFinished notifs p.clock
  { p with
    pending := update p.pending w rest
    workers := update p.workers w st.1
    inbox := update p.inbox w []
    outputs := update p.outputs w
      (p.outputs w ++ [connectorOutput (p.lastStage w) tokens st.2 doneRecving])
    transfers := fun id =>
      let t := p.transfers id
      { t with
        fetched := update t.fetched w
          (t.fetched w + notifs.countP (·.requestId = id))
        reported := update t.reported w
          (t.reported w + if id ∈ st.2 then 1 else 0) } }

/-- The output of the oldest step that a worker has executed. -/
def oldest (p : Producer W) (w : Fin W) : Option KVConnectorOutput := (p.outputs w).headD none

def aggregate (p : Producer W) : Producer W :=
  match p.aggregator.aggregate (List.ofFn p.oldest) with
  | .error _ => { p with failed := true }
  | .ok (aggregator, output) =>
    let sent := output.finishedSending.getD ∅
    { p with
      aggregator := aggregator
      held := p.held \ sent
      outputs := fun w => (p.outputs w).tail
      transfers := fun id =>
        let t := p.transfers id
        { t with
          aggregated := fun w => t.aggregated w + if id ∈ sentIds (p.oldest w) then 1 else 0
          delivered := t.delivered + if id ∈ sent then 1 else 0 } }

/-- The state after an event, if it is possible. An id is not used again while blocks are kept for
it. The engine queues the steps of a pipeline, and of those it executes none without tokens. -/
def act (p : Producer W) : Event W → Option (Producer W)
  | .time elapsed => if 0 ≤ elapsed then some { p with clock := p.clock + elapsed } else none
  | .finish r params blockIds tpRatio =>
    if r.requestId ∈ p.held ∨ tpRatio = 0 then none
    else some (p.finish r params blockIds tpRatio)
  | .alloc requestId numTokens params blockIds unhashedBlockIds numExternalTokens =>
    match p.connector.updateStateAfterAlloc requestId numTokens params blockIds unhashedBlockIds
      numExternalTokens with
    | .error _ => none
    | .ok (c, _) => some { p with connector := c }
  | .dispatch tokens =>
    if tokens = 0 ∧ ∃ w, p.lastStage w = false then none else
    match p.connector.buildConnectorMeta with
    | .error _ => none
    | .ok (m, c) => some (p.dispatch tokens m c)
  | .skip =>
    match p.connector.buildConnectorMeta with
    | .error _ => none
    | .ok (_, c) => some { p with connector := c }
  | .notify requestId rank =>
    if rank < (p.transfers requestId).tpRatio * W ∧ rank ∉ (p.transfers requestId).notified then
      some (p.notify requestId rank)
    else none
  | .execute w notifs doneRecving =>
    match p.pending w with
    | [] => none
    | (m, tokens) :: rest =>
      if notifs.Perm (p.inbox w) then some (p.execute w m tokens rest notifs doneRecving)
      else none
  | .aggregate => if ∀ w, p.outputs w ≠ [] then some p.aggregate else none

/-- Nothing happens after an exception. -/
def next (p : Producer W) (event : Event W) : Option (Producer W) :=
  if p.failed then none else p.act event

/-- The steps of a producer. -/
def Step (p : Producer W) (event : Event W) (q : Producer W) : Prop := p.next event = some q

/-- What the worker knows when it takes notifications, after the registrations of its next step. -/
def loaded (p : Producer W) (w : Fin W) : ConnectorWorker :=
  match p.pending w with
  | [] => p.workers w
  | (m, _) :: _ => (p.workers w).startLoadKv m

/-- When a worker executes a step, the request has not expired. -/
def Unexpired (requestId : String) (p : Producer W) : Event W → Prop
  | .execute w _ _ => (p.loaded w).Unexpired p.clock requestId
  | _ => True

/-- No worker takes a notification for a request that it has not registered, and no worker returns
an empty output. -/
def Orderly (requestId : String) (p : Producer W) : Event W → Prop
  | .execute w notifs _ =>
      (∃ n ∈ notifs, n.requestId = requestId) → (p.loaded w).Registered requestId
  | .aggregate => ∀ w, (p.oldest w).isSome
  | _ => True

instance (requestId : String) (p : Producer W) : DecidablePred (Unexpired requestId p)
  | .execute w _ _ => inferInstanceAs (Decidable ((p.loaded w).Unexpired p.clock requestId))
  | .time _ | .finish .. | .alloc .. | .dispatch _ | .skip | .notify .. | .aggregate =>
    .isTrue trivial

instance (requestId : String) (p : Producer W) : DecidablePred (Orderly requestId p)
  | .execute w notifs _ => inferInstanceAs (Decidable
      ((∃ n ∈ notifs, n.requestId = requestId) → (p.loaded w).Registered requestId))
  | .aggregate => inferInstanceAs (Decidable (∀ w, ((p.oldest w).isSome : Prop)))
  | .time _ | .finish .. | .alloc .. | .dispatch _ | .skip | .notify .. => .isTrue trivial

/-- The consumers that read from a worker. -/
def consumers (t : Transfer W) (w : Fin W) : Finset ℕ :=
  (Finset.range (t.tpRatio * W)).filter fun rank => rank / t.tpRatio = w

/-- How many notifications for a request wait for a worker. -/
def waitingNotifs (p : Producer W) (requestId : String) (w : Fin W) : ℕ :=
  (p.inbox w).countP (·.requestId = requestId)

/-- A request whose blocks are kept is released when, and only when, all consumers are done. -/
structure ReleasedOnce (p : Producer W) (requestId : String) : Prop where
  alive : p.failed = false
  /-- Every worker reports the request once, when all its consumers have notified it. -/
  once : ∀ w, (p.transfers requestId).reported w =
    if consumers (p.transfers requestId) w ⊆ (p.transfers requestId).notified ∧
      p.waitingNotifs requestId w = 0 then 1 else 0
  /-- Until then no notification is lost. -/
  counted : ∀ w, (p.transfers requestId).reported w = 0 →
    (p.workers w).consumerNotificationCountsByReq requestId + p.waitingNotifs requestId w =
      (consumers (p.transfers requestId) w ∩ (p.transfers requestId).notified).card
  /-- The scheduler is told once, when the reports of all workers are aggregated. -/
  told : (p.transfers requestId).delivered =
    if ∀ w, (p.transfers requestId).aggregated w = 1 then 1 else 0
  aggregated : ∀ w, (p.transfers requestId).reported w =
    (p.transfers requestId).aggregated w +
      (p.outputs w).countP fun output => requestId ∈ sentIds output

end Producer

end Nixl
