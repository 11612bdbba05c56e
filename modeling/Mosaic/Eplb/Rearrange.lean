import Mosaic.Control.Fallible
import Mathlib.Data.List.Sort
import Mathlib.Logic.Function.Basic

/-!
# Rearranging the experts of a layer

The experts of a layer are placed in the slots of several ranks. Every rank knows which expert is
in each slot before and after a rearrangement, and decides by itself what it copies, what it sends
to which rank, and what it receives from which rank. The ranks then exchange the weights.
-/

namespace Eplb

/-- What can go wrong. The last one is a rank that waits for a transfer that has no other side. -/
inductive Fault where
  | indexError
  | valueError
  | keyError
  | zeroDivisionError
  | hang
  deriving DecidableEq, Repr

def idxLocalToGlobal (localIdx localCnt epRank : ℕ) : ℕ := epRank * localCnt + localIdx

def globalIdxToRank (globalIdx localCnt : ℕ) : ℕ := globalIdx / localCnt

/-- The logical experts in the physical slots of all ranks. A slot with `-1` is empty. -/
structure ExpertMaps where
  numRanks : ℕ
  numLocalExperts : ℕ
  oldIndices : List ℤ
  newIndices : List ℤ
  old_length : oldIndices.length = numRanks * numLocalExperts
  new_length : newIndices.length = numRanks * numLocalExperts

namespace ExpertMaps

/-- The expert in a slot of a rank before the rearrangement. -/
def old (m : ExpertMaps) (rank slot : ℕ) : ℤ :=
  m.oldIndices.getD (idxLocalToGlobal slot m.numLocalExperts rank) (-1)

/-- The expert in a slot of a rank after the rearrangement. -/
def new (m : ExpertMaps) (rank slot : ℕ) : ℤ :=
  m.newIndices.getD (idxLocalToGlobal slot m.numLocalExperts rank) (-1)

end ExpertMaps

/-- The ranks that have expert `idx` in one of their slots. -/
def ranksWith (idx : ℤ) (numLocalExperts : ℕ) (indices : List ℤ) : List ℕ :=
  indices.zipIdx.foldl (fun ranks (e, i) =>
    if e = idx then
      let rank := globalIdxToRank i numLocalExperts
      if ranks.getLast? = some rank then ranks else ranks ++ [rank]
    else ranks) []

/-- The ranks that can send an expert, and the ranks that have to receive it. -/
def getEpRanksWithExpert (idx : ℤ) (numLocalExperts : ℕ) (oldIndices newIndices : List ℤ) :
    List ℕ × List ℕ :=
  let ranksToSend := ranksWith idx numLocalExperts oldIndices
  let ranksToRecv := ranksWith idx numLocalExperts newIndices
  (ranksToSend, ranksToRecv.filter fun rank => rank ∉ ranksToSend)

/-! ### Operations of the language -/

def floorDiv (a b : ℕ) : Except Fault ℕ :=
  if b = 0 then .error .zeroDivisionError else .ok (a / b)

def indexOf (l : List ℕ) (x : ℕ) : Except Fault ℕ :=
  match l.idxOf? x with
  | none => .error .valueError
  | some i => .ok i

def getItem (l : List ℕ) (i : ℕ) : Except Fault ℕ :=
  match l[i]? with
  | none => .error .indexError
  | some x => .ok x

/-! ### What a rank does by itself -/

/-- The values of a layer on one rank, by tensor and slot. -/
abbrev Weights (ω : Type) := ℕ → ℕ → ω

variable {ω : Type}

/-- Copy a slot of every tensor: `target[dst].copy_(source[src])`. -/
def copySlot (numTensors : ℕ) (target : Weights ω) (dst : ℕ) (source : Weights ω) (src : ℕ) :
    Weights ω :=
  fun tensor slot =>
    if tensor < numTensors ∧ slot = dst then source tensor src else target tensor slot

/-- The slots that are served on their own rank, and the buffer with their weights. -/
structure LocalCopies (ω : Type) where
  isReceivedLocally : ℕ → Bool
  buffer : Weights ω

/-- Go through the slots and note for every expert the first slot with it. -/
def firstSlots (skip : ℕ → Bool) (expertAt : ℕ → ℤ) (numLocalExperts : ℕ) : List (ℤ × ℕ) :=
  (List.range numLocalExperts).foldl (fun loc slot =>
    if skip slot then loc
    else if expertAt slot = -1 then loc
    else if expertAt slot ∈ loc.map Prod.fst then loc
    else loc ++ [(expertAt slot, slot)]) []

/-- The entries of a dictionary, sorted by their keys. -/
def sortedItems (loc : List (ℤ × ℕ)) : List (ℤ × ℕ) :=
  loc.insertionSort fun a b => a.1 ≤ b.1

/-- The ranks that the sender at rank `epRank` sends an expert to: a block of the receivers, and
at most one of those that remain. -/
def recvRanks (epRank : ℕ) (ranksToSend ranksToRecv : List ℕ) : Except Fault (List ℕ) := do
  let numDstPerSender ← floorDiv ranksToRecv.length ranksToSend.length
  let senderPos ← indexOf ranksToSend epRank
  let recvBegin := senderPos * numDstPerSender
  let block := (ranksToRecv.drop recvBegin).take numDstPerSender
  let remainderStart := ranksToSend.length * numDstPerSender
  let recverPos := remainderStart + senderPos
  return block ++ (ranksToRecv[recverPos]?).toList

/-- The rank that the receiver at rank `epRank` gets an expert from. -/
def sourceRank (epRank : ℕ) (ranksToSend ranksToRecv : List ℕ) : Except Fault ℕ := do
  let numDstPerSender ← floorDiv ranksToRecv.length ranksToSend.length
  let recverPos ← indexOf ranksToRecv epRank
  let remainderStart := ranksToSend.length * numDstPerSender
  if recverPos < remainderStart then
    getItem ranksToSend (recverPos / numDstPerSender)
  else
    getItem ranksToSend (recverPos - remainderStart)

/-- A transfer that a rank posts. -/
inductive P2POp where
  | isend (tensor slot peer : ℕ)
  | irecv (tensor slot peer : ℕ)
  deriving DecidableEq, Repr

/-- An expert that a rank sends, its slot, and the ranks that it is sent to. -/
structure Sending where
  expert : ℤ
  src : ℕ
  ranks : List ℕ
  deriving DecidableEq

/-- An expert that a rank receives, the slot of the buffer for it, and the rank that sends it. -/
structure Receiving where
  expert : ℤ
  dst : ℕ
  source : ℕ
  deriving DecidableEq

/-- The transfers of a sent expert, one for each receiver and tensor. -/
def Sending.ops (numTensors : ℕ) (s : Sending) : List P2POp :=
  s.ranks.flatMap fun dst => (List.range numTensors).map fun tensor => .isend tensor s.src dst

/-- The transfers of a received expert, one for each tensor. -/
def Receiving.ops (numTensors : ℕ) (r : Receiving) : List P2POp :=
  (List.range numTensors).map fun tensor => .irecv tensor r.dst r.source

namespace ExpertMaps

def isUnchanged (m : ExpertMaps) (rank slot : ℕ) : Bool := m.old rank slot == m.new rank slot

/-- Copy from slot `src` into the buffer for slot `dst` if the expert is the same. -/
def localCopy (m : ExpertMaps) (rank numTensors : ℕ) (weights : Weights ω) (st : LocalCopies ω)
    (src dst : ℕ) : LocalCopies ω :=
  if st.isReceivedLocally dst then st
  else if m.old rank src = -1 ∨ m.new rank dst = -1 then st
  else if m.old rank src = m.new rank dst then
    { isReceivedLocally := Function.update st.isReceivedLocally dst true
      buffer := copySlot numTensors st.buffer dst weights src }
  else st

/-- Copy into the buffer what the rank has itself. -/
def localCopies (m : ExpertMaps) (rank numTensors : ℕ) (weights buffer : Weights ω) :
    LocalCopies ω :=
  (List.range m.numLocalExperts).foldl (fun st src =>
    (List.range m.numLocalExperts).foldl (fun st dst =>
      m.localCopy rank numTensors weights st src dst) st)
    ⟨m.isUnchanged rank, buffer⟩

def expertsSendLoc (m : ExpertMaps) (rank : ℕ) : List (ℤ × ℕ) :=
  firstSlots (fun _ => false) (m.old rank) m.numLocalExperts

def expertsRecvLoc (m : ExpertMaps) (rank : ℕ) (isReceivedLocally : ℕ → Bool) : List (ℤ × ℕ) :=
  firstSlots isReceivedLocally (m.new rank) m.numLocalExperts

/-- What a rank sends, in the order of the experts. -/
def sendPlan (m : ExpertMaps) (rank : ℕ) : Except Fault (List Sending) :=
  (sortedItems (m.expertsSendLoc rank)).mapM fun (expert, src) => do
    let (ranksToSend, ranksToRecv) :=
      getEpRanksWithExpert expert m.numLocalExperts m.oldIndices m.newIndices
    let ranks ← recvRanks rank ranksToSend ranksToRecv
    return ⟨expert, src, ranks⟩

/-- What a rank receives, in the order of the experts. -/
def recvPlan (m : ExpertMaps) (rank : ℕ) (loc : List (ℤ × ℕ)) : Except Fault (List Receiving) :=
  (sortedItems loc).mapM fun (expert, dst) => do
    let (ranksToSend, ranksToRecv) :=
      getEpRanksWithExpert expert m.numLocalExperts m.oldIndices m.newIndices
    let source ← sourceRank rank ranksToSend ranksToRecv
    return ⟨expert, dst, source⟩

/-- Where the loop over the slots finds the weights of a slot: nowhere if the slot keeps its
weights, or in a slot of the buffer. -/
def copySource (m : ExpertMaps) (rank : ℕ) (isReceivedLocally : ℕ → Bool)
    (loc : List (ℤ × ℕ)) (dst : ℕ) : Except Fault (Option ℕ) :=
  if m.isUnchanged rank dst then .ok none
  else if isReceivedLocally dst then .ok (some dst)
  else if m.new rank dst = -1 then .ok none
  else match loc.lookup (m.new rank dst) with
    | none => .error .keyError
    | some src => .ok (some src)

/-- Copy the weights from the buffer to the slots. -/
def copyBack (m : ExpertMaps) (rank numTensors : ℕ) (isReceivedLocally : ℕ → Bool)
    (loc : List (ℤ × ℕ)) (weights buffer : Weights ω) : Except Fault (Weights ω) :=
  (List.range m.numLocalExperts).foldlM (fun weights dst => do
    match ← m.copySource rank isReceivedLocally loc dst with
    | none => return weights
    | some src => return copySlot numTensors weights dst buffer src) weights

end ExpertMaps

/-! ### The transfer -/

/-- The sends of a rank to `peer`, in order: tensor and slot. -/
def sendsTo (peer : ℕ) (ops : List P2POp) : List (ℕ × ℕ) :=
  ops.filterMap fun
    | .isend tensor slot dst => if dst = peer then some (tensor, slot) else none
    | .irecv _ _ _ => none

/-- The receives of a rank from `peer`, in order: tensor and slot. -/
def recvsFrom (peer : ℕ) (ops : List P2POp) : List (ℕ × ℕ) :=
  ops.filterMap fun
    | .irecv tensor slot src => if src = peer then some (tensor, slot) else none
    | .isend _ _ _ => none

/-- What arrives at `rank`: between two ranks, the first receive takes what the first send gives,
and so on. -/
def arrivals (numRanks : ℕ) (ops : ℕ → List P2POp) (weights : ℕ → Weights ω) (rank : ℕ) :
    List ((ℕ × ℕ) × ω) :=
  (List.range numRanks).flatMap fun peer =>
    (recvsFrom peer (ops rank)).zip
      ((sendsTo rank (ops peer)).map fun (tensor, slot) => weights peer tensor slot)

/-- Write values to tensors and slots. -/
def writeAll (buffer : Weights ω) (writes : List ((ℕ × ℕ) × ω)) : Weights ω :=
  writes.foldl (fun buffer (place, value) => fun tensor slot =>
    if (tensor, slot) = place then value else buffer tensor slot) buffer

/-- `batch_isend_irecv` and the waits for its requests, on all ranks: from what each rank posts and
has in its weights and its buffer, to what the buffers have in the end. -/
abbrev Transfer (ω : Type) :=
  ℕ → (ℕ → List P2POp) → (ℕ → Weights ω) → (ℕ → Weights ω) → Except Fault (ℕ → Weights ω)

/-- Between two ranks, as many receives are posted as sends. -/
def Paired (numRanks : ℕ) (ops : ℕ → List P2POp) : Prop :=
  ∀ a < numRanks, ∀ b < numRanks, (sendsTo b (ops a)).length = (recvsFrom a (ops b)).length

/-- Messages between two ranks are matched in the order in which they are posted. If nothing is left
over, every rank returns and has received its messages. -/
def Transfer.InOrder (transfer : Transfer ω) : Prop :=
  ∀ numRanks ops weights buffers, Paired numRanks ops →
    ∃ received, transfer numRanks ops weights buffers = .ok received ∧
      ∀ rank < numRanks,
        received rank = writeAll (buffers rank) (arrivals numRanks ops weights rank)

/-- The transfer that hangs whenever something is left over. -/
def exchange (numRanks : ℕ) (ops : ℕ → List P2POp) (weights buffers : ℕ → Weights ω) :
    Except Fault (ℕ → Weights ω) :=
  if ∀ a < numRanks, ∀ b < numRanks,
      (sendsTo b (ops a)).length = (recvsFrom a (ops b)).length then
    .ok fun rank => writeAll (buffers rank) (arrivals numRanks ops weights rank)
  else .error .hang

theorem exchange_inOrder : Transfer.InOrder (@exchange ω) :=
  fun _ _ _ _ hpaired => ⟨_, if_pos hpaired, fun _ _ => rfl⟩

namespace ExpertMaps

/-- What a rank has done when the transfer begins. -/
structure Posted (ω : Type) where
  isReceivedLocally : ℕ → Bool
  buffer : Weights ω
  expertsRecvLoc : List (ℤ × ℕ)
  p2pOps : List P2POp

def post (m : ExpertMaps) (rank numTensors : ℕ) (weights buffer : Weights ω) :
    Except Fault (Posted ω) := do
  let copies := m.localCopies rank numTensors weights buffer
  let sends ← m.sendPlan rank
  let loc := m.expertsRecvLoc rank copies.isReceivedLocally
  let recvs ← m.recvPlan rank loc
  return {
    isReceivedLocally := copies.isReceivedLocally
    buffer := copies.buffer
    expertsRecvLoc := loc
    p2pOps := sends.flatMap (Sending.ops numTensors) ++ recvs.flatMap (Receiving.ops numTensors) }

/-- All ranks rearrange a layer: each posts its transfers, they are performed, and each copies the
weights from its buffer to its slots. -/
def shuffleLayer (m : ExpertMaps) (transfer : Transfer ω) (numTensors : ℕ)
    (weights buffers : ℕ → Weights ω) : Except Fault (List (Weights ω)) := do
  let posted ← (List.range m.numRanks).mapM fun rank =>
    m.post rank numTensors (weights rank) (buffers rank)
  let opsOf := fun rank => ((posted[rank]?).map Posted.p2pOps).getD []
  let bufferOf := fun rank => ((posted[rank]?).map Posted.buffer).getD (buffers rank)
  let received ← transfer m.numRanks opsOf weights bufferOf
  posted.zipIdx.mapM fun (p, rank) =>
    m.copyBack rank numTensors p.isReceivedLocally p.expertsRecvLoc (weights rank) (received rank)

end ExpertMaps

end Eplb
