import Mosaic.Graph.CustomGraph
import Mosaic.Memory.FirstFit
import Mathlib.Algebra.BigOperators.Group.Finset.Basic
import Mathlib.Data.Finset.Union

/-!
# The memory analyzer

The analyzer walks over the execution order of a graph and produces the peak of the live
memory, a timeline of the live memory, and a reuse plan that puts every tensor at an offset of
one buffer. The plan is made greedily: a tensor goes to the first gap between the blocks of
the tensors that are still needed when it is born.
-/

namespace Graph

variable {ν : Type} [DecidableEq ν]

/-! ### Liveness -/

/-- One node of the backward walk: record what is live after the node, then remove its output
and add its inputs. -/
def livenessStep (node : OpNode ν) (acc : List (ν × Finset ν) × Finset ν) :
    List (ν × Finset ν) × Finset ν :=
  ((node.outputName, acc.2) :: acc.1, acc.2.erase node.outputName ∪ node.inputNames.toFinset)

/-- The tensors that are live after each node, in execution order. -/
def analyzeLiveness (g : CustomGraph ν) : List (ν × Finset ν) :=
  (g.executionOrder.foldr livenessStep ([], ∅)).1

/-- What is live after the node that produces `name`. -/
def liveAfter (livenessMap : List (ν × Finset ν)) (name : ν) : Finset ν :=
  ((livenessMap.find? fun entry => entry.1 = name).map Prod.snd).getD ∅

/-- The total size of a set of tensors, all of which the graph must produce. -/
def totalSize (g : CustomGraph ν) (live : Finset ν) : Except (GraphError ν) ℕ :=
  if ∀ name ∈ live, (g.nodes name).isSome then
    .ok (∑ name ∈ live, g.tensorSize name)
  else .error .unknownTensor

/-- The largest live memory, the first node that reaches it and the tensors live there. -/
structure PeakInfo (ν : Type) where
  peakMemoryBytes : ℕ
  peakNode : Option (OpNode ν)
  peakLiveSetNames : Finset ν

/-- The peak over all nodes, counting each node's output as live. -/
def calculatePeakMemory (g : CustomGraph ν) (livenessMap : List (ν × Finset ν)) :
    Except (GraphError ν) (PeakInfo ν) :=
  -- the first node that reaches the peak is kept
  g.executionOrder.foldlM (fun peak node => do
      let live := liveAfter livenessMap node.outputName ∪ {node.outputName}
      let current ← totalSize g live
      if current > peak.peakMemoryBytes then return ⟨current, some node, live⟩
      return peak)
    ⟨0, none, ∅⟩

/-- The live memory when a node runs. -/
structure TimelineStep (ν : Type) where
  nodeName : ν
  totalMemoryBytes : ℕ
  deriving DecidableEq, Repr

/-- The live memory at every node, in execution order. -/
def calculateMemoryTimeline (g : CustomGraph ν) (livenessMap : List (ν × Finset ν)) :
    Except (GraphError ν) (List (TimelineStep ν)) :=
  g.executionOrder.mapM fun node => do
    let live := liveAfter livenessMap node.outputName ∪ {node.outputName}
    let current ← totalSize g live
    return ⟨node.outputName, current⟩

/-! ### The reuse plan -/

/-- The position that produces a tensor. -/
def births (g : CustomGraph ν) (name : ν) : ℕ :=
  g.names.idxOf name

/-- The last position that consumes a tensor, `-1` for a tensor that nothing consumes. -/
def deaths (g : CustomGraph ν) : ν → Option ℤ :=
  g.executionOrder.zipIdx.foldl
    -- a later consumer overwrites an earlier one
    (fun table entry => entry.1.inputNames.foldl
      (fun table name => Function.update table name (some (entry.2 : ℤ))) table)
    (fun name => if name ∈ g.names then some (-1) else none)

/-- An allocated range of the buffer. -/
structure Block (ν : Type) where
  tensorName : ν
  start : ℕ
  stop : ℕ
  deriving DecidableEq, Repr

/-- Where a tensor lives in the buffer. -/
structure PlanEntry where
  offset : ℕ
  size : ℕ
  shape : List ℕ
  dtype : Dtype
  deriving DecidableEq, Repr

/-- The planner's variables: the blocks and the plan entries so far, in the order they were
made, and the end of the highest block. -/
structure PlannerState (ν : Type) where
  allocatedBlocks : List (Block ν)
  reusePlan : List (ν × PlanEntry)
  maxOffset : ℕ
  deriving DecidableEq, Repr

/-- The planner before the first node. -/
def PlannerState.init : PlannerState ν :=
  ⟨[], [], 0⟩

/-- The entry of a tensor. -/
def lookupEntry (entries : List (ν × PlanEntry)) (name : ν) : Option PlanEntry :=
  (entries.find? fun entry => entry.1 = name).map Prod.snd

/-- The blocks whose tensors are consumed at or after the given birth. -/
def liveBlocksAtBirth (g : CustomGraph ν) (blocks : List (Block ν)) (birth : ℕ) :
    List (Block ν) :=
  blocks.filter fun block => (birth : ℤ) ≤ (deaths g block.tensorName).getD g.names.length

/-- The offset the planner chooses for a node: the offset of its alias target, or else the
first gap between the live blocks. -/
def foundOffset (g : CustomGraph ν) (st : PlannerState ν) (node : OpNode ν) :
    Except (GraphError ν) ℕ :=
  match g.aliases.find? fun link => link.1 = node.outputName with
  | some (_, targetName) =>
    -- an aliased tensor is not checked against the tensors that are live when it is born
    match lookupEntry st.reusePlan targetName with
    | some target => .ok target.offset
    | none => .error (.aliasUnallocated targetName)
  | none => .ok (FirstFit.firstFit Block.start Block.stop node.sizeBytes
      (liveBlocksAtBirth g st.allocatedBlocks (births g node.outputName)))

/-- Record the offset chosen for a node. -/
def PlannerState.allocate (st : PlannerState ν) (node : OpNode ν) (offset : ℕ) :
    PlannerState ν :=
  -- an aliased tensor gets a block of its own, in the place of its target
  let blocks := st.allocatedBlocks ++ [⟨node.outputName, offset, offset + node.sizeBytes⟩]
  { allocatedBlocks := blocks
    reusePlan := st.reusePlan ++ [(node.outputName,
      ⟨offset, node.sizeBytes, node.outputSpec.shape, node.outputSpec.dtype⟩)]
    maxOffset := max st.maxOffset ((blocks.map Block.stop).foldl max 0) }

/-- One round of the planner. Empty tensors are skipped. -/
def place (g : CustomGraph ν) (st : PlannerState ν) (node : OpNode ν) :
    Except (GraphError ν) (PlannerState ν) :=
  if node.sizeBytes > 0 then do
    let offset ← foundOffset g st node
    return st.allocate node offset
  else return st

/-- The plan: the entries of the tensors, and the size of the buffer they share. -/
structure ReusePlan (ν : Type) where
  entries : List (ν × PlanEntry)
  totalBufferSizeBytes : ℕ
  deriving DecidableEq, Repr

/-- The entry of a tensor in a plan. -/
def ReusePlan.entry? (plan : ReusePlan ν) (name : ν) : Option PlanEntry :=
  lookupEntry plan.entries name

/-- Plan every tensor of the graph, in execution order. -/
def generateOptimizedReusePlan (g : CustomGraph ν) : Except (GraphError ν) (ReusePlan ν) := do
  let st ← g.executionOrder.foldlM (place g) PlannerState.init
  return ⟨st.reusePlan, st.maxOffset⟩

/-! ### The analysis -/

/-- The results of the analysis. -/
structure Analysis (ν : Type) where
  peakMemoryBytes : ℕ
  peakNodeName : ν
  peakLiveTensors : Finset ν
  memoryTimeline : List (TimelineStep ν)
  reusePlan : ReusePlan ν

/-- Liveness, peak, timeline and plan, in this order. -/
def analyze (g : CustomGraph ν) : Except (GraphError ν) (Analysis ν) := do
  let livenessMap := analyzeLiveness g
  let peakInfo ← calculatePeakMemory g livenessMap
  let memoryTimeline ← calculateMemoryTimeline g livenessMap
  let reusePlan ← generateOptimizedReusePlan g
  -- the name of the peak node is read last, after the plan was made
  match peakInfo.peakNode with
  | some peakNode =>
    return ⟨peakInfo.peakMemoryBytes, peakNode.outputName, peakInfo.peakLiveSetNames,
      memoryTimeline, reusePlan⟩
  | none => throw .noPeakNode

end Graph
