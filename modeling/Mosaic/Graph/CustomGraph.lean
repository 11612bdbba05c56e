import Mosaic.Control.Fallible
import Mathlib.Data.List.Nodup
import Mathlib.Algebra.BigOperators.Group.List.Basic

/-!
# The computation graph of a transformer block

The graph builder records a block as a list of operations in execution order. Every operation
produces one named tensor from tensors that were named before. A graph may also ask that one
tensor reuse the memory of another.
-/

namespace Graph

open List

/-- The element types of tensors. -/
inductive Dtype where
  | float16 | bfloat16 | float32 | float64
  | uint8 | int8 | int16 | int32 | int64
  deriving DecidableEq, Repr

/-- The width of an element, as `finfo` and `iinfo` report it. -/
def Dtype.bits : Dtype → ℕ
  | .float16 => 16
  | .bfloat16 => 16
  | .float32 => 32
  | .float64 => 64
  | .uint8 => 8
  | .int8 => 8
  | .int16 => 16
  | .int32 => 32
  | .int64 => 64

/-- The size of one element in bytes. -/
def Dtype.bytesPerElement (dtype : Dtype) : ℕ :=
  dtype.bits / 8

/-- The shape and the element type of a tensor. -/
structure TensorSpec where
  shape : List ℕ
  dtype : Dtype
  deriving DecidableEq, Repr

/-- The number of bytes of a tensor. The product of the dimensions is exact: every tensor that
exists has fewer than `2 ^ 63` elements. -/
def TensorSpec.sizeBytes (spec : TensorSpec) : ℕ :=
  spec.shape.prod * spec.dtype.bytesPerElement

/-- One operation and the tensor it produces. -/
structure OpNode (ν : Type) where
  opType : String
  outputName : ν
  outputSpec : TensorSpec
  inputNames : List ν
  deriving DecidableEq, Repr

/-- The number of bytes of the tensor a node produces. -/
def OpNode.sizeBytes {ν : Type} (node : OpNode ν) : ℕ :=
  node.outputSpec.sizeBytes

/-- The ways in which building or analysing a graph can fail. -/
inductive GraphError (ν : Type) where
  /-- Two operations would produce a tensor of the same name. -/
  | tensorExists (name : ν)
  /-- An alias names a tensor that no operation produces. -/
  | aliasUnknown
  /-- The source of an alias does not fit into its target. -/
  | aliasTooLarge (source : ν) (sourceBytes : ℕ) (target : ν) (targetBytes : ℕ)
  /-- The planner meets an aliased tensor before its target. -/
  | aliasUnallocated (target : ν)
  /-- An operation reads a tensor that the graph does not produce. -/
  | unknownTensor
  /-- No operation of the graph occupies any memory. -/
  | noPeakNode
  deriving DecidableEq, Repr

/-- The text of the exception. -/
def GraphError.message {ν : Type} [ToString ν] : GraphError ν → String
  | .tensorExists name => s!"Tensor with name '{name}' already exists in the graph."
  | .aliasUnknown => "Both source and target tensors for alias must exist in the graph."
  | .aliasTooLarge source sourceBytes target targetBytes =>
    s!"Alias failed: source '{source}' ({sourceBytes} bytes) " ++
      s!"is larger than target '{target}' ({targetBytes} bytes)."
  | .aliasUnallocated target => s!"Alias error: Target '{target}' has not been allocated yet."
  | .unknownTensor => "KeyError"
  | .noPeakNode => "'NoneType' object has no attribute 'output_name'"

/-- The operations in execution order and the memory aliases, latest first. No two operations
produce a tensor of the same name. -/
structure CustomGraph (ν : Type) where
  executionOrder : List (OpNode ν)
  aliases : List (ν × ν)
  nodup : (executionOrder.map OpNode.outputName).Nodup

namespace CustomGraph

variable {ν : Type} [DecidableEq ν]

/-- The graph without operations. -/
def empty (ν : Type) : CustomGraph ν :=
  ⟨[], [], nodup_nil⟩

/-- The names of the produced tensors, in execution order. -/
def names (g : CustomGraph ν) : List ν :=
  g.executionOrder.map OpNode.outputName

/-- The node that produces the tensor `name`. -/
def nodes (g : CustomGraph ν) (name : ν) : Option (OpNode ν) :=
  g.executionOrder.find? fun node => node.outputName = name

/-- The number of bytes of the tensor `name`. -/
def tensorSize (g : CustomGraph ν) (name : ν) : ℕ :=
  ((g.nodes name).map OpNode.sizeBytes).getD 0

/-- Append an operation. Its output name must be new. -/
def addOp (g : CustomGraph ν) (outputName : ν) (opType : String) (inputNames : List ν)
    (shape : List ℕ) (dtype : Dtype) : Except (GraphError ν) (CustomGraph ν) :=
  if h : outputName ∈ g.names then .error (.tensorExists outputName)
  else .ok
    { executionOrder := g.executionOrder ++ [⟨opType, outputName, ⟨shape, dtype⟩, inputNames⟩]
      aliases := g.aliases
      nodup := by
        -- the names so far are distinct and the new one is not among them
        rw [map_append]
        exact g.nodup.append (nodup_singleton _) (disjoint_singleton.mpr h) }

/-- Make `sourceName` reuse the memory of `targetName`, which must be large enough. -/
def addAlias (g : CustomGraph ν) (sourceName targetName : ν) :
    Except (GraphError ν) (CustomGraph ν) :=
  match g.nodes sourceName, g.nodes targetName with
  | some source, some target =>
    -- a source that is smaller than its target is fine
    if source.sizeBytes > target.sizeBytes then
      .error (.aliasTooLarge sourceName source.sizeBytes targetName target.sizeBytes)
    else .ok { g with aliases := (sourceName, targetName) :: g.aliases }
  | _, _ => .error .aliasUnknown

/-- The arguments of one call of `addOp`. -/
structure OpCall (ν : Type) where
  outputName : ν
  opType : String
  inputNames : List ν
  shape : List ℕ
  dtype : Dtype

/-- The node a call appends. -/
def OpCall.node {ν : Type} (call : OpCall ν) : OpNode ν :=
  ⟨call.opType, call.outputName, ⟨call.shape, call.dtype⟩, call.inputNames⟩

/-- A sequence of `addOp` calls. -/
def addOps (g : CustomGraph ν) (calls : List (OpCall ν)) :
    Except (GraphError ν) (CustomGraph ν) :=
  calls.foldlM (fun g call => g.addOp call.outputName call.opType call.inputNames call.shape
    call.dtype) g

/-- Every input of an operation is produced by an earlier one. -/
def Topological (g : CustomGraph ν) : Prop :=
  ∀ (j : ℕ) (node : OpNode ν), g.executionOrder[j]? = some node → ∀ name ∈ node.inputNames,
    ∃ (i : ℕ) (producer : OpNode ν),
      i < j ∧ g.executionOrder[i]? = some producer ∧ producer.outputName = name

theorem addOp_eq_ok {g g' : CustomGraph ν} {outputName : ν} {opType : String}
    {inputNames : List ν} {shape : List ℕ} {dtype : Dtype}
    (h : g.addOp outputName opType inputNames shape dtype = .ok g') :
    g'.executionOrder = g.executionOrder ++ [⟨opType, outputName, ⟨shape, dtype⟩, inputNames⟩] ∧
      g'.aliases = g.aliases := by
  unfold addOp at h
  split at h
  · cases h
  · cases h
    exact ⟨rfl, rfl⟩

/-- Successful calls append their nodes in order and add no alias. -/
theorem addOps_eq_ok {g g' : CustomGraph ν} {calls : List (OpCall ν)}
    (h : g.addOps calls = .ok g') :
    g'.executionOrder = g.executionOrder ++ calls.map OpCall.node ∧ g'.aliases = g.aliases := by
  induction calls generalizing g with
  | nil =>
    cases h
    simp
  | cons call rest ih =>
    obtain ⟨_, hcall, hrest⟩ := Fallible.foldlM_cons_eq_ok.mp h
    obtain ⟨horder, haliases⟩ := ih hrest
    obtain ⟨horder₁, haliases₁⟩ := addOp_eq_ok hcall
    exact ⟨by rw [horder, horder₁]; simp [OpCall.node], haliases.trans haliases₁⟩

theorem exists_addOp (g : CustomGraph ν) (call : OpCall ν) (fresh : call.outputName ∉ g.names) :
    ∃ g', g.addOp call.outputName call.opType call.inputNames call.shape call.dtype = .ok g' ∧
      g'.executionOrder = g.executionOrder ++ [call.node] ∧ g'.aliases = g.aliases :=
  ⟨_, dif_neg fresh, rfl, rfl⟩

/-- Calls with new and distinct names succeed. -/
theorem exists_addOps (g : CustomGraph ν) (calls : List (OpCall ν))
    (distinct : (g.names ++ calls.map OpCall.outputName).Nodup) :
    ∃ g', g.addOps calls = .ok g' := by
  induction calls generalizing g with
  | nil => exact ⟨g, rfl⟩
  | cons call rest ih =>
    -- distinctness of all names gives that this one is new, and carries over to the rest
    have hfresh : call.outputName ∉ g.names := fun hmem =>
      (nodup_append.mp distinct).2.2 _ hmem _ mem_cons_self rfl
    obtain ⟨g₁, hcall, horder, -⟩ := exists_addOp g call hfresh
    have hnames : g₁.names = g.names ++ [call.outputName] := by
      simp [names, horder, OpCall.node]
    obtain ⟨g', hg'⟩ := ih g₁ (by rw [hnames]; simpa using distinct)
    exact ⟨g', Fallible.foldlM_cons_eq_ok.mpr ⟨g₁, hcall, hg'⟩⟩

variable {g : CustomGraph ν}

omit [DecidableEq ν] in
/-- Of a list of operations it can be computed whether their inputs come first. -/
theorem topological_of_order {nodes : List (OpNode ν)} (horder : g.executionOrder = nodes)
    (hinputs : ∀ (j : ℕ) (hj : j < nodes.length), ∀ name ∈ (nodes.get ⟨j, hj⟩).inputNames,
      ∃ i ∈ List.range j, nodes[i]?.map OpNode.outputName = some name) : g.Topological := by
  intro j node hj name hname
  rw [horder] at hj ⊢
  obtain ⟨hlt, rfl⟩ := List.getElem?_eq_some_iff.mp hj
  obtain ⟨i, hi, hout⟩ := hinputs j hlt name hname
  obtain ⟨producer, hprod, hout⟩ := Option.map_eq_some_iff.mp hout
  exact ⟨i, producer, mem_range.mp hi, hprod, hout⟩

/-- An alias to a tensor that is large enough succeeds. -/
theorem addAlias_eq_ok {source target : OpNode ν}
    (hsrc : g.nodes source.outputName = some source)
    (htarget : g.nodes target.outputName = some target)
    (fits : source.sizeBytes ≤ target.sizeBytes) :
    g.addAlias source.outputName target.outputName =
      .ok { g with aliases := (source.outputName, target.outputName) :: g.aliases } := by
  rw [addAlias, hsrc, htarget]
  exact if_neg (by omega)

omit [DecidableEq ν] in
/-- Distinct positions hold nodes with distinct output names. -/
theorem eq_of_outputName_eq (g : CustomGraph ν) {i j : ℕ} {node node' : OpNode ν}
    (hi : g.executionOrder[i]? = some node) (hj : g.executionOrder[j]? = some node')
    (h : node.outputName = node'.outputName) : i = j := by
  have hget : ∀ {k : ℕ} {n : OpNode ν}, g.executionOrder[k]? = some n →
      g.names[k]? = some n.outputName := fun hk => by simp [names, hk]
  obtain ⟨hlt, -⟩ := List.getElem?_eq_some_iff.mp (hget hi)
  exact (getElem?_inj hlt g.nodup).mp ((hget hi).trans (h ▸ (hget hj).symm))

theorem nodes_eq {i : ℕ} {node : OpNode ν}
    (hi : g.executionOrder[i]? = some node) : g.nodes node.outputName = some node := by
  cases hfind : g.nodes node.outputName with
  | none =>
    -- the node itself has the name
    have := find?_eq_none.mp hfind node (mem_of_getElem? hi)
    simp at this
  | some found =>
    have hname : found.outputName = node.outputName := by simpa using find?_some hfind
    obtain ⟨_, hk⟩ := mem_iff_getElem?.mp (mem_of_find?_eq_some hfind)
    obtain rfl := g.eq_of_outputName_eq hk hi hname
    rw [← hk, hi]

theorem tensorSize_eq {i : ℕ} {node : OpNode ν}
    (hi : g.executionOrder[i]? = some node) : g.tensorSize node.outputName = node.sizeBytes := by
  simp [tensorSize, nodes_eq hi]

end CustomGraph

end Graph
