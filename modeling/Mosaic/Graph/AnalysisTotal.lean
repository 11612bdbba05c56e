import Mosaic.Graph.PlannerSafety
import Mathlib.Algebra.GroupWithZero.Nat
import Mathlib.Algebra.Order.BigOperators.Group.Finset

/-!
# The analysis succeeds

The analysis can fail on three occasions: a node reads a tensor that the graph does not produce,
an alias names a tensor that is not placed yet, or nothing occupies memory. On a graph whose
inputs are all produced it gives the timeline node by node, and the plan never takes more memory
than separate buffers would.
-/

namespace Graph

open List

variable {ν : Type} [DecidableEq ν] {g : CustomGraph ν}

/-! ### Liveness -/

/-- The graph produces every tensor that one of its nodes reads. -/
def Closed (g : CustomGraph ν) : Prop :=
  ∀ node ∈ g.executionOrder, ∀ name ∈ node.inputNames, name ∈ g.names

/-- The backward walk only ever adds inputs to the live set. -/
theorem foldr_livenessStep_subset {names : List ν} (nodes : List (OpNode ν))
    (closed : ∀ node ∈ nodes, ∀ name ∈ node.inputNames, name ∈ names) :
    (∀ entry ∈ (nodes.foldr livenessStep ([], ∅)).1, ∀ name ∈ entry.2, name ∈ names) ∧
      ∀ name ∈ (nodes.foldr livenessStep ([], ∅)).2, name ∈ names := by
  induction nodes with
  | nil => simp
  | cons node rest ih =>
    obtain ⟨hentries, hlive⟩ := ih fun later hlater => closed later (mem_cons_of_mem _ hlater)
    rw [foldr_cons]
    constructor
    · intro entry hentry
      -- the new entry records what was live behind the node
      rcases mem_cons.mp hentry with rfl | hentry
      · exact hlive
      · exact hentries entry hentry
    · intro name hname
      rcases Finset.mem_union.mp hname with hbefore | hinput
      · exact hlive name (Finset.mem_of_mem_erase hbefore)
      · exact closed node mem_cons_self name (mem_toFinset.mp hinput)

theorem mem_names_of_liveAfter (closed : Closed g) {name other : ν}
    (h : other ∈ liveAfter (analyzeLiveness g) name) : other ∈ g.names := by
  unfold liveAfter at h
  cases hfind : (analyzeLiveness g).find? fun entry => entry.1 = name with
  | none => simp [hfind] at h
  | some entry =>
    rw [hfind] at h
    exact (foldr_livenessStep_subset _ closed).1 entry (mem_of_find?_eq_some hfind) other h

theorem nodes_isSome {name : ν} (h : name ∈ g.names) : (g.nodes name).isSome := by
  obtain ⟨_, hnode, rfl⟩ := mem_map.mp h
  obtain ⟨_, hi⟩ := mem_iff_getElem?.mp hnode
  rw [CustomGraph.nodes_eq hi]
  rfl

/-- The tensors in memory when the node that produces `name` runs. -/
def liveSet (g : CustomGraph ν) (name : ν) : Finset ν :=
  liveAfter (analyzeLiveness g) name ∪ {name}

/-- The live memory when the node that produces `name` runs. -/
def liveBytes (g : CustomGraph ν) (name : ν) : ℕ :=
  ∑ live ∈ liveSet g name, g.tensorSize live

variable {node : OpNode ν}

theorem totalSize_eq_ok (closed : Closed g) (hnode : node ∈ g.executionOrder) :
    totalSize g (liveAfter (analyzeLiveness g) node.outputName ∪ {node.outputName}) =
      .ok (liveBytes g node.outputName) := by
  apply if_pos
  intro name hname
  rcases Finset.mem_union.mp hname with hlive | hself
  · exact nodes_isSome (mem_names_of_liveAfter closed hlive)
  · rw [Finset.mem_singleton.mp hself]
    exact nodes_isSome (mem_map_of_mem hnode)

/-! ### Peak and timeline -/

/-- The timeline of a closed graph. -/
theorem calculateMemoryTimeline_eq_ok (closed : Closed g) :
    calculateMemoryTimeline g (analyzeLiveness g) =
      .ok (g.executionOrder.map fun node => ⟨node.outputName, liveBytes g node.outputName⟩) := by
  apply Fallible.mapM_eq_ok
  intro node hnode
  simp only [totalSize_eq_ok closed hnode]
  rfl

/-- The round of the peak search at one node. -/
def peakStep (g : CustomGraph ν) (peak : PeakInfo ν) (node : OpNode ν) : PeakInfo ν :=
  if liveBytes g node.outputName > peak.peakMemoryBytes then
    ⟨liveBytes g node.outputName, some node, liveSet g node.outputName⟩
  else peak

theorem calculatePeakMemory_eq_ok (closed : Closed g) :
    calculatePeakMemory g (analyzeLiveness g) =
      .ok (g.executionOrder.foldl (peakStep g) ⟨0, none, ∅⟩) := by
  apply Fallible.foldlM_eq_ok
  intro node hnode peak
  simp only [totalSize_eq_ok closed hnode, peakStep]
  by_cases hlarger : liveBytes g node.outputName > peak.peakMemoryBytes
  · simp only [hlarger, if_true]
    exact if_pos hlarger
  · simp only [hlarger, if_false]
    exact if_neg hlarger

/-- A node counts its own output as live. -/
theorem sizeBytes_le_liveBytes (hnode : node ∈ g.executionOrder) :
    node.sizeBytes ≤ liveBytes g node.outputName := by
  obtain ⟨_, hi⟩ := mem_iff_getElem?.mp hnode
  rw [← CustomGraph.tensorSize_eq hi]
  -- one summand is no more than the sum
  apply Finset.single_le_sum_of_canonicallyOrdered
  exact Finset.mem_union_right _ (Finset.mem_singleton_self _)

/-- As soon as some node occupies memory there is a peak node, and it stays. -/
theorem peakNode_isSome (nodes : List (OpNode ν)) (peak : PeakInfo ν)
    (h : peak.peakNode.isSome ∨
      peak.peakMemoryBytes = 0 ∧ ∃ node ∈ nodes, 0 < liveBytes g node.outputName) :
    (nodes.foldl (peakStep g) peak).peakNode.isSome := by
  induction nodes generalizing peak with
  | nil => simpa using h
  | cons node rest ih =>
    rw [foldl_cons]
    apply ih
    unfold peakStep
    split
    · -- the node becomes the peak node
      exact .inl rfl
    · rename_i hsmall
      rcases h with hsome | ⟨hzero, other, hother, hpos⟩
      · exact .inl hsome
      · rcases mem_cons.mp hother with rfl | hrest
        · omega
        · exact .inr ⟨hzero, other, hrest, hpos⟩

/-- The analysis of a closed graph with a nonempty tensor succeeds. -/
theorem exists_analysis (closed : Closed g) (ready : AliasesReady g)
    (hnode : node ∈ g.executionOrder) (hpos : 0 < node.sizeBytes) :
    ∃ analysis, analyze g = .ok analysis := by
  obtain ⟨_, hplan⟩ := exists_plan ready
  have hpeak : (g.executionOrder.foldl (peakStep g) ⟨0, none, ∅⟩).peakNode.isSome :=
    peakNode_isSome _ _ (.inr ⟨rfl, node, hnode, hpos.trans_le (sizeBytes_le_liveBytes hnode)⟩)
  obtain ⟨peakNode, hpeakNode⟩ := Option.isSome_iff_exists.mp hpeak
  unfold analyze
  simp only [calculatePeakMemory_eq_ok closed, calculateMemoryTimeline_eq_ok closed, hplan]
  simp only [bind, Except.bind, hpeakNode]
  exact ⟨_, rfl⟩

/-! ### The size of a plan -/

/-- The memory that separate buffers for the first `j` tensors would take. -/
def separateBytes (g : CustomGraph ν) (j : ℕ) : ℕ :=
  ((g.executionOrder.take j).map OpNode.sizeBytes).sum

omit [DecidableEq ν] in
theorem separateBytes_succ {j : ℕ} (hj : g.executionOrder[j]? = some node) :
    separateBytes g (j + 1) = separateBytes g j + node.sizeBytes := by
  rw [separateBytes, take_add_one, hj]
  simp [separateBytes]

omit [DecidableEq ν] in
theorem separateBytes_mono {i j : ℕ} (h : i ≤ j) : separateBytes g i ≤ separateBytes g j := by
  refine List.Sublist.sum_le_sum ?_ fun _ _ => Nat.zero_le _
  exact (take_sublist_take_left h).map _

section

variable {plan : ReusePlan ν} (h : generateOptimizedReusePlan g = .ok plan)
  (ready : AliasesReady g)
include h ready

/-- A tensor ends no later than where it would with one buffer for each tensor before it. -/
theorem stop_le_separateBytes {j : ℕ} (hj : g.executionOrder[j]? = some node)
    (hpos : 0 < node.sizeBytes) :
    planOffset plan node.outputName + node.sizeBytes ≤ separateBytes g (j + 1) := by
  induction j using Nat.strong_induction_on generalizing node with
  | h j ih =>
    rw [separateBytes_succ hj]
    apply Nat.add_le_add_right
    rcases planOffset_cases h ready hj hpos with hzero | ⟨i, hlt, source, hi, hsize, hsource⟩
    · omega
    · -- either way the tensor starts no later than an earlier one ends
      have hstop := ih i hlt hi hsize
      have hmono := separateBytes_mono (g := g) (show i + 1 ≤ j by omega)
      rcases hsource with ⟨-, hbehind⟩ | hsame
      · omega
      · omega

/-- A plan takes no more memory than separate buffers for all tensors. -/
theorem totalBufferSizeBytes_le_sum :
    plan.totalBufferSizeBytes ≤ (g.executionOrder.map OpNode.sizeBytes).sum := by
  rcases total_eq_zero_or_stop h with hzero | ⟨j, node, hj, hpos, hstop⟩
  · omega
  · -- the tensor that ends last ends where separate buffers would end, or before
    obtain ⟨hlt, -⟩ := List.getElem?_eq_some_iff.mp hj
    calc plan.totalBufferSizeBytes = planOffset plan node.outputName + node.sizeBytes := hstop
      _ ≤ separateBytes g (j + 1) := stop_le_separateBytes h ready hj hpos
      _ ≤ separateBytes g g.executionOrder.length := separateBytes_mono hlt
      _ = (g.executionOrder.map OpNode.sizeBytes).sum := by rw [separateBytes, take_length]

end

end Graph
