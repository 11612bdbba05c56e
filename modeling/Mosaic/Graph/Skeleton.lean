import Mosaic.Graph.PlannerSafety

/-!
# Lifetimes from names alone

Which tensors are live together depends on the names in a graph and not on the sizes. For a
graph whose names are known and whose sizes are symbolic, lifetimes can therefore be computed,
and the placement of each tensor becomes a system of inequalities between offsets.
-/

namespace Graph

open List

variable {ν : Type} [DecidableEq ν]

/-- The output and input names of the nodes, in execution order. -/
def skeleton (g : CustomGraph ν) : List (ν × List ν) :=
  g.executionOrder.map fun node => (node.outputName, node.inputNames)

/-- Some node at or after position `j` consumes the tensor. -/
def consumedFrom (order : List (ν × List ν)) (j : ℕ) (name : ν) : Bool :=
  (order.drop j).any fun node => name ∈ node.2

/-- The tensors produced before position `j` and consumed at or after it. -/
def liveNames (order : List (ν × List ν)) (j : ℕ) : List ν :=
  ((order.take j).map Prod.fst).filter (consumedFrom order j)

/-- The tensor `later` is produced while `earlier` is still to be consumed. -/
def LiveTogether (order : List (ν × List ν)) (earlier later : ν) : Prop :=
  later ∈ order.map Prod.fst ∧ earlier ∈ liveNames order ((order.map Prod.fst).idxOf later)

instance (order : List (ν × List ν)) (earlier later : ν) :
    Decidable (LiveTogether order earlier later) :=
  inferInstanceAs (Decidable (_ ∧ _))

variable {g : CustomGraph ν}

omit [DecidableEq ν] in
theorem skeleton_get {j : ℕ} {name : ν} {inputs : List ν}
    (h : (skeleton g)[j]? = some (name, inputs)) :
    ∃ node, g.executionOrder[j]? = some node ∧ node.outputName = name ∧
      node.inputNames = inputs := by
  rw [skeleton, getElem?_map] at h
  obtain ⟨node, hnode, heq⟩ := Option.map_eq_some_iff.mp h
  exact ⟨node, hnode, congrArg Prod.fst heq, congrArg Prod.snd heq⟩

theorem consumedFrom_skeleton {j : ℕ} {name : ν} : consumedFrom (skeleton g) j name = true ↔
      ∃ k consumer, j ≤ k ∧ g.executionOrder[k]? = some consumer ∧
        name ∈ consumer.inputNames := by
  simp only [consumedFrom, skeleton, ← map_drop, any_map, any_eq_true,
    Function.comp_apply, decide_eq_true_eq]
  constructor
  · rintro ⟨consumer, hmem, hin⟩
    obtain ⟨i, hi⟩ := mem_iff_getElem?.mp hmem
    rw [getElem?_drop] at hi
    exact ⟨j + i, consumer, by omega, hi, hin⟩
  · rintro ⟨k, consumer, hle, hk, hin⟩
    refine ⟨consumer, mem_iff_getElem?.mpr ⟨k - j, ?_⟩, hin⟩
    rwa [getElem?_drop, show j + (k - j) = k by omega]

theorem mem_liveNames_skeleton {j : ℕ} {name : ν} :
    name ∈ liveNames (skeleton g) j ↔ ∃ i < j, ∃ node, g.executionOrder[i]? = some node ∧
      node.outputName = name ∧
      ∃ k consumer, j ≤ k ∧ g.executionOrder[k]? = some consumer ∧
        name ∈ consumer.inputNames := by
  rw [liveNames, mem_filter, consumedFrom_skeleton]
  constructor
  · rintro ⟨hmem, hconsumed⟩
    obtain ⟨_, hentry, rfl⟩ := mem_map.mp hmem
    obtain ⟨i, hlt, hi⟩ := mem_take_iff.mp hentry
    obtain ⟨node, hnode, hname, -⟩ := skeleton_get hi
    exact ⟨i, hlt, node, hnode, hname, hconsumed⟩
  · rintro ⟨i, hlt, node, hi, rfl, hconsumed⟩
    refine ⟨mem_map.mpr ⟨(node.outputName, node.inputNames), ?_, rfl⟩, hconsumed⟩
    exact mem_take_iff.mpr ⟨i, hlt, by simp [skeleton, hi]⟩

section Plan

variable {g : CustomGraph ν} {plan : ReusePlan ν} {j : ℕ} {name earlier : ν} {inputs : List ν}

/-- The first address behind a tensor. -/
def planStop (g : CustomGraph ν) (plan : ReusePlan ν) (name : ν) : ℕ :=
  planOffset plan name + g.tensorSize name

/-- Over nonempty tensors, the feasible offsets among the live blocks are the offsets that miss
the live names. -/
theorem feasible_liveBlocks (nonempty : ∀ node ∈ g.executionOrder, 0 < node.sizeBytes)
    (size : ℕ) :
    FirstFit.Feasible Block.start Block.stop size (liveBlocks g plan j) =
      FirstFit.Feasible (planOffset plan) (planStop g plan) size (liveNames (skeleton g) j) := by
  ext offset
  constructor
  · intro h name hname
    obtain ⟨i, hlt, node, hi, rfl, hconsumed⟩ := mem_liveNames_skeleton.mp hname
    have hlive : node ∈ liveNodes g j :=
      mem_liveNodes.mpr ⟨i, hlt, hi, nonempty node (mem_of_getElem? hi), hconsumed⟩
    have := h _ (mem_map_of_mem hlive)
    rwa [FirstFit.Clear, planStop, CustomGraph.tensorSize_eq hi]
  · intro h block hblock
    obtain ⟨node, hnode, rfl⟩ := mem_map.mp hblock
    obtain ⟨i, hlt, hi, -, hconsumed⟩ := mem_liveNodes.mp hnode
    have := h node.outputName (mem_liveNames_skeleton.mpr ⟨i, hlt, node, hi, rfl, hconsumed⟩)
    rwa [FirstFit.Clear, planStop, CustomGraph.tensorSize_eq hi] at this

section

variable (h : generateOptimizedReusePlan g = .ok plan)
  (nonempty : ∀ node ∈ g.executionOrder, 0 < node.sizeBytes)
  (hj : (skeleton g)[j]? = some (name, inputs))
include h nonempty hj

/-- Among separate live blocks, a tensor without alias lies at the least offset that misses the
live tensors. -/
theorem offset_isLeast_of_separate (halias : g.aliases.find? (fun link => link.1 = name) = none)
    (separate : (liveBlocks g plan j).Pairwise (FirstFit.Separate Block.start Block.stop)) :
    IsLeast (FirstFit.Feasible (planOffset plan) (planStop g plan) (g.tensorSize name)
      (liveNames (skeleton g) j)) (planOffset plan name) := by
  -- from positions and nodes, in which the planner is stated, to names
  obtain ⟨node, hnode, rfl, -⟩ := skeleton_get hj
  have hpos := nonempty node (mem_of_getElem? hnode)
  rw [CustomGraph.tensorSize_eq hnode, ← feasible_liveBlocks nonempty]
  exact planOffset_isLeast h hnode hpos halias separate

/-- Before the first alias, a tensor lies at the least offset that misses the live tensors. -/
theorem offset_isLeast (unaliased : UnaliasedBefore g (j + 1)) :
    IsLeast (FirstFit.Feasible (planOffset plan) (planStop g plan) (g.tensorSize name)
      (liveNames (skeleton g) j)) (planOffset plan name) := by
  obtain ⟨node, hnode, rfl, -⟩ := skeleton_get hj
  exact offset_isLeast_of_separate h nonempty hj (unaliased j (by omega) node hnode)
    (liveBlocks_pairwise h (unaliased.mono (by omega)))

end

theorem length_liveBlocks_le :
    (liveBlocks g plan j).length ≤ (liveNames (skeleton g) j).length := by
  have hnames : liveNames (skeleton g) j = ((g.executionOrder.take j).filter fun node =>
      consumedFrom (skeleton g) j node.outputName).map OpNode.outputName := by
    rw [liveNames, skeleton, ← List.map_take, List.map_map, filter_map]
    rfl
  -- both sides count nodes before `j`, and the live blocks those of them that are not empty
  rw [hnames, liveBlocks, length_map, length_map, liveNodes, filter_filter,
    ← countP_eq_length_filter, ← countP_eq_length_filter]
  refine countP_mono_left fun node hnode hboth => ?_
  obtain ⟨_, -, hi⟩ := mem_take_iff.mp hnode
  rw [Bool.and_eq_true, decide_eq_true_eq] at hboth
  exact consumedFrom_skeleton.mpr ((le_deaths_iff g (mem_names g hi) j _).mp hboth.1)

/-- Where at most one tensor is live, aliases before do no harm. -/
theorem offset_isLeast_of_length_le (h : generateOptimizedReusePlan g = .ok plan)
    (nonempty : ∀ node ∈ g.executionOrder, 0 < node.sizeBytes)
    (hj : (skeleton g)[j]? = some (name, inputs))
    (halias : g.aliases.find? (fun link => link.1 = name) = none)
    (few : (liveNames (skeleton g) j).length ≤ 1) :
    IsLeast (FirstFit.Feasible (planOffset plan) (planStop g plan) (g.tensorSize name)
      (liveNames (skeleton g) j)) (planOffset plan name) := by
  refine offset_isLeast_of_separate h nonempty hj halias ?_
  -- a list of at most one block is pairwise separate for lack of pairs
  have hlen : (liveBlocks g plan j).length ≤ 1 := length_liveBlocks_le.trans few
  match hblocks : liveBlocks g plan j with
  | [] => exact List.Pairwise.nil
  | [block] => exact pairwise_singleton _ _
  | block :: block' :: rest =>
    rw [hblocks] at hlen
    simp at hlen

/-- Tensors that are live together share no address. -/
theorem apart_of_liveTogether (h : generateOptimizedReusePlan g = .ok plan)
    (unaliased : UnaliasedBefore g (births g name + 1))
    (live : LiveTogether (skeleton g) earlier name) :
    Arena.Apart (planOffset plan) (tensorView g earlier) (tensorView g name) := by
  obtain ⟨hname, hearlier⟩ := live
  have hnames : (skeleton g).map Prod.fst = g.names := by
    simp [skeleton, CustomGraph.names, Function.comp_def]
  rw [hnames] at hname hearlier
  obtain ⟨node, hnode, rfl⟩ := mem_map.mp hname
  obtain ⟨j, hj⟩ := mem_iff_getElem?.mp hnode
  have hbirth : g.names.idxOf node.outputName = j := births_eq g hj
  rw [births_eq g hj] at unaliased
  rw [hbirth] at hearlier
  obtain ⟨_, hlt, _, hi, rfl, hconsumed⟩ := mem_liveNames_skeleton.mp hearlier
  exact apart_of_live h unaliased hj hlt hi hconsumed

end Plan

end Graph
