import Mosaic.Graph.Conflicts
import Mosaic.Memory.BestFit

/-!
# The greedy coloring planner

This planner does not place the tensors in the order of their births. It places next the tensor
whose conflicting tensors have been given the most offsets, among those the one with the most
conflicts, and among those the one that the set of tensors left yields first. The tensor goes to
the smallest gap between the blocks it conflicts with.
-/

namespace Graph

variable {ν : Type} [DecidableEq ν]

/-! ### The planner -/

/-- The order in which a set of tensors is iterated, which may be any. -/
structure SetOrder (ν : Type) where
  arrange : List (OpNode ν) → List (OpNode ν)
  perm : ∀ nodes, (arrange nodes).Perm nodes

/-- The planner's variables. A node stands for the record of its tensor. -/
structure ColoringState (ν : Type) where
  allocatedBlocks : List (Block ν)
  reusePlan : List (ν × PlanEntry)
  uncolored : List (OpNode ν)
  neighborOffsets : ν → Finset ℕ

/-- The best tensor of a scan over the tensors left, with its two degrees. -/
structure Candidate (ν : Type) where
  bestTensor : Option (OpNode ν)
  bestSatDegree : ℤ
  bestConflictDegree : ℤ

def ColoringState.init (g : CustomGraph ν) : ColoringState ν :=
  ⟨[], [], tensors g, fun _ => ∅⟩

/-- The number of different offsets among the tensors that conflict with a tensor. -/
def ColoringState.satDegree (st : ColoringState ν) (node : OpNode ν) : ℕ :=
  (st.neighborOffsets node.outputName).card

/-- Replace the best tensor by one with a higher saturation degree, or the same and more
conflicts. -/
def considerTensor (g : CustomGraph ν) (st : ColoringState ν) (best : Candidate ν)
    (node : OpNode ν) : Candidate ν :=
  let satDegree : ℤ := st.satDegree node
  let conflictDegree : ℤ := (conflicts g node.outputName).card
  if satDegree > best.bestSatDegree ∨
      satDegree = best.bestSatDegree ∧ conflictDegree > best.bestConflictDegree then
    ⟨some node, satDegree, conflictDegree⟩
  else best

/-- The tensor to be placed next, none if no tensor is left. -/
def selectTensor (g : CustomGraph ν) (order : SetOrder ν) (st : ColoringState ν) :
    Option (OpNode ν) :=
  ((order.arrange st.uncolored).foldl (considerTensor g st) ⟨none, -1, -1⟩).bestTensor

/-- The blocks of the tensors that conflict with a tensor. -/
def conflictingBlocks (g : CustomGraph ν) (st : ColoringState ν) (name : ν) : List (Block ν) :=
  st.allocatedBlocks.filter fun block => block.tensorName ∈ conflicts g name

/-- The offset the planner chooses for a tensor. -/
def coloringOffset (g : CustomGraph ν) (st : ColoringState ν) (node : OpNode ν) : ℕ :=
  BestFit.bestFit Block.start Block.stop node.sizeBytes (conflictingBlocks g st node.outputName)

/-- Place a tensor. -/
def ColoringState.color (g : CustomGraph ν) (st : ColoringState ν) (node : OpNode ν) :
    ColoringState ν :=
  let offset := coloringOffset g st node
  { allocatedBlocks := st.allocatedBlocks ++ [⟨node.outputName, offset, offset + node.sizeBytes⟩]
    reusePlan := st.reusePlan ++ [(node.outputName,
      ⟨offset, node.sizeBytes, node.outputSpec.shape, node.outputSpec.dtype⟩)]
    uncolored := st.uncolored.filter fun other => other.outputName ≠ node.outputName
    -- only the tensors left are told
    neighborOffsets := fun name =>
      if name ∈ conflicts g node.outputName ∧ name ∈ st.uncolored.map OpNode.outputName then
        insert offset (st.neighborOffsets name)
      else st.neighborOffsets name }

/-- Place tensors, one in a round, until none is left. -/
def colorAll (g : CustomGraph ν) (order : SetOrder ν) : ℕ → ColoringState ν → ColoringState ν
  | 0, st => st
  | rounds + 1, st =>
    match selectTensor g order st with
    | some node => colorAll g order rounds (st.color g node)
    | none => st

/-- The plan. There is a round for every tensor. -/
def greedyColoringPlan (g : CustomGraph ν) (order : SetOrder ν) :
    Except (GraphError ν) (ReusePlan ν) := do
  let st := colorAll g order (tensors g).length (ColoringState.init g)
  let entries ← g.executionOrder.foldlM (addAliasEntry g) st.reusePlan
  return ⟨entries, (st.allocatedBlocks.map Block.stop).foldl max 0⟩

/-! ### The selection -/

section Selection

variable {g : CustomGraph ν} {st : ColoringState ν} {node : OpNode ν}

/-- The new candidate is the tensor or the old one, whichever has the higher degree. -/
theorem considerTensor_cases (g : CustomGraph ν) (st : ColoringState ν) (best : Candidate ν)
    (node : OpNode ν) :
    (considerTensor g st best node = best ∧ (st.satDegree node : ℤ) ≤ best.bestSatDegree) ∨
      (considerTensor g st best node).bestTensor = some node ∧
        (considerTensor g st best node).bestSatDegree = st.satDegree node ∧
        best.bestSatDegree ≤ st.satDegree node := by
  rw [considerTensor]
  by_cases hbetter : (st.satDegree node : ℤ) > best.bestSatDegree ∨
      (st.satDegree node : ℤ) = best.bestSatDegree ∧
        ((conflicts g node.outputName).card : ℤ) > best.bestConflictDegree
  · rw [if_pos hbetter]
    exact .inr ⟨rfl, rfl, by omega⟩
  · rw [if_neg hbetter]
    exact .inl ⟨rfl, by omega⟩

/-- A scan keeps a candidate whose saturation degree no tensor of the list exceeds. -/
theorem foldl_considerTensor (g : CustomGraph ν) (st : ColoringState ν) (nodes : List (OpNode ν))
    (best : Candidate ν) :
    best.bestSatDegree ≤ (nodes.foldl (considerTensor g st) best).bestSatDegree ∧
      (∀ node ∈ nodes,
        (st.satDegree node : ℤ) ≤ (nodes.foldl (considerTensor g st) best).bestSatDegree) ∧
      (nodes.foldl (considerTensor g st) best = best ∨ ∃ node ∈ nodes,
        (nodes.foldl (considerTensor g st) best).bestTensor = some node ∧
        (nodes.foldl (considerTensor g st) best).bestSatDegree = st.satDegree node) := by
  induction nodes generalizing best with
  | nil => exact ⟨le_rfl, nofun, .inl rfl⟩
  | cons node rest ih =>
    obtain ⟨hle, hall, hfound⟩ := ih (considerTensor g st best node)
    rw [List.foldl_cons]
    have hstep : best.bestSatDegree ≤ (considerTensor g st best node).bestSatDegree ∧
        (st.satDegree node : ℤ) ≤ (considerTensor g st best node).bestSatDegree := by
      rcases considerTensor_cases g st best node with ⟨hkept, hdegree⟩ | ⟨-, hdegree, hbest⟩
      · rw [hkept]
        exact ⟨le_rfl, hdegree⟩
      · rw [hdegree]
        exact ⟨hbest, le_rfl⟩
    refine ⟨hstep.1.trans hle, ?_, ?_⟩
    · intro other hother
      rcases List.mem_cons.mp hother with rfl | hother
      · exact hstep.2.trans hle
      · exact hall other hother
    · rcases hfound with hsame | ⟨other, hother, htensor, hdegree⟩
      · rw [hsame]
        rcases considerTensor_cases g st best node with ⟨hkept, -⟩ | ⟨htensor, hdegree, -⟩
        · exact .inl hkept
        · exact .inr ⟨node, List.mem_cons_self, htensor, hdegree⟩
      · exact .inr ⟨other, List.mem_cons_of_mem _ hother, htensor, hdegree⟩

variable {order : SetOrder ν}

theorem selectTensor_eq_some (h : selectTensor g order st = some node) :
    node ∈ st.uncolored ∧ ∀ other ∈ st.uncolored, st.satDegree other ≤ st.satDegree node := by
  have hmem (other : OpNode ν) : other ∈ order.arrange st.uncolored ↔ other ∈ st.uncolored :=
    (order.perm st.uncolored).mem_iff
  obtain ⟨-, hall, hsame | ⟨found, hfound, htensor, hdegree⟩⟩ :=
    foldl_considerTensor g st (order.arrange st.uncolored) ⟨none, -1, -1⟩
  · rw [selectTensor, hsame] at h
    cases h
  · obtain rfl := Option.some.inj (htensor.symm.trans h)
    refine ⟨(hmem found).mp hfound, fun other hother => ?_⟩
    have := hall other ((hmem other).mpr hother)
    omega

theorem selectTensor_eq_none (h : selectTensor g order st = none) : st.uncolored = [] := by
  by_contra hleft
  obtain ⟨node, hnode⟩ := List.exists_mem_of_ne_nil _ hleft
  obtain ⟨-, hall, hsame | ⟨_, -, htensor, -⟩⟩ :=
    foldl_considerTensor g st (order.arrange st.uncolored) ⟨none, -1, -1⟩
  · -- the start has a lower degree than any tensor
    have := hall node ((order.perm st.uncolored).mem_iff.mpr hnode)
    rw [hsame] at this
    dsimp only at this
    omega
  · rw [selectTensor, htensor] at h
    cases h

end Selection

end Graph
