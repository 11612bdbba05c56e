import Mosaic.Graph.PlannerSafety

/-!
# Layouts, and the outputs of a graph

A layout gives offsets to the tensors in execution order, each from the offsets before it. The plan
is the layout of a planner that takes for live what is still consumed. A tensor that no node
consumes is an output of the graph, and the planner takes it for dead as soon as it is placed.
-/

namespace Graph

open List Function

variable {ν : Type} [DecidableEq ν]

/-! ### Layouts -/

/-- The block of a node's output, from the offsets of all tensors. -/
def blockAt (offsets : ν → ℕ) (node : OpNode ν) : Block ν :=
  ⟨node.outputName, offsets node.outputName, offsets node.outputName + node.sizeBytes⟩

/-- The offsets that `pick` chooses, in execution order. -/
def layout (g : CustomGraph ν) (pick : (ν → ℕ) → ℕ → OpNode ν → ℕ) : ν → ℕ :=
  g.executionOrder.zipIdx.foldl
    (fun offsets entry =>
      update offsets entry.1.outputName (pick offsets entry.2 entry.1))
    fun _ => 0

/-- The offset of a nonempty tensor is chosen from the offsets of the nonempty tensors before. -/
def LooksBack (g : CustomGraph ν) (pick : (ν → ℕ) → ℕ → OpNode ν → ℕ) : Prop :=
  ∀ j node offsets offsets', g.executionOrder[j]? = some node → 0 < node.sizeBytes →
    (∀ i < j, ∀ earlier, g.executionOrder[i]? = some earlier → 0 < earlier.sizeBytes →
      offsets earlier.outputName = offsets' earlier.outputName) →
    pick offsets j node = pick offsets' j node

section Layout

variable {g : CustomGraph ν} {pick : (ν → ℕ) → ℕ → OpNode ν → ℕ} {j : ℕ} {node : OpNode ν}

private theorem foldl_pick_apply (nodes : List (OpNode ν)) (k : ℕ) (offsets : ν → ℕ) {name : ν}
    (hname : name ∉ nodes.map OpNode.outputName) :
    (nodes.zipIdx k).foldl (fun offsets entry =>
      update offsets entry.1.outputName (pick offsets entry.2 entry.1)) offsets name =
        offsets name := by
  induction nodes generalizing k offsets with
  | nil => rfl
  | cons first rest ih =>
    rw [map_cons, mem_cons, not_or] at hname
    rw [zipIdx_cons, foldl_cons, ih _ _ hname.2, update_of_ne hname.1]

/-- Later choices change no offset. -/
theorem layout_eq (looksBack : LooksBack g pick) (hj : g.executionOrder[j]? = some node)
    (hpos : 0 < node.sizeBytes) : layout g pick node.outputName = pick (layout g pick) j node := by
  obtain ⟨hlt, hget⟩ := List.getElem?_eq_some_iff.mp hj
  have hsplit : g.executionOrder =
      g.executionOrder.take j ++ node :: g.executionOrder.drop (j + 1) := by
    rw [← hget, ← drop_eq_getElem_cons hlt, take_append_drop]
  have hnodup := g.nodup
  rw [hsplit, map_append, map_cons] at hnodup
  obtain ⟨-, hlater, hdisj⟩ := nodup_append.mp hnodup
  -- the offsets before this node is reached
  generalize hbefore : ((g.executionOrder.take j).zipIdx).foldl (fun offsets entry =>
    update offsets entry.1.outputName (pick offsets entry.2 entry.1)) (fun _ => 0) = before
  have hlayout : layout g pick = ((g.executionOrder.drop (j + 1)).zipIdx (j + 1)).foldl
      (fun offsets entry =>
        update offsets entry.1.outputName (pick offsets entry.2 entry.1))
      (update before node.outputName (pick before j node)) := by
    have hlen : (g.executionOrder.take j).length = j := by
      rw [List.length_take]
      omega
    rw [layout, hsplit, zipIdx_append, foldl_append, zipIdx_cons, foldl_cons,
      ← hsplit, hbefore, hlen, zero_add]
  have hself : layout g pick node.outputName = pick before j node := by
    rw [hlayout, foldl_pick_apply _ _ _ (nodup_cons.mp hlater).1, update_self]
  rw [hself]
  refine looksBack j node _ _ hj hpos fun i hi earlier hearlier _ => ?_
  have hmem : earlier.outputName ∈ (g.executionOrder.take j).map OpNode.outputName :=
    mem_map_of_mem (mem_take_iff.mpr ⟨i, hi, hearlier⟩)
  have hne := hdisj _ hmem
  rw [hlayout, foldl_pick_apply _ _ _ fun h => hne _ (mem_cons_of_mem _ h) rfl,
    update_of_ne (hne _ mem_cons_self)]

/-- Offsets that are chosen in the same way are the same. -/
theorem eq_layout (looksBack : LooksBack g pick) {offsets : ν → ℕ}
    (chosen : ∀ j node, g.executionOrder[j]? = some node → 0 < node.sizeBytes →
      (∀ i < j, ∀ earlier, g.executionOrder[i]? = some earlier → 0 < earlier.sizeBytes →
        offsets earlier.outputName = layout g pick earlier.outputName) →
      offsets node.outputName = pick offsets j node)
    (hj : g.executionOrder[j]? = some node) (hpos : 0 < node.sizeBytes) :
    offsets node.outputName = layout g pick node.outputName := by
  induction j using Nat.strong_induction_on generalizing node with
  | h j ih =>
    have hbefore : ∀ i < j, ∀ earlier, g.executionOrder[i]? = some earlier →
        0 < earlier.sizeBytes →
          offsets earlier.outputName = layout g pick earlier.outputName :=
      fun i hi earlier hearlier hsize => ih i hi hearlier hsize
    rw [chosen j node hj hpos hbefore, layout_eq looksBack hj hpos]
    exact looksBack j node _ _ hj hpos hbefore

omit [DecidableEq ν] in
/-- The blocks of nonempty tensors before a position depend on their offsets only. -/
theorem map_blockAt_congr {nodes : List (OpNode ν)} {offsets offsets' : ν → ℕ}
    (hnodes : ∀ earlier ∈ nodes, ∃ i < j, g.executionOrder[i]? = some earlier ∧
      0 < earlier.sizeBytes)
    (same : ∀ i < j, ∀ earlier, g.executionOrder[i]? = some earlier → 0 < earlier.sizeBytes →
      offsets earlier.outputName = offsets' earlier.outputName) :
    nodes.map (blockAt offsets) = nodes.map (blockAt offsets') := by
  refine map_congr_left fun earlier hearlier => ?_
  obtain ⟨i, hi, hget, hsize⟩ := hnodes earlier hearlier
  rw [blockAt, blockAt, same i hi earlier hget hsize]

theorem liveNodes_before {earlier : OpNode ν} (h : earlier ∈ liveNodes g j) :
    ∃ i < j, g.executionOrder[i]? = some earlier ∧ 0 < earlier.sizeBytes := by
  obtain ⟨i, hi, hget, hsize, -⟩ := mem_liveNodes.mp h
  exact ⟨i, hi, hget, hsize⟩

end Layout

/-! ### Outputs -/

/-- No node consumes the tensor. -/
def Unread (g : CustomGraph ν) (name : ν) : Prop :=
  ∀ consumer ∈ g.executionOrder, name ∉ consumer.inputNames

instance (g : CustomGraph ν) : DecidablePred (Unread g) := fun name =>
  inferInstanceAs (Decidable (∀ consumer ∈ g.executionOrder, name ∉ consumer.inputNames))

/-- No tensor that is placed after an output of the graph shares a byte with it. -/
def OutputsSurvive (g : CustomGraph ν) (plan : ReusePlan ν) : Prop :=
  ∀ (i j : ℕ) (output later : OpNode ν), i < j → g.executionOrder[i]? = some output →
    0 < output.sizeBytes → Unread g output.outputName →
    g.executionOrder[j]? = some later → 0 < later.sizeBytes →
    FirstFit.Separate Block.start Block.stop (nodeBlock plan output) (nodeBlock plan later)

/-- The nonempty nodes before position `j` that are consumed at or after it, or never. -/
def keptNodes (g : CustomGraph ν) (j : ℕ) : List (OpNode ν) :=
  ((g.executionOrder.take j).filter fun node => 0 < node.sizeBytes).filter fun node =>
    (j : ℤ) ≤ (deaths g node.outputName).getD g.names.length ∨ Unread g node.outputName

/-- Every tensor at the least offset at which it spares the live tensors and the outputs. -/
def keptLayout (g : CustomGraph ν) : ν → ℕ :=
  layout g fun offsets j node => FirstFit.leastOffset Block.start Block.stop node.sizeBytes
    ((keptNodes g j).map (blockAt offsets))

/-- In the layout that spares the outputs, every lower place for a tensor is taken by tensors that
are still consumed. -/
def OutputsOutOfTheWay (g : CustomGraph ν) : Prop :=
  ∀ j node, g.executionOrder[j]? = some node → 0 < node.sizeBytes →
    ∀ offset < keptLayout g node.outputName,
      offset ∉ FirstFit.Feasible Block.start Block.stop node.sizeBytes
        ((liveNodes g j).map (blockAt (keptLayout g)))

section Outputs

variable {g : CustomGraph ν} {plan : ReusePlan ν} {i j : ℕ} {node earlier : OpNode ν}

theorem mem_keptNodes : earlier ∈ keptNodes g j ↔ earlier ∈ liveNodes g j ∨
    ∃ i < j, g.executionOrder[i]? = some earlier ∧ 0 < earlier.sizeBytes ∧
      Unread g earlier.outputName := by
  simp only [keptNodes, liveNodes, mem_filter, mem_take_iff, decide_eq_true_eq]
  constructor
  · rintro ⟨⟨⟨i, hi, hget⟩, hsize⟩, hlive | hunread⟩
    · exact .inl ⟨⟨⟨i, hi, hget⟩, hsize⟩, hlive⟩
    · exact .inr ⟨i, hi, hget, hsize, hunread⟩
  · rintro (⟨hbefore, hlive⟩ | ⟨i, hi, hget, hsize, hunread⟩)
    · exact ⟨hbefore, .inl hlive⟩
    · exact ⟨⟨⟨i, hi, hget⟩, hsize⟩, .inr hunread⟩

theorem keptNodes_before (h : earlier ∈ keptNodes g j) :
    ∃ i < j, g.executionOrder[i]? = some earlier ∧ 0 < earlier.sizeBytes := by
  rcases mem_keptNodes.mp h with hlive | ⟨i, hi, hget, hsize, -⟩
  · exact liveNodes_before hlive
  · exact ⟨i, hi, hget, hsize⟩

theorem keptLayout_looksBack (g : CustomGraph ν) :
    LooksBack g fun offsets j node => FirstFit.leastOffset Block.start Block.stop node.sizeBytes
      ((keptNodes g j).map (blockAt offsets)) := by
  intro j node offsets offsets' _ _ same
  dsimp only
  rw [map_blockAt_congr (fun _ h => keptNodes_before h) same]

/-- The layout spares what it keeps, and puts nothing higher than it must. -/
theorem keptLayout_isLeast (hj : g.executionOrder[j]? = some node) (hpos : 0 < node.sizeBytes) :
    IsLeast (FirstFit.Feasible Block.start Block.stop node.sizeBytes
      ((keptNodes g j).map (blockAt (keptLayout g)))) (keptLayout g node.outputName) := by
  have hchoice : keptLayout g node.outputName = FirstFit.leastOffset Block.start Block.stop
      node.sizeBytes ((keptNodes g j).map (blockAt (keptLayout g))) :=
    layout_eq (keptLayout_looksBack g) hj hpos
  rw [hchoice]
  exact FirstFit.leastOffset_isLeast _ _

/-- Among the live tensors, a tensor of an alias-free plan is put at the least offset. -/
theorem planOffset_isLeast_of_unaliased (h : generateOptimizedReusePlan g = .ok plan)
    (unaliased : g.aliases = []) (hj : g.executionOrder[j]? = some node)
    (hpos : 0 < node.sizeBytes) :
    IsLeast (FirstFit.Feasible Block.start Block.stop node.sizeBytes
      ((liveNodes g j).map (blockAt (planOffset plan)))) (planOffset plan node.outputName) :=
  planOffset_isLeast h hj hpos (by rw [unaliased]; rfl)
    (liveBlocks_pairwise h fun _ _ _ _ => by rw [unaliased]; rfl)

/-- If the outputs survive, a tensor is put at the least offset that spares them. -/
theorem OutputsSurvive.planOffset_eq (survive : OutputsSurvive g plan)
    (h : generateOptimizedReusePlan g = .ok plan) (unaliased : g.aliases = [])
    (hj : g.executionOrder[j]? = some node) (hpos : 0 < node.sizeBytes) :
    planOffset plan node.outputName = keptLayout g node.outputName := by
  refine eq_layout (keptLayout_looksBack g) (fun j node hj hpos _ => ?_) hj hpos
  have hleast := planOffset_isLeast_of_unaliased h unaliased hj hpos
  refine IsLeast.unique ⟨?_, ?_⟩ (FirstFit.leastOffset_isLeast _ _)
  · intro block hblock
    obtain ⟨kept, hkept, rfl⟩ := mem_map.mp hblock
    rcases mem_keptNodes.mp hkept with hlive | ⟨i, hi, hget, hsize, hunread⟩
    · exact hleast.1 _ (mem_map_of_mem hlive)
    · exact (survive i j kept node hi hget hsize hunread hj hpos).symm
  · -- what spares the outputs too spares the live tensors
    intro offset hoff
    refine hleast.2 fun block hblock => ?_
    obtain ⟨live, hlive, rfl⟩ := mem_map.mp hblock
    exact hoff _ (mem_map_of_mem (mem_keptNodes.mpr (.inl hlive)))

/-- If the outputs are out of the way, the planner puts every tensor where it spares them. -/
theorem OutputsOutOfTheWay.planOffset_eq (away : OutputsOutOfTheWay g)
    (h : generateOptimizedReusePlan g = .ok plan) (unaliased : g.aliases = [])
    (hj : g.executionOrder[j]? = some node) (hpos : 0 < node.sizeBytes) :
    planOffset plan node.outputName = keptLayout g node.outputName := by
  induction j using Nat.strong_induction_on generalizing node with
  | h j ih =>
    have hplan := planOffset_isLeast_of_unaliased h unaliased hj hpos
    have hsame : (liveNodes g j).map (blockAt (planOffset plan)) =
        (liveNodes g j).map (blockAt (keptLayout g)) :=
      map_blockAt_congr (fun _ hlive => liveNodes_before hlive) fun i hi _ hget hsize =>
        ih i hi hget hsize
    rw [hsame] at hplan
    refine le_antisymm (hplan.2 ?_) (not_lt.mp fun hlt => away j node hj hpos _ hlt hplan.1)
    intro block hblock
    obtain ⟨_, hlive, rfl⟩ := mem_map.mp hblock
    exact (keptLayout_isLeast hj hpos).1 _
      (mem_map_of_mem (mem_keptNodes.mpr (.inl hlive)))

theorem outputsSurvive_iff (h : generateOptimizedReusePlan g = .ok plan)
    (unaliased : g.aliases = []) : OutputsSurvive g plan ↔ OutputsOutOfTheWay g := by
  constructor
  · intro survive j node hj hpos offset hlt hfree
    have hsame : (liveNodes g j).map (blockAt (planOffset plan)) =
        (liveNodes g j).map (blockAt (keptLayout g)) :=
      map_blockAt_congr (fun _ hlive => liveNodes_before hlive) fun _ _ _ hget hsize =>
        survive.planOffset_eq h unaliased hget hsize
    have hleast := planOffset_isLeast_of_unaliased h unaliased hj hpos
    rw [hsame] at hleast
    have hle := hleast.2 hfree
    rw [survive.planOffset_eq h unaliased hj hpos] at hle
    omega
  · intro away i j output later hlt hi hsize hunread hj hpos
    have hkept : output ∈ keptNodes g j :=
      mem_keptNodes.mpr (.inr ⟨i, hlt, hi, hsize, hunread⟩)
    have hclear := (keptLayout_isLeast hj hpos).1 _ (mem_map_of_mem hkept)
    rw [← away.planOffset_eq h unaliased hj hpos] at hclear
    rcases hclear with hbelow | habove
    · refine .inr ?_
      dsimp only [nodeBlock, blockAt] at hbelow ⊢
      rw [away.planOffset_eq h unaliased hi hsize]
      exact hbelow
    · refine .inl ?_
      dsimp only [nodeBlock, blockAt] at habove ⊢
      rw [away.planOffset_eq h unaliased hi hsize]
      exact habove

/-- Outputs are out of the way of what was placed before them. -/
theorem outputsOutOfTheWay_of_last
    (last : g.executionOrder.Pairwise fun output later =>
      0 < output.sizeBytes → Unread g output.outputName → later.sizeBytes = 0) :
    OutputsOutOfTheWay g := by
  intro j node hj hpos offset hlt hfree
  have hle := (keptLayout_isLeast hj hpos).2 (show offset ∈ _ from fun block hblock => by
    obtain ⟨_, hkept, rfl⟩ := mem_map.mp hblock
    rcases mem_keptNodes.mp hkept with hlive | ⟨i, hi, hget, hsize, hunread⟩
    · exact hfree _ (mem_map_of_mem hlive)
    · obtain ⟨hi', rfl⟩ := List.getElem?_eq_some_iff.mp hget
      obtain ⟨hj', rfl⟩ := List.getElem?_eq_some_iff.mp hj
      have hempty := pairwise_iff_getElem.mp last i j hi' hj' hi hsize hunread
      omega)
  omega

end Outputs

/-- Plans of graphs without aliases. No later tensor is put on an output of the graph if and only
if, in the layout that spares the outputs, no tensor would fit lower without them. -/
theorem outputs_survive_iff {calls : List (CustomGraph.OpCall ν)} {g : CustomGraph ν}
    (built : (CustomGraph.empty ν).addOps calls = .ok g) :
    ∃ plan, generateOptimizedReusePlan g = .ok plan ∧
      (OutputsSurvive g plan ↔ OutputsOutOfTheWay g) := by
  have halias : g.aliases = [] := (CustomGraph.addOps_eq_ok built).2
  obtain ⟨plan, h⟩ := exists_plan (g := g) fun j node _ _ source target hfind => by
    simp [halias] at hfind
  exact ⟨plan, h, outputsSurvive_iff h halias⟩

/-- The second tensor is an output. The two behind it find their places below it. -/
def belowCalls : List (CustomGraph.OpCall ℕ) :=
  [⟨0, "input", [], [2, 5], .bfloat16⟩, ⟨1, "gemm", [0], [2, 3], .bfloat16⟩,
    ⟨2, "input", [], [2, 3], .bfloat16⟩, ⟨3, "gemm", [2], [2, 2], .bfloat16⟩]

theorem outputs_survive_iff_below :
    ∃ g plan, (CustomGraph.empty ℕ).addOps belowCalls = .ok g ∧ Unread g 1 ∧
      generateOptimizedReusePlan g = .ok plan ∧
      (plan.entries.map fun entry => entry.2.offset) = [0, 20, 0, 12] ∧
      OutputsSurvive g plan := by
  obtain ⟨g, hg⟩ : ∃ g, (CustomGraph.empty ℕ).addOps belowCalls = .ok g := ⟨_, rfl⟩
  obtain ⟨plan, hplan, hiff⟩ := outputs_survive_iff hg
  have hall : ∀ entry ∈ g.executionOrder.zipIdx, 0 < entry.1.sizeBytes →
      ∀ offset < keptLayout g entry.1.outputName,
        offset ∉ FirstFit.Feasible Block.start Block.stop entry.1.sizeBytes
          ((liveNodes g entry.2).map (blockAt (keptLayout g))) := by
    cases hg
    decide +kernel
  have away : OutputsOutOfTheWay g := fun j node hj =>
    hall (node, j) (List.mk_mem_zipIdx_iff_getElem?.mpr hj)
  refine ⟨g, plan, hg, ?_, hplan, ?_, hiff.mpr away⟩
  · rw [Unread, (CustomGraph.addOps_eq_ok hg).1]
    decide
  · cases hg
    cases hplan
    decide +kernel

/-- Two operations of which nothing reads the first. -/
def unreadCalls : List (CustomGraph.OpCall ℕ) :=
  [⟨0, "input", [], [2, 3], .bfloat16⟩, ⟨1, "input", [], [2, 3], .bfloat16⟩]

/-- The second tensor is put on the first one. -/
theorem output_overwritten : ¬ ∀ (calls : List (CustomGraph.OpCall ℕ)) (g : CustomGraph ℕ),
    (CustomGraph.empty ℕ).addOps calls = .ok g → g.Topological →
      ∃ plan, generateOptimizedReusePlan g = .ok plan ∧ OutputsSurvive g plan := by
  intro hall
  obtain ⟨g, hg⟩ : ∃ g, (CustomGraph.empty ℕ).addOps unreadCalls = .ok g := ⟨_, rfl⟩
  have horder := (CustomGraph.addOps_eq_ok hg).1
  have topological : g.Topological := CustomGraph.topological_of_order horder (by decide)
  obtain ⟨plan, hplan, hsurvive⟩ := hall unreadCalls g hg topological
  have hapart := hsurvive 0 1 (CustomGraph.OpCall.node ⟨0, "input", [], [2, 3], .bfloat16⟩)
    (CustomGraph.OpCall.node ⟨1, "input", [], [2, 3], .bfloat16⟩) Nat.zero_lt_one
    (by rw [horder]; rfl) (by decide) (by rw [Unread, horder]; decide) (by rw [horder]; rfl)
    (by decide)
  have hoffsets : planOffset plan 0 = 0 ∧ planOffset plan 1 = 0 := by
    cases hg
    cases hplan
    decide
  dsimp only [FirstFit.Separate, nodeBlock, CustomGraph.OpCall.node] at hapart
  rw [hoffsets.1, hoffsets.2] at hapart
  rcases hapart with h | h <;> exact absurd h (by decide)

end Graph
