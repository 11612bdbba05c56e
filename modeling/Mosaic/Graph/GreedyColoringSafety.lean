import Mosaic.Graph.GreedyColoring
import Mosaic.Interval.CardinalitySearch

/-!
# Safety of the greedy coloring

The gap scan remembers only the end of the last block, which is right when the blocks it walks over
share no byte. They are the blocks of tensors that conflict with the tensor to be placed, and
nothing the planner checks makes them conflict with each other. That they do is a property of the
order of the placements: lifetimes are intervals, and as long as the blocks of the tensors that
conflict with a tensor are separate, the saturation degree counts them.
-/

namespace Graph

open List

variable {ν : Type} [DecidableEq ν]

/-! ### The invariant -/

/-- The names of the tensors to be placed. -/
def tensorNames (g : CustomGraph ν) : List ν :=
  (tensors g).map OpNode.outputName

/-- The names of the tensors placed so far. -/
def ColoringState.placedNames (st : ColoringState ν) : List ν :=
  st.allocatedBlocks.map Block.tensorName

/-- Every tensor is placed or left, the blocks are those of the plan, conflicting blocks are
separate, a tensor without conflicts is at the start of the buffer, the tensors left know the
offsets of the blocks they conflict with, and the placements so far are a search that always goes
on where most lifetimes meet. -/
structure ColoringInv (g : CustomGraph ν) (st : ColoringState ν) : Prop where
  blocks : st.allocatedBlocks = st.reusePlan.map fun entry => entry.2.block entry.1
  nodes : ∀ entry ∈ st.reusePlan, ∃ node ∈ tensors g,
    entry.1 = node.outputName ∧ entry.2.size = node.sizeBytes
  left : ∀ node ∈ st.uncolored, node ∈ tensors g
  names : (st.placedNames ++ st.uncolored.map OpNode.outputName).Perm (tensorNames g)
  search : CardinalitySearch.Search (fun name => (births g name : ℤ)) (deathOf g)
    (tensorNames g).toFinset st.placedNames.toFinset
  separate : ∀ a ∈ st.allocatedBlocks, ∀ b ∈ st.allocatedBlocks,
    b.tensorName ∈ conflicts g a.tensorName → FirstFit.Separate Block.start Block.stop a b
  isolated : ∀ entry ∈ st.reusePlan, conflicts g entry.1 = ∅ → entry.2.offset = 0
  offsets : ∀ node ∈ st.uncolored, st.neighborOffsets node.outputName =
    ((conflictingBlocks g st node.outputName).map Block.start).toFinset

theorem coloringInv_init (g : CustomGraph ν) : ColoringInv g (ColoringState.init g) where
  blocks := rfl
  nodes := nofun
  left _ h := h
  names := List.Perm.refl _
  search := .start
  separate := nofun
  isolated := nofun
  offsets _ _ := rfl

/-- Two different tensors conflict exactly when their lifetimes meet. -/
theorem meets_iff {g : CustomGraph ν} (topological : g.Topological) {i j : ν}
    (hi : i ∈ tensorNames g) (hj : j ∈ tensorNames g) (hne : i ≠ j) :
    CardinalitySearch.Meets (fun name => (births g name : ℤ)) (deathOf g) i j ↔
      j ∈ conflicts g i := by
  constructor
  · rintro ⟨-, -, hij, hji⟩
    exact mem_conflicts.mpr ⟨hi, hj, hne, hji, hij⟩
  · intro h
    obtain ⟨-, -, -, hji, hij⟩ := mem_conflicts.mp h
    -- both are consumed, so neither lifetime is empty
    have proper {k : ν} (hk : k ∈ tensorNames g) (hnonneg : 0 ≤ deathOf g k) :
        (births g k : ℤ) ≤ deathOf g k := by
      obtain ⟨_, hnode, rfl⟩ := mem_map.mp hk
      have hmem := (mem_tensors.mp hnode).1
      exact (births_lt_deathOf topological hmem ((consumed_iff hmem).mpr hnonneg)).le
    exact ⟨proper hi (by omega), proper hj (by omega), hij, hji⟩

section Invariant

variable {g : CustomGraph ν} {st : ColoringState ν} {node : OpNode ν}

theorem mem_conflictingBlocks {name : ν} {block : Block ν} :
    block ∈ conflictingBlocks g st name ↔
      block ∈ st.allocatedBlocks ∧ block.tensorName ∈ conflicts g name := by
  simp [conflictingBlocks]

theorem ColoringInv.proper (inv : ColoringInv g st) {block : Block ν}
    (h : block ∈ st.allocatedBlocks) : block.start < block.stop := by
  rw [inv.blocks] at h
  obtain ⟨entry, hentry, rfl⟩ := mem_map.mp h
  obtain ⟨_, hnode, -, hsize⟩ := inv.nodes entry hentry
  have := (mem_tensors.mp hnode).2.1
  simp only [PlanEntry.block]
  omega

theorem ColoringInv.distinct (inv : ColoringInv g st) :
    (st.placedNames ++ st.uncolored.map OpNode.outputName).Nodup :=
  inv.names.nodup_iff.mpr (nodup_tensors g)

theorem ColoringInv.mem_tensorNames (inv : ColoringInv g st) {name : ν}
    (h : name ∈ st.placedNames) : name ∈ tensorNames g :=
  inv.names.subset (mem_append_left _ h)

/-- A tensor left has not been placed. -/
theorem ColoringInv.fresh (inv : ColoringInv g st) (hnode : node ∈ st.uncolored) :
    node.outputName ∉ st.placedNames := fun hplaced =>
  (nodup_append.mp inv.distinct).2.2 _ hplaced _ (mem_map_of_mem hnode) rfl

/-- The placed tensors that conflict with a tensor left are those whose lifetimes meet its own. -/
theorem ColoringInv.neighbours_eq (inv : ColoringInv g st) (topological : g.Topological)
    (hnode : node ∈ st.uncolored) :
    CardinalitySearch.neighbours (fun name => (births g name : ℤ)) (deathOf g)
        st.placedNames.toFinset node.outputName =
      ((conflictingBlocks g st node.outputName).map Block.tensorName).toFinset := by
  have hname : node.outputName ∈ tensorNames g := mem_map_of_mem (inv.left node hnode)
  ext name
  rw [CardinalitySearch.mem_neighbours, mem_toFinset, mem_toFinset]
  constructor
  · rintro ⟨hplaced, hmeets⟩
    have hne : node.outputName ≠ name := fun heq => inv.fresh hnode (heq ▸ hplaced)
    obtain ⟨block, hblock, rfl⟩ := mem_map.mp hplaced
    have hconflict := (meets_iff topological hname (inv.mem_tensorNames hplaced) hne).mp hmeets
    exact mem_map_of_mem (mem_conflictingBlocks.mpr ⟨hblock, hconflict⟩)
  · intro hmem
    obtain ⟨block, hblock, rfl⟩ := mem_map.mp hmem
    obtain ⟨hplaced, hconflict⟩ := mem_conflictingBlocks.mp hblock
    have hplaced : block.tensorName ∈ st.placedNames := mem_map_of_mem hplaced
    have hne : node.outputName ≠ block.tensorName := fun heq => inv.fresh hnode (heq ▸ hplaced)
    exact ⟨hplaced, (meets_iff topological hname (inv.mem_tensorNames hplaced) hne).mpr hconflict⟩

theorem ColoringInv.nodup_conflicting (inv : ColoringInv g st) (name : ν) :
    ((conflictingBlocks g st name).map Block.tensorName).Nodup :=
  (nodup_append.mp inv.distinct).1.sublist (filter_sublist.map _)

section

variable (inv : ColoringInv g st) (topological : g.Topological) (hnode : node ∈ st.uncolored)
include inv topological hnode

/-- The blocks that conflict with a tensor left conflict with each other, so they are separate. -/
theorem ColoringInv.conflicting_separate : (conflictingBlocks g st node.outputName).Pairwise
      (FirstFit.Separate Block.start Block.stop) := by
  have hnames := inv.nodup_conflicting node.outputName
  rw [List.Nodup, pairwise_map] at hnames
  refine hnames.imp_of_mem fun {a b} ha hb hne => ?_
  -- both are neighbours of the tensor in the search
  have neighbour {c : Block ν} (hc : c ∈ conflictingBlocks g st node.outputName) :
      c.tensorName ∈ CardinalitySearch.neighbours (fun name => (births g name : ℤ)) (deathOf g)
        st.placedNames.toFinset node.outputName := by
    rw [inv.neighbours_eq topological hnode, mem_toFinset]
    exact mem_map_of_mem hc
  obtain ⟨hplacedA, hmeetsA⟩ := CardinalitySearch.mem_neighbours.mp (neighbour ha)
  obtain ⟨hplacedB, hmeetsB⟩ := CardinalitySearch.mem_neighbours.mp (neighbour hb)
  have hmeets := inv.search.meets_of_meets
    (mem_toFinset.mpr (mem_map_of_mem (inv.left node hnode)))
    (fun h => inv.fresh hnode (mem_toFinset.mp h)) hplacedA hplacedB hmeetsA hmeetsB
  rw [mem_toFinset] at hplacedA hplacedB
  exact inv.separate a (mem_conflictingBlocks.mp ha).1 b (mem_conflictingBlocks.mp hb).1
    ((meets_iff topological (inv.mem_tensorNames hplacedA) (inv.mem_tensorNames hplacedB)
      hne).mp hmeets)

/-- Separate blocks start at different offsets, so the saturation degree counts the placed tensors
that a tensor conflicts with. -/
theorem ColoringInv.satDegree_eq :
    st.satDegree node = (CardinalitySearch.neighbours (fun name => (births g name : ℤ)) (deathOf g)
      st.placedNames.toFinset node.outputName).card := by
  have hstarts : ((conflictingBlocks g st node.outputName).map Block.start).Nodup := by
    rw [List.Nodup, pairwise_map]
    refine (inv.conflicting_separate topological hnode).imp_of_mem fun {a b} ha hb hseparate => ?_
    have hproperA := inv.proper (mem_conflictingBlocks.mp ha).1
    have hproperB := inv.proper (mem_conflictingBlocks.mp hb).1
    rcases hseparate with h | h <;> omega
  rw [ColoringState.satDegree, inv.offsets node hnode, inv.neighbours_eq topological hnode,
    toFinset_card_of_nodup hstarts,
    toFinset_card_of_nodup (inv.nodup_conflicting node.outputName), length_map,
    length_map]

/-- The chosen offset is free. -/
theorem ColoringInv.coloringOffset_feasible :
    coloringOffset g st node ∈ FirstFit.Feasible Block.start Block.stop node.sizeBytes
      (conflictingBlocks g st node.outputName) :=
  BestFit.bestFit_feasible (fun _ hb => inv.proper (mem_conflictingBlocks.mp hb).1)
    (inv.conflicting_separate topological hnode)

end

theorem ColoringState.placedNames_color (node : OpNode ν) :
    (st.color g node).placedNames = st.placedNames ++ [node.outputName] := by
  simp [ColoringState.placedNames, ColoringState.color]

theorem ColoringState.conflictingBlocks_color (name : ν) :
    conflictingBlocks g (st.color g node) name = conflictingBlocks g st name ++
      if node.outputName ∈ conflicts g name then [⟨node.outputName, coloringOffset g st node,
        coloringOffset g st node + node.sizeBytes⟩] else [] := by
  rw [conflictingBlocks, ColoringState.color, filter_append, filter_singleton]
  simp [conflictingBlocks]

/-- Removing a tensor from those left takes its name from the names. -/
theorem ColoringInv.names_color (inv : ColoringInv g st) (hnode : node ∈ st.uncolored) :
    ((st.color g node).placedNames ++ (st.color g node).uncolored.map OpNode.outputName).Perm
      (tensorNames g) := by
  have hnodup := (nodup_append.mp inv.distinct).2.1
  have hrest : (st.color g node).uncolored.map OpNode.outputName =
      (st.uncolored.map OpNode.outputName).erase node.outputName := by
    rw [hnodup.erase_eq_filter, filter_map]
    simp [ColoringState.color, Function.comp_def, bne, BEq.beq]
  rw [hrest, ColoringState.placedNames_color, append_assoc, singleton_append]
  refine (List.Perm.append_left _ ?_).trans inv.names
  exact (perm_cons_erase (mem_map_of_mem hnode)).symm

/-- A round keeps the invariant. -/
theorem ColoringInv.color (inv : ColoringInv g st) (topological : g.Topological)
    (hnode : node ∈ st.uncolored)
    (most : ∀ other ∈ st.uncolored, st.satDegree other ≤ st.satDegree node) :
    ColoringInv g (st.color g node) where
  blocks := by simp [ColoringState.color, inv.blocks, PlanEntry.block]
  nodes entry hentry := by
    rcases mem_append.mp hentry with hentry | hentry
    · exact inv.nodes entry hentry
    · obtain rfl := mem_singleton.mp hentry
      exact ⟨node, inv.left node hnode, rfl, rfl⟩
  left other hother := inv.left other (mem_of_mem_filter hother)
  names := inv.names_color hnode
  search := by
    rw [ColoringState.placedNames_color, toFinset_append, toFinset_cons,
      toFinset_nil, insert_empty_eq, Finset.union_comm, ← Finset.insert_eq]
    refine .visit inv.search (mem_toFinset.mpr (mem_map_of_mem (inv.left node hnode)))
      (fun h => inv.fresh hnode (mem_toFinset.mp h)) fun name hname hfresh => ?_
    -- a tensor that is not placed is left, and its degree is no higher
    rw [mem_toFinset] at hname hfresh
    have hleft := (mem_append.mp (inv.names.symm.subset hname)).resolve_left hfresh
    obtain ⟨other, hother, rfl⟩ := mem_map.mp hleft
    rw [← inv.satDegree_eq topological hother, ← inv.satDegree_eq topological hnode]
    exact most other hother
  separate := by
    have hfree := inv.coloringOffset_feasible topological hnode
    have new (a : Block ν) (ha : a ∈ st.allocatedBlocks)
        (hconflict : a.tensorName ∈ conflicts g node.outputName) :
        FirstFit.Separate Block.start Block.stop ⟨node.outputName, coloringOffset g st node,
          coloringOffset g st node + node.sizeBytes⟩ a :=
      hfree a (mem_conflictingBlocks.mpr ⟨ha, hconflict⟩)
    intro a ha b hb hconflict
    rcases mem_append.mp ha with ha | ha <;> rcases mem_append.mp hb with hb | hb
    · exact inv.separate a ha b hb hconflict
    · obtain rfl := mem_singleton.mp hb
      exact (new a ha (mem_conflicts_symm hconflict)).symm
    · obtain rfl := mem_singleton.mp ha
      exact new b hb hconflict
    · obtain rfl := mem_singleton.mp ha
      obtain rfl := mem_singleton.mp hb
      exact absurd rfl (mem_conflicts.mp hconflict).2.2.1
  isolated entry hentry hnone := by
    rcases mem_append.mp hentry with hentry | hentry
    · exact inv.isolated entry hentry hnone
    · obtain rfl := mem_singleton.mp hentry
      simp [coloringOffset, conflictingBlocks, hnone]
  offsets other hother := by
    have hleft := mem_of_mem_filter hother
    have hold := inv.offsets other hleft
    rw [ColoringState.conflictingBlocks_color, map_append, toFinset_append, ← hold]
    by_cases hconflict : other.outputName ∈ conflicts g node.outputName
    · have hback := mem_conflicts_symm hconflict
      rw [if_pos hback, ColoringState.color]
      simp [hconflict, mem_map_of_mem hleft]
    · have hback : node.outputName ∉ conflicts g other.outputName := fun h =>
        hconflict (mem_conflicts_symm h)
      rw [if_neg hback, ColoringState.color]
      simp [hconflict]

/-- The rounds keep the invariant, and enough of them place all tensors. -/
theorem ColoringInv.colorAll {order : SetOrder ν} (inv : ColoringInv g st)
    (topological : g.Topological) {rounds : ℕ} (enough : st.uncolored.length ≤ rounds) :
    ColoringInv g (colorAll g order rounds st) ∧ (colorAll g order rounds st).uncolored = [] := by
  induction rounds generalizing st with
  | zero => exact ⟨inv, length_eq_zero_iff.mp (Nat.le_zero.mp enough)⟩
  | succ rounds ih =>
    rw [Graph.colorAll]
    cases hselect : selectTensor g order st with
    | none => exact ⟨inv, selectTensor_eq_none hselect⟩
    | some node =>
      obtain ⟨hnode, hmost⟩ := selectTensor_eq_some hselect
      have hless : (st.color g node).uncolored.length < st.uncolored.length :=
        length_filter_lt_length_iff_exists.mpr ⟨node, hnode, by simp⟩
      exact ih (inv.color topological hnode hmost) (by omega)

end Invariant

/-! ### The plan -/

section Plan

variable {g : CustomGraph ν} {order : SetOrder ν}

/-- The plan comes from a state of the invariant in which all tensors are placed. -/
theorem exists_coloring (halias : g.aliases = []) (topological : g.Topological)
    (order : SetOrder ν) : ∃ st, ColoringInv g st ∧ st.uncolored = [] ∧
      greedyColoringPlan g order =
        .ok ⟨st.reusePlan, (st.allocatedBlocks.map Block.stop).foldl max 0⟩ := by
  obtain ⟨inv, hdone⟩ := @ColoringInv.colorAll _ _ _ _ order (coloringInv_init g) topological
    (tensors g).length le_rfl
  refine ⟨_, inv, hdone, ?_⟩
  rw [greedyColoringPlan, foldlM_addAliasEntry halias]
  rfl

/-- In a finished coloring every tensor has an entry, and the entry has a block. -/
theorem ColoringInv.exists_entry {st : ColoringState ν} (inv : ColoringInv g st)
    (hdone : st.uncolored = []) {node : OpNode ν} (hnode : node ∈ tensors g) :
    ∃ entry, lookupEntry st.reusePlan node.outputName = some entry ∧
      (node.outputName, entry) ∈ st.reusePlan ∧ entry.size = node.sizeBytes ∧
      entry.block node.outputName ∈ st.allocatedBlocks := by
  have hkeys : st.reusePlan.map Prod.fst = st.placedNames := by
    simp [ColoringState.placedNames, inv.blocks, PlanEntry.block, Function.comp_def]
  have hnames : st.placedNames.Perm (tensorNames g) := by simpa [hdone] using inv.names
  have hplaced : node.outputName ∈ st.reusePlan.map Prod.fst := by
    rw [hkeys, hnames.mem_iff]
    exact mem_map_of_mem hnode
  obtain ⟨⟨name, entry⟩, hentry, hname⟩ := mem_map.mp hplaced
  obtain rfl : name = node.outputName := hname
  obtain ⟨_, hother, hothername, hsize⟩ := inv.nodes _ hentry
  -- names are distinct, so the entry is that of the node
  obtain rfl := inj_on_of_nodup_map (nodup_tensors g) hnode hother hothername
  refine ⟨entry, lookupEntry_of_mem ?_ hentry, hentry, hsize, ?_⟩
  · rw [hkeys]
    exact hnames.nodup_iff.mpr (nodup_tensors g)
  · rw [inv.blocks]
    exact mem_map_of_mem hentry

variable {plan : ReusePlan ν}

section

variable (halias : g.aliases = []) (topological : g.Topological)
include halias topological

/-- Whatever the order, tensors that conflict have disjoint ranges, and all ranges are inside the
buffer. -/
theorem coloring_disjoint (h : greedyColoringPlan g order = .ok plan) :
    (∀ first ∈ g.executionOrder, ∀ second ∈ g.executionOrder,
      second.outputName ∈ conflicts g first.outputName → DisjointRanges plan first second) ∧
    ∀ node ∈ g.executionOrder, 0 < node.sizeBytes → InsideBuffer plan node := by
  obtain ⟨_, inv, hdone, hplan⟩ := exists_coloring halias topological order
  cases hplan.symm.trans h
  have placed {node : OpNode ν} (hnode : node ∈ g.executionOrder) (hpos : 0 < node.sizeBytes) :=
    inv.exists_entry hdone (mem_tensors.mpr ⟨hnode, hpos, isAlias_eq_false halias _⟩)
  constructor
  · intro first hfirst second hsecond hconflict
    obtain ⟨hnameFirst, hnameSecond, -⟩ := mem_conflicts.mp hconflict
    have pos {node : OpNode ν} (hnode : node ∈ g.executionOrder)
        (hname : node.outputName ∈ (tensors g).map OpNode.outputName) : 0 < node.sizeBytes := by
      obtain ⟨_, hother, heq⟩ := mem_map.mp hname
      obtain ⟨hmem, hpos, -⟩ := mem_tensors.mp hother
      exact inj_on_of_nodup_map g.nodup hmem hnode heq ▸ hpos
    obtain ⟨a, ha, -, -, hblockA⟩ := placed hfirst (pos hfirst hnameFirst)
    obtain ⟨b, hb, -, -, hblockB⟩ := placed hsecond (pos hsecond hnameSecond)
    exact ⟨a, b, ha, hb, inv.separate _ hblockA _ hblockB hconflict⟩
  · intro node hnode hpos
    obtain ⟨a, ha, -, hsize, hblock⟩ := placed hnode hpos
    exact ⟨a, ha, hsize, (le_foldl_max _ 0).2 _ (mem_map_of_mem hblock)⟩

/-- A plan is safe when every tensor that is born while another one is needed has a consumer. -/
theorem coloring_planSafe (h : greedyColoringPlan g order = .ok plan) (births : BirthsConsumed g) :
    PlanSafe g plan := by
  obtain ⟨hdisjoint, hinside⟩ := coloring_disjoint halias topological h
  refine ⟨fun first hfirst second hsecond hposFirst hposSecond live => ?_, hinside⟩
  have tensor {node : OpNode ν} (hnode : node ∈ g.executionOrder) (hpos : 0 < node.sizeBytes) :
      node ∈ tensors g := mem_tensors.mpr ⟨hnode, hpos, isAlias_eq_false halias _⟩
  exact hdisjoint first hfirst second hsecond (mem_conflicts_of_liveAtBirth topological
    (tensor hfirst hposFirst) (tensor hsecond hposSecond) live
    (births first hfirst second hsecond hposFirst hposSecond live))

/-- Two tensors without conflicts are both at the start of the buffer. -/
theorem not_planSafe_of_isolated (h : greedyColoringPlan g order = .ok plan)
    {first second : OpNode ν} (hfirst : first ∈ tensors g) (hsecond : second ∈ tensors g)
    (live : LiveAtBirth g first second) (noneFirst : conflicts g first.outputName = ∅)
    (noneSecond : conflicts g second.outputName = ∅) : ¬ PlanSafe g plan := by
  intro hsafe
  obtain ⟨hmemFirst, hposFirst, -⟩ := mem_tensors.mp hfirst
  obtain ⟨hmemSecond, hposSecond, -⟩ := mem_tensors.mp hsecond
  obtain ⟨_, inv, hdone, hplan⟩ := exists_coloring halias topological order
  cases hplan.symm.trans h
  obtain ⟨_, ha, hentryA, hsizeA, -⟩ := inv.exists_entry hdone hfirst
  obtain ⟨_, hb, hentryB, hsizeB, -⟩ := inv.exists_entry hdone hsecond
  obtain ⟨_, _, ha', hb', hapart⟩ :=
    hsafe.disjoint first hmemFirst second hmemSecond hposFirst hposSecond live
  cases ha.symm.trans ha'
  cases hb.symm.trans hb'
  have hzeroA := inv.isolated _ hentryA noneFirst
  have hzeroB := inv.isolated _ hentryB noneSecond
  dsimp only at hzeroA hzeroB
  omega

end

/-- The planner returns a plan for every order. In it tensors that conflict are apart and all
ranges are inside the buffer, and it is safe when every tensor that is born while another one is
needed has a consumer. For operations of which some tensor is born without a consumer while
another one is needed, some sizes give a plan that is not safe. -/
theorem coloring_safe_iff (halias : g.aliases = []) (topological : g.Topological) :
    (∀ order, ∃ plan, greedyColoringPlan g order = .ok plan ∧
      (∀ first ∈ g.executionOrder, ∀ second ∈ g.executionOrder,
        second.outputName ∈ conflicts g first.outputName → DisjointRanges plan first second) ∧
      (∀ node ∈ g.executionOrder, 0 < node.sizeBytes → InsideBuffer plan node) ∧
      (BirthsConsumed g → PlanSafe g plan)) ∧
    ((∀ g' : CustomGraph ν, g'.aliases = [] → skeleton g' = skeleton g → ∀ order plan,
        greedyColoringPlan g' order = .ok plan → PlanSafe g' plan) ↔
      ∀ earlier later, LiveTogether (skeleton g) earlier later →
        consumedFrom (skeleton g) 0 later = true) := by
  refine ⟨fun order => ?_, fun hsafe earlier later live => ?_, fun hconsumed => ?_⟩
  · obtain ⟨st, -, -, hplan⟩ := exists_coloring halias topological order
    obtain ⟨hdisjoint, hinside⟩ := coloring_disjoint halias topological hplan
    exact ⟨_, hplan, hdisjoint, hinside, coloring_planSafe halias topological hplan⟩
  · by_contra hidle
    -- one byte for each of the two tensors and nothing else
    obtain ⟨first, hfirst, second, hsecond, hlive, -, -, noneFirst, noneSecond⟩ :=
      exists_pair_of_idle halias live hidle
    have hskeleton := skeleton_resize g (onlyPair earlier later)
    have halias' : (resize g (onlyPair earlier later)).aliases = [] := halias
    have topological' := topological_of_skeleton_eq hskeleton topological
    obtain ⟨st, -, -, hplan⟩ := exists_coloring halias' topological' ⟨id, fun _ => .refl _⟩
    exact not_planSafe_of_isolated halias' topological' hplan hfirst hsecond hlive noneFirst
      noneSecond (hsafe _ halias' hskeleton _ _ hplan)
  · intro g' halias' hskeleton order plan hplan
    refine coloring_planSafe halias' (topological_of_skeleton_eq hskeleton topological) hplan ?_
    refine birthsConsumed_of_skeleton ?_
    rw [hskeleton]
    exact hconsumed

end Plan

theorem coloring_safe_iff_sink : ∃ g plan, (CustomGraph.empty ℕ).addOps sinkCalls = .ok g ∧
    greedyColoringPlan g ⟨id, fun _ => .refl _⟩ = .ok plan ∧
    (plan.entries.map fun entry => (entry.1, entry.2.offset, entry.2.size)) =
      [(0, 0, 2), (1, 2, 3)] ∧ PlanSafe g plan := by
  have built : ∃ g, (CustomGraph.empty ℕ).addOps sinkCalls = .ok g := ⟨_, rfl⟩
  obtain ⟨g, hg⟩ := built
  have halias : g.aliases = [] := (CustomGraph.addOps_eq_ok hg).2
  obtain ⟨plan, hplan, -, -, hsafe⟩ :=
    (coloring_safe_iff halias (sink_topological hg)).1 ⟨id, fun _ => .refl _⟩
  refine ⟨g, plan, hg, hplan, ?_, hsafe (sink_birthsConsumed hg)⟩
  cases hg
  cases hplan
  rfl

/-- Both tensors of the graph are at the start of the buffer, although the second operation reads
the one while it writes the other. -/
theorem coloring_overlaps_idle : ∃ g plan, (CustomGraph.empty ℕ).addOps idleCalls = .ok g ∧
    g.aliases = [] ∧ g.Topological ∧ greedyColoringPlan g ⟨id, fun _ => .refl _⟩ = .ok plan ∧
    (plan.entries.map fun entry => (entry.1, entry.2.offset, entry.2.size)) =
      [(0, 0, 2), (1, 0, 2)] ∧ ¬ PlanSafe g plan := by
  have built : ∃ g, (CustomGraph.empty ℕ).addOps idleCalls = .ok g := ⟨_, rfl⟩
  obtain ⟨g, hg⟩ := built
  have topological := idle_topological hg
  cases hg
  refine ⟨_, ⟨[(0, ⟨0, 2, [2], .uint8⟩), (1, ⟨0, 2, [2], .uint8⟩)], 2⟩, rfl, rfl, topological, rfl,
    rfl, fun hsafe => ?_⟩
  -- the first tensor is born at 0 and dies at 1, where the second is born
  obtain ⟨_, _, ha, hb, hapart⟩ := hsafe.disjoint _ mem_cons_self _
    (mem_cons_of_mem _ mem_cons_self) (by decide) (by decide)
    ⟨by decide, 1, rfl, by decide⟩
  cases ha
  cases hb
  simp at hapart

end Graph
