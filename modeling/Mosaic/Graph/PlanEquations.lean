import Mosaic.Graph.MemoryAnalyzer
import Mathlib.Tactic.Push

/-!
# The equations a reuse plan satisfies

The planner folds over the execution order and keeps its blocks and its plan entries in step.
Here the fold is replaced by equations between the offsets of the finished plan: the offset of
an aliased tensor is the offset of its target, and the offset of every other tensor is the
first fit among the blocks of the earlier tensors that are still consumed when it is born.
All later arguments about plans use these equations only.
-/

namespace Graph

open List Fallible Function

variable {ν : Type} [DecidableEq ν]

/-! ### Births and deaths -/

variable {node : OpNode ν}

theorem births_eq (g : CustomGraph ν) {i : ℕ}
    (h : g.executionOrder[i]? = some node) : births g node.outputName = i := by
  have hname : g.names[i]? = some node.outputName := by simp [CustomGraph.names, h]
  obtain ⟨hlt, hget⟩ := List.getElem?_eq_some_iff.mp hname
  rw [births, ← hget]
  exact List.Nodup.idxOf_getElem g.nodup i hlt

omit [DecidableEq ν] in
theorem mem_names (g : CustomGraph ν) {i : ℕ}
    (h : g.executionOrder[i]? = some node) : node.outputName ∈ g.names :=
  mem_map_of_mem (mem_of_getElem? h)

private theorem foldl_update_apply (inputs : List ν) (table : ν → Option ℤ) (value : Option ℤ)
    (name : ν) :
    inputs.foldl (fun table name => update table name value) table name =
      if name ∈ inputs then value else table name := by
  induction inputs generalizing table with
  | nil => simp
  | cons input rest ih =>
    rw [foldl_cons, ih]
    by_cases hrest : name ∈ rest
    · simp [hrest]
    · by_cases hname : name = input
      · simp [hname]
      · simp [hrest, hname]

/-- The backward reading of the death table: the last consumer decides. -/
private theorem le_foldl_deaths_iff (nodes : List (OpNode ν)) (first : ℕ) (table : ν → Option ℤ)
    (name : ν) (default : ℤ) (j : ℤ) :
    j ≤ (((nodes.zipIdx first).foldl
        (fun table entry => entry.1.inputNames.foldl
          (fun table name => update table name (some (entry.2 : ℤ))) table)
        table) name).getD default ↔
      (∃ (k : ℕ) (node : OpNode ν), nodes[k]? = some node ∧ name ∈ node.inputNames ∧
        j ≤ (first + k : ℕ)) ∨
      (∀ node ∈ nodes, name ∉ node.inputNames) ∧ j ≤ (table name).getD default := by
  induction nodes generalizing first table with
  | nil => simp
  | cons node rest ih =>
    -- the head is consumer number zero, and counts only if the rest does not consume the tensor
    rw [zipIdx_cons, foldl_cons, ih, foldl_update_apply]
    constructor
    · rintro (⟨k, consumer, hk, hin, hle⟩ | ⟨hnone, hle⟩)
      · exact .inl ⟨k + 1, consumer, by simpa using hk, hin, by omega⟩
      · by_cases hin : name ∈ node.inputNames
        · rw [if_pos hin] at hle
          exact .inl ⟨0, node, rfl, hin, by simpa using hle⟩
        · rw [if_neg hin] at hle
          exact .inr ⟨by simpa [hin] using hnone, hle⟩
    · rintro (⟨k, consumer, hk, hin, hle⟩ | ⟨hnone, hle⟩)
      · by_cases hlater : ∃ consumer ∈ rest, name ∈ consumer.inputNames
        · -- any later consumer lies behind the one at `k`, or is that one
          cases k with
          | zero =>
            obtain ⟨later, hlater, hin'⟩ := hlater
            obtain ⟨k, hk'⟩ := mem_iff_getElem?.mp hlater
            exact .inl ⟨k, later, hk', hin', by omega⟩
          | succ k => exact .inl ⟨k, consumer, by simpa using hk, hin, by omega⟩
        · push Not at hlater
          cases k with
          | zero =>
            obtain rfl : node = consumer := by simpa using hk
            exact .inr ⟨hlater, by simpa [hin] using hle⟩
          | succ k =>
            have hmem : consumer ∈ rest := mem_of_getElem? (by simpa using hk)
            exact absurd hin (hlater consumer hmem)
      · have hhead := hnone node mem_cons_self
        exact .inr ⟨fun n hn => hnone n (mem_cons_of_mem _ hn), by rwa [if_neg hhead]⟩

/-- A tensor dies at or after position `j` exactly when a node at or after `j` consumes it. -/
theorem le_deaths_iff (g : CustomGraph ν) {name : ν} (hname : name ∈ g.names) (j : ℕ)
    (default : ℤ) :
    (j : ℤ) ≤ (deaths g name).getD default ↔
      ∃ (k : ℕ) (node : OpNode ν), j ≤ k ∧ g.executionOrder[k]? = some node ∧
        name ∈ node.inputNames := by
  rw [deaths, le_foldl_deaths_iff]
  simp only [hname, if_true, Option.getD_some]
  constructor
  · rintro (⟨k, node, hk, hin, hle⟩ | ⟨-, hle⟩)
    · exact ⟨k, node, by omega, hk, hin⟩
    · omega
  · rintro ⟨k, node, hle, hk, hin⟩
    exact .inl ⟨k, node, hk, hin, by omega⟩

/-! ### The planner's invariant -/

/-- The block an entry of the plan occupies. -/
def PlanEntry.block (name : ν) (entry : PlanEntry) : Block ν :=
  ⟨name, entry.offset, entry.offset + entry.size⟩

/-- The blocks are the blocks of the plan entries, one entry for each nonempty node so far,
and the highest end is recorded. -/
structure PlannerInv (placed : List (OpNode ν)) (st : PlannerState ν) : Prop where
  blocks : st.allocatedBlocks = st.reusePlan.map fun entry => entry.2.block entry.1
  entries : st.reusePlan.map (fun entry => (entry.1, entry.2.size, entry.2.shape, entry.2.dtype)) =
    (placed.filter fun node => 0 < node.sizeBytes).map fun node =>
      (node.outputName, node.sizeBytes, node.outputSpec.shape, node.outputSpec.dtype)
  bounded : ∀ block ∈ st.allocatedBlocks, block.stop ≤ st.maxOffset
  attained : st.maxOffset = 0 ∨ ∃ block ∈ st.allocatedBlocks, block.stop = st.maxOffset

omit [DecidableEq ν] in
theorem plannerInv_init : PlannerInv (ν := ν) [] PlannerState.init :=
  ⟨rfl, rfl, by simp [PlannerState.init], .inl rfl⟩

theorem le_foldl_max (l : List ℕ) (init : ℕ) : init ≤ l.foldl max init ∧
    ∀ x ∈ l, x ≤ l.foldl max init := by
  induction l generalizing init with
  | nil => simp
  | cons a rest ih =>
    obtain ⟨hinit, hmem⟩ := ih (max init a)
    refine ⟨le_trans (le_max_left _ _) hinit, fun x hx => ?_⟩
    rcases mem_cons.mp hx with rfl | hx
    · exact le_trans (le_max_right _ _) hinit
    · exact hmem x hx

theorem foldl_max_mem (l : List ℕ) (init : ℕ) : l.foldl max init = init ∨ l.foldl max init ∈ l := by
  induction l generalizing init with
  | nil => exact .inl rfl
  | cons a rest ih =>
    rw [foldl_cons]
    rcases ih (max init a) with hmax | hmem
    · rcases max_choice init a with hinit | hhead
      · exact .inl (hmax.trans hinit)
      · exact .inr (mem_cons.mpr (.inl (hmax.trans hhead)))
    · exact .inr (mem_cons_of_mem _ hmem)

omit [DecidableEq ν] in
theorem PlannerInv.allocate {placed : List (OpNode ν)} {st : PlannerState ν}
    (inv : PlannerInv placed st) {node : OpNode ν} (hpos : 0 < node.sizeBytes) (offset : ℕ) :
    PlannerInv (placed ++ [node]) (st.allocate node offset) where
  blocks := by simp [PlannerState.allocate, inv.blocks, PlanEntry.block]
  entries := by
    rw [PlannerState.allocate, map_append, inv.entries]
    simp [hpos]
  bounded block hblock := by
    refine le_trans ?_ (le_max_right _ _)
    exact (le_foldl_max _ 0).2 _ (mem_map_of_mem hblock)
  attained := by
    -- the end of the highest block is the old one or that of one of the blocks now
    rcases max_choice st.maxOffset (((st.allocate node offset).allocatedBlocks.map
      Block.stop).foldl max 0) with hold | hnew
    · rcases inv.attained with hzero | ⟨block, hblock, hstop⟩
      · exact .inl (hold.trans hzero)
      · exact .inr ⟨block, mem_append_left _ hblock, hstop.trans hold.symm⟩
    · rcases foldl_max_mem ((st.allocate node offset).allocatedBlocks.map Block.stop) 0 with
        hzero | hmem
      · exact .inl (hnew.trans hzero)
      · obtain ⟨block, hblock, hstop⟩ := mem_map.mp hmem
        exact .inr ⟨block, hblock, hstop.trans hnew.symm⟩

omit [DecidableEq ν] in
theorem PlannerInv.skip {placed : List (OpNode ν)} {st : PlannerState ν}
    (inv : PlannerInv placed st) {node : OpNode ν} (hzero : ¬ 0 < node.sizeBytes) :
    PlannerInv (placed ++ [node]) st where
  blocks := inv.blocks
  entries := by
    rw [inv.entries]
    simp [hzero]
  bounded := inv.bounded
  attained := inv.attained

variable {g : CustomGraph ν} {st st' : PlannerState ν}

/-- What one round of the planner does. -/
theorem place_cases (h : place g st node = .ok st') :
    (0 < node.sizeBytes ∧ ∃ offset, foundOffset g st node = .ok offset ∧
      st' = st.allocate node offset) ∨
    ¬ 0 < node.sizeBytes ∧ st' = st := by
  unfold place at h
  split at h
  · rename_i hpos
    obtain ⟨offset, hfound, halloc⟩ := bind_eq_ok.mp h
    cases halloc
    exact .inl ⟨hpos, offset, hfound, rfl⟩
  · rename_i hzero
    cases h
    exact .inr ⟨hzero, rfl⟩

variable {placed : List (OpNode ν)}

theorem PlannerInv.place (inv : PlannerInv placed st) (h : place g st node = .ok st') :
    PlannerInv (placed ++ [node]) st' ∧ st.reusePlan <+: st'.reusePlan := by
  obtain ⟨hpos, offset, -, rfl⟩ | ⟨hzero, rfl⟩ := place_cases h
  · exact ⟨inv.allocate hpos offset, prefix_append _ _⟩
  · exact ⟨inv.skip hzero, prefix_rfl⟩

/-- A run of the planner keeps the invariant and only appends to the plan. -/
theorem PlannerInv.foldlM (nodes : List (OpNode ν)) (inv : PlannerInv placed st)
    (h : nodes.foldlM (Graph.place g) st = .ok st') :
    PlannerInv (placed ++ nodes) st' ∧ st.reusePlan <+: st'.reusePlan := by
  induction nodes generalizing placed st with
  | nil =>
    cases h
    exact ⟨by simpa using inv, prefix_rfl⟩
  | cons node rest ih =>
    obtain ⟨_, hplace, hrest⟩ := foldlM_cons_eq_ok.mp h
    obtain ⟨inv₁, hpre₁⟩ := inv.place hplace
    obtain ⟨inv', hpre⟩ := ih inv₁ hrest
    exact ⟨by simpa using inv', hpre₁.trans hpre⟩

/-! ### Entries of the finished plan -/

theorem lookupEntry_of_mem {entries : List (ν × PlanEntry)} {name : ν} {entry : PlanEntry}
    (distinct : (entries.map Prod.fst).Nodup) (h : (name, entry) ∈ entries) :
    lookupEntry entries name = some entry := by
  induction entries with
  | nil => cases h
  | cons head rest ih =>
    obtain ⟨hhead, hrest⟩ := nodup_cons.mp (map_cons ▸ distinct)
    rcases mem_cons.mp h with rfl | hmem
    · simp [lookupEntry]
    · have hne : head.1 ≠ name := by
        rintro rfl
        exact hhead (mem_map.mpr ⟨_, hmem, rfl⟩)
      simpa [lookupEntry, hne] using ih hrest hmem

variable {st : PlannerState ν}

omit [DecidableEq ν] in
/-- The names of the entries are distinct, since the names of the nodes are. -/
theorem PlannerInv.nodup
    (inv : PlannerInv placed st) (distinct : (placed.map OpNode.outputName).Nodup) :
    (st.reusePlan.map Prod.fst).Nodup := by
  have hkeys := congrArg (List.map Prod.fst) inv.entries
  simp only [List.map_map, comp_def] at hkeys
  rw [hkeys]
  exact distinct.sublist (filter_sublist.map _)

/-- The offset of a tensor in a plan. -/
def planOffset (plan : ReusePlan ν) (name : ν) : ℕ :=
  ((plan.entry? name).map PlanEntry.offset).getD 0

/-- The block of a node's output in a plan. -/
def nodeBlock (plan : ReusePlan ν) (node : OpNode ν) : Block ν :=
  ⟨node.outputName, planOffset plan node.outputName,
    planOffset plan node.outputName + node.sizeBytes⟩

/-- The blocks of an earlier planner state are the blocks its nodes have in the finished plan. -/
theorem PlannerInv.blocks_eq_of_prefix
    {plan : ReusePlan ν} (inv : PlannerInv placed st) (hpre : st.reusePlan <+: plan.entries)
    (distinct : (plan.entries.map Prod.fst).Nodup) :
    st.allocatedBlocks = (placed.filter fun node => 0 < node.sizeBytes).map (nodeBlock plan) := by
  have hoff : ∀ entry ∈ st.reusePlan, planOffset plan entry.1 = entry.2.offset := by
    intro entry hentry
    have := lookupEntry_of_mem distinct (hpre.subset hentry)
    simp [planOffset, ReusePlan.entry?, this]
  -- pass through the names and sizes, which both sides determine
  have hmap := congrArg (List.map fun data : ν × ℕ × List ℕ × Dtype =>
    (⟨data.1, planOffset plan data.1, planOffset plan data.1 + data.2.1⟩ : Block ν)) inv.entries
  simp only [List.map_map, comp_def] at hmap
  rw [inv.blocks]
  refine Eq.trans (map_congr_left fun entry hentry => ?_) hmap
  rw [hoff entry hentry]
  rfl

/-- The nonempty nodes before position `j` whose outputs are consumed at or after `j`. -/
def liveNodes (g : CustomGraph ν) (j : ℕ) : List (OpNode ν) :=
  ((g.executionOrder.take j).filter fun node => 0 < node.sizeBytes).filter fun node =>
    (j : ℤ) ≤ (deaths g node.outputName).getD g.names.length

/-- The blocks that are live when position `j` is placed. -/
def liveBlocks (g : CustomGraph ν) (plan : ReusePlan ν) (j : ℕ) : List (Block ν) :=
  (liveNodes g j).map (nodeBlock plan)

/-- The plan of an analysis is the planner's. -/
theorem generateOptimizedReusePlan_of_analyze {analysis : Analysis ν}
    (h : analyze g = .ok analysis) : generateOptimizedReusePlan g = .ok analysis.reusePlan := by
  obtain ⟨_, -, htimeline⟩ := bind_eq_ok.mp h
  obtain ⟨_, -, hplanner⟩ := bind_eq_ok.mp htimeline
  obtain ⟨_, hplan, hres⟩ := bind_eq_ok.mp hplanner
  split at hres
  · cases hres
    exact hplan
  · cases hres

section Equations

variable {g : CustomGraph ν} {plan : ReusePlan ν} {j : ℕ} {node : OpNode ν}

section

variable (h : generateOptimizedReusePlan g = .ok plan)
include h

/-- The finished plan comes from a state that satisfies the invariant. -/
theorem plan_state : ∃ st, g.executionOrder.foldlM (place g) PlannerState.init = .ok st ∧
      plan = ⟨st.reusePlan, st.maxOffset⟩ ∧ PlannerInv g.executionOrder st := by
  obtain ⟨st, hfold, hplan⟩ := bind_eq_ok.mp h
  cases hplan
  exact ⟨st, hfold, rfl, by simpa using (plannerInv_init.foldlM _ hfold).1⟩

/-- The state in which the planner placed position `j`, and the entry it made. -/
theorem exists_placing_state (hj : g.executionOrder[j]? = some node) (hpos : 0 < node.sizeBytes) :
    ∃ st offset, PlannerInv (g.executionOrder.take j) st ∧ st.reusePlan <+: plan.entries ∧
      foundOffset g st node = .ok offset ∧
      plan.entry? node.outputName =
        some ⟨offset, node.sizeBytes, node.outputSpec.shape, node.outputSpec.dtype⟩ := by
  obtain ⟨_, hfold, rfl, inv⟩ := plan_state h
  obtain ⟨hlt, hget⟩ := List.getElem?_eq_some_iff.mp hj
  -- run the planner up to position `j`, through it, and to the end
  have hsplit : g.executionOrder = g.executionOrder.take j ++
      node :: g.executionOrder.drop (j + 1) := by
    rw [← hget, getElem_cons_drop, take_append_drop]
  rw [hsplit] at hfold
  obtain ⟨st, hbefore, hrest⟩ := foldlM_append_eq_ok.mp hfold
  obtain ⟨_, hplace, hafter⟩ := foldlM_cons_eq_ok.mp hrest
  have invBefore : PlannerInv (g.executionOrder.take j) st := by
    simpa using (plannerInv_init.foldlM _ hbefore).1
  obtain ⟨invPlaced, hpre⟩ := invBefore.place hplace
  have hpre' := (invPlaced.foldlM _ hafter).2
  obtain ⟨-, offset, hfound, rfl⟩ | ⟨hzero, -⟩ := place_cases hplace
  · refine ⟨st, offset, invBefore, hpre.trans hpre', hfound, ?_⟩
    refine lookupEntry_of_mem (inv.nodup g.nodup) (hpre'.subset ?_)
    simp [PlannerState.allocate]
  · exact absurd hpos hzero

/-- The entry of a nonempty tensor records its offset, size, shape and element type. -/
theorem entry?_eq (hj : g.executionOrder[j]? = some node) (hpos : 0 < node.sizeBytes) :
    plan.entry? node.outputName = some ⟨planOffset plan node.outputName, node.sizeBytes,
      node.outputSpec.shape, node.outputSpec.dtype⟩ := by
  obtain ⟨_, _, -, -, -, hentry⟩ := exists_placing_state h hj hpos
  simp [planOffset, hentry]

/-- The blocks of an earlier planner state are the blocks of the finished plan. -/
theorem PlannerInv.blocks_eq {st : PlannerState ν} (inv : PlannerInv (g.executionOrder.take j) st)
    (hpre : st.reusePlan <+: plan.entries) : st.allocatedBlocks =
      ((g.executionOrder.take j).filter fun node => 0 < node.sizeBytes).map (nodeBlock plan) := by
  obtain ⟨_, -, rfl, invFinal⟩ := plan_state h
  exact inv.blocks_eq_of_prefix hpre (invFinal.nodup g.nodup)

/-- The blocks of the finished plan are the blocks of the nonempty nodes. -/
theorem exists_final_blocks :
    ∃ final, plan = ⟨final.reusePlan, final.maxOffset⟩ ∧ PlannerInv g.executionOrder final ∧
      final.allocatedBlocks = (g.executionOrder.filter fun node => 0 < node.sizeBytes).map
        (nodeBlock plan) := by
  obtain ⟨final, -, rfl, inv⟩ := plan_state h
  have hblocks := PlannerInv.blocks_eq h (show PlannerInv
    (g.executionOrder.take g.executionOrder.length) final by simpa using inv) prefix_rfl
  exact ⟨final, rfl, inv, by simpa using hblocks⟩

theorem stop_le_total (hj : g.executionOrder[j]? = some node) (hpos : 0 < node.sizeBytes) :
    planOffset plan node.outputName + node.sizeBytes ≤ plan.totalBufferSizeBytes := by
  obtain ⟨final, hplan, inv, hblocks⟩ := exists_final_blocks h
  have hmem : nodeBlock plan node ∈ final.allocatedBlocks := by
    rw [hblocks]
    refine mem_map_of_mem (mem_filter.mpr ⟨mem_of_getElem? hj, ?_⟩)
    simpa using hpos
  have := inv.bounded _ hmem
  rwa [show final.maxOffset = plan.totalBufferSizeBytes by rw [hplan]] at this

/-- The buffer ends where one of the tensors ends. -/
theorem total_eq_zero_or_stop : plan.totalBufferSizeBytes = 0 ∨ ∃ (j : ℕ) (node : OpNode ν),
      g.executionOrder[j]? = some node ∧ 0 < node.sizeBytes ∧
        plan.totalBufferSizeBytes = planOffset plan node.outputName + node.sizeBytes := by
  obtain ⟨final, hplan, inv, hblocks⟩ := exists_final_blocks h
  have htotal : plan.totalBufferSizeBytes = final.maxOffset := by rw [hplan]
  rcases inv.attained with hzero | ⟨block, hblock, hstop⟩
  · exact .inl (htotal.trans hzero)
  · rw [hblocks] at hblock
    obtain ⟨node, hnode, rfl⟩ := mem_map.mp hblock
    obtain ⟨hmem, hpos⟩ := mem_filter.mp hnode
    obtain ⟨j, hj⟩ := mem_iff_getElem?.mp hmem
    exact .inr ⟨j, node, hj, of_decide_eq_true hpos, htotal.trans hstop.symm⟩

/-- A tensor without alias lies at the first fit among the live blocks. -/
theorem planOffset_eq_firstFit (hj : g.executionOrder[j]? = some node) (hpos : 0 < node.sizeBytes)
    (halias : g.aliases.find? (fun link => link.1 = node.outputName) = none) :
    planOffset plan node.outputName =
      FirstFit.firstFit Block.start Block.stop node.sizeBytes (liveBlocks g plan j) := by
  obtain ⟨_, _, inv, hpre, hfound, hentry⟩ := exists_placing_state h hj hpos
  rw [foundOffset, halias, liveBlocksAtBirth, births_eq g hj, inv.blocks_eq h hpre,
    filter_map] at hfound
  rw [planOffset, hentry]
  exact (Except.ok.inj hfound).symm

/-- An aliased tensor lies at the offset of its target. -/
theorem planOffset_eq_target (hj : g.executionOrder[j]? = some node) (hpos : 0 < node.sizeBytes)
    {source target : ν}
    (halias : g.aliases.find? (fun link => link.1 = node.outputName) = some (source, target)) :
    planOffset plan node.outputName = planOffset plan target := by
  obtain ⟨st, offset, _, hpre, hfound, hentry⟩ := exists_placing_state h hj hpos
  obtain ⟨final, -, rfl, invFinal⟩ := plan_state h
  rw [foundOffset, halias] at hfound
  cases htarget : lookupEntry st.reusePlan target with
  | none =>
    simp only [htarget] at hfound
    cases hfound
  | some entry =>
    simp only [htarget] at hfound
    cases hfound
    -- the target was looked up in an earlier plan, of which the finished plan is an extension
    obtain ⟨found, hfind, rfl⟩ := Option.map_eq_some_iff.mp htarget
    have hname : found.1 = target := by simpa using find?_some hfind
    have := lookupEntry_of_mem (invFinal.nodup g.nodup)
      (hpre.subset (mem_of_find?_eq_some hfind))
    have hleft : planOffset ⟨final.reusePlan, final.maxOffset⟩ node.outputName =
        found.2.offset := by
      rw [planOffset, hentry]
      rfl
    rw [hleft, ← hname, planOffset, ReusePlan.entry?, this]
    rfl

end

end Equations

/-! ### Success of the planner -/

theorem PlannerInv.exists_entry (inv : PlannerInv placed st) (hnode : node ∈ placed)
    (hpos : 0 < node.sizeBytes) :
    ∃ entry, lookupEntry st.reusePlan node.outputName = some entry := by
  have hkeys := congrArg (List.map Prod.fst) inv.entries
  simp only [List.map_map, comp_def] at hkeys
  have hmem : node.outputName ∈ st.reusePlan.map fun entry => entry.1 := by
    rw [hkeys]
    refine mem_map_of_mem (mem_filter.mpr ⟨hnode, ?_⟩)
    simpa using hpos
  obtain ⟨entry, hentry, hname⟩ := mem_map.mp hmem
  cases hfind : st.reusePlan.find? fun entry => entry.1 = node.outputName with
  | none =>
    have := find?_eq_none.mp hfind entry hentry
    simp [hname] at this
  | some found => exact ⟨found.2, by simp [lookupEntry, hfind]⟩

/-- The target of every alias of a nonempty node is a nonempty earlier node. -/
def AliasesReady (g : CustomGraph ν) : Prop :=
  ∀ (j : ℕ) (node : OpNode ν), g.executionOrder[j]? = some node → 0 < node.sizeBytes →
    ∀ source target, g.aliases.find? (fun link => link.1 = node.outputName) =
      some (source, target) →
    ∃ producer ∈ g.executionOrder.take j, producer.outputName = target ∧ 0 < producer.sizeBytes

/-- A round of the planner succeeds. -/
theorem exists_place (ready : AliasesReady g) {j : ℕ} (hj : g.executionOrder[j]? = some node)
    (inv : PlannerInv (g.executionOrder.take j) st) : ∃ st', place g st node = .ok st' := by
  unfold place
  split
  · rename_i hpos
    suffices ∃ offset, foundOffset g st node = .ok offset by
      obtain ⟨offset, hoff⟩ := this
      exact ⟨st.allocate node offset, by rw [hoff]; rfl⟩
    unfold foundOffset
    split
    · rename_i source target halias
      obtain ⟨_, hprod, rfl, hsize⟩ := ready j node hj hpos source target halias
      obtain ⟨entry, hentry⟩ := inv.exists_entry hprod hsize
      exact ⟨entry.offset, by rw [hentry]⟩
    · exact ⟨_, rfl⟩
  · exact ⟨st, rfl⟩

/-- The planner succeeds when every alias target is placed before its source. -/
theorem exists_plan (ready : AliasesReady g) : ∃ plan, generateOptimizedReusePlan g = .ok plan := by
  -- by induction on the number of nodes placed, the invariant at hand in every round
  have hpre : ∀ j ≤ g.executionOrder.length, ∃ st,
      (g.executionOrder.take j).foldlM (place g) PlannerState.init = .ok st := by
    intro j hj
    induction j with
    | zero => exact ⟨PlannerState.init, rfl⟩
    | succ j ih =>
      obtain ⟨st, hst⟩ := ih (by omega)
      have inv := (plannerInv_init.foldlM _ hst).1
      rw [nil_append] at inv
      have hget := getElem?_eq_getElem (l := g.executionOrder) (i := j) (by omega)
      obtain ⟨st', hst'⟩ := exists_place ready hget inv
      refine ⟨st', ?_⟩
      rw [← take_concat_get' g.executionOrder j (by omega), foldlM_append, hst]
      exact (bind_pure _).trans hst'
  obtain ⟨st, hst⟩ := hpre _ le_rfl
  rw [take_length] at hst
  exact ⟨⟨st.reusePlan, st.maxOffset⟩, by rw [generateOptimizedReusePlan, hst]; rfl⟩

/-- Every entry of a plan belongs to a nonempty node and records its offset, size, shape and
element type. -/
theorem exists_node_of_mem_entries {plan : ReusePlan ν}
    (h : generateOptimizedReusePlan g = .ok plan) {name : ν} {entry : PlanEntry}
    (hentry : (name, entry) ∈ plan.entries) :
    ∃ (j : ℕ) (node : OpNode ν), g.executionOrder[j]? = some node ∧ 0 < node.sizeBytes ∧
      name = node.outputName ∧ entry = ⟨planOffset plan node.outputName, node.sizeBytes,
        node.outputSpec.shape, node.outputSpec.dtype⟩ := by
  obtain ⟨final, -, rfl, inv⟩ := plan_state h
  have hdata := mem_map_of_mem
    (f := fun entry => (entry.1, entry.2.size, entry.2.shape, entry.2.dtype)) hentry
  rw [inv.entries] at hdata
  obtain ⟨node, hnode, heq⟩ := mem_map.mp hdata
  obtain ⟨hmem, hpos⟩ := mem_filter.mp hnode
  obtain ⟨j, hj⟩ := mem_iff_getElem?.mp hmem
  have hname : node.outputName = name := congrArg Prod.fst heq
  -- names are distinct, so the entry that the node has is this one
  have hlookup : lookupEntry final.reusePlan name = some entry :=
    lookupEntry_of_mem (inv.nodup g.nodup) hentry
  have hnodeEntry := entry?_eq h hj (of_decide_eq_true hpos)
  rw [hname, ReusePlan.entry?, hlookup] at hnodeEntry
  exact ⟨j, node, hj, of_decide_eq_true hpos, hname.symm, hname ▸ Option.some.inj hnodeEntry⟩

end Graph
