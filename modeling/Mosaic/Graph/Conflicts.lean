import Mosaic.Graph.Skeleton

/-!
# Conflicts between lifetimes

The planners that do not place the tensors in the order of their births first build a graph of
conflicts. Two tensors conflict when neither dies before the other is born. A tensor that nothing
consumes has death `-1`, so it conflicts with nothing, and yet it is written while other tensors
may still be needed.
-/

namespace Graph

open List Function

variable {ν : Type} [DecidableEq ν]

/-! ### The conflict graph -/

/-- The name is the source of an alias. -/
def isAlias (g : CustomGraph ν) (name : ν) : Bool :=
  g.aliases.any fun link => link.1 = name

/-- The nodes whose tensors are placed: those that are not empty and no alias. -/
def tensors (g : CustomGraph ν) : List (OpNode ν) :=
  g.executionOrder.filter fun node => 0 < node.sizeBytes ∧ ¬ isAlias g node.outputName

/-- The death of a tensor. The length is for names that are missing from the table, and no name
of the graph is. -/
def deathOf (g : CustomGraph ν) (name : ν) : ℤ :=
  (deaths g name).getD g.names.length

/-- Neither lifetime ends before the other begins. -/
def overlaps (birth : ν → ℕ) (death : ν → ℤ) (i j : ν) : Bool :=
  ¬ (death i < birth j ∨ death j < birth i)

/-- The pairs of overlapping lifetimes, each tensor with the later ones. -/
def conflictPairs (birth : ν → ℕ) (death : ν → ℤ) : List ν → List (ν × ν)
  | [] => []
  | name :: rest =>
    (rest.filter (overlaps birth death name)).map (Prod.mk name) ++ conflictPairs birth death rest

/-- The neighbours of every tensor, entered pair by pair. -/
def conflictSets (pairs : List (ν × ν)) : ν → Finset ν :=
  pairs.foldl (fun sets pair =>
      let sets := update sets pair.1 (insert pair.2 (sets pair.1))
      update sets pair.2 (insert pair.1 (sets pair.2)))
    fun _ => ∅

/-- The tensors that conflict with a tensor. -/
def conflicts (g : CustomGraph ν) : ν → Finset ν :=
  conflictSets (conflictPairs (births g) (deathOf g) ((tensors g).map OpNode.outputName))

/-! ### Aliases after the placements -/

/-- Give an alias the offset of its target. -/
def addAliasEntry (g : CustomGraph ν) (entries : List (ν × PlanEntry)) (node : OpNode ν) :
    Except (GraphError ν) (List (ν × PlanEntry)) :=
  match g.aliases.find? fun link => link.1 = node.outputName with
  | none => .ok entries
  | some (_, targetName) =>
    match lookupEntry entries targetName with
    | some target => .ok (entries ++ [(node.outputName,
        ⟨target.offset, node.sizeBytes, node.outputSpec.shape, node.outputSpec.dtype⟩)])
    | none => .error (.aliasUnallocated targetName)

variable {g : CustomGraph ν}

/-- Without aliases nothing is added to the plan. -/
theorem foldlM_addAliasEntry (halias : g.aliases = []) (entries : List (ν × PlanEntry)) :
    g.executionOrder.foldlM (addAliasEntry g) entries = .ok entries := by
  have hsteps : g.executionOrder.foldlM (addAliasEntry g) entries =
      .ok (g.executionOrder.foldl (fun entries _ => entries) entries) :=
    Fallible.foldlM_eq_ok _ (fun node _ entries => by simp [addAliasEntry, halias]) entries
  rw [hsteps]
  congr 1
  exact foldl_fixed' (fun _ => rfl) _

/-! ### Edges -/

variable {node : OpNode ν}

theorem mem_tensors : node ∈ tensors g ↔ node ∈ g.executionOrder ∧ 0 < node.sizeBytes ∧
      isAlias g node.outputName = false := by
  simp [tensors]

theorem isAlias_eq_false (halias : g.aliases = []) (name : ν) : isAlias g name = false := by
  simp [isAlias, halias]

variable {i j : ν}

omit [DecidableEq ν] in
theorem overlaps_iff {birth : ν → ℕ} {death : ν → ℤ} :
    overlaps birth death i j = true ↔ (birth j : ℤ) ≤ death i ∧ (birth i : ℤ) ≤ death j := by
  simp [overlaps]

omit [DecidableEq ν] in
theorem overlaps_comm (birth : ν → ℕ) (death : ν → ℤ) (i j : ν) :
    overlaps birth death i j = overlaps birth death j i := by
  rw [Bool.eq_iff_iff, overlaps_iff, overlaps_iff, and_comm]

omit [DecidableEq ν] in
/-- The pairs of the conflict graph, when no name comes twice. -/
theorem mem_conflictPairs {birth : ν → ℕ} {death : ν → ℤ} {names : List ν} (distinct : names.Nodup)
    : ((i, j) ∈ conflictPairs birth death names ∨
      (j, i) ∈ conflictPairs birth death names) ↔
        i ∈ names ∧ j ∈ names ∧ i ≠ j ∧ overlaps birth death i j = true := by
  induction names with
  | nil => simp [conflictPairs]
  | cons name rest ih =>
    obtain ⟨hfresh, hrest⟩ := nodup_cons.mp distinct
    have hhead (a b : ν) : (a, b) ∈ conflictPairs birth death (name :: rest) ↔
        (a = name ∧ b ∈ rest ∧ overlaps birth death a b = true) ∨
          (a, b) ∈ conflictPairs birth death rest := by
      simp only [conflictPairs, mem_append, mem_map, mem_filter, Prod.mk.injEq]
      refine or_congr_left ⟨?_, ?_⟩
      · rintro ⟨_, ⟨hc, hover⟩, rfl, rfl⟩
        exact ⟨rfl, hc, hover⟩
      · rintro ⟨rfl, hb, hover⟩
        exact ⟨b, ⟨hb, hover⟩, rfl, rfl⟩
    have hpairs := ih hrest
    rw [hhead, hhead, overlaps_comm birth death j i]
    simp only [mem_cons]
    -- both tensors are in the rest, or the head is one of them
    constructor
    · rintro ((⟨rfl, hj, hover⟩ | h) | (⟨rfl, hi, hover⟩ | h))
      · exact ⟨.inl rfl, .inr hj, fun h => hfresh (h ▸ hj), hover⟩
      · obtain ⟨hi, hj, hne, hover⟩ := hpairs.mp (.inl h)
        exact ⟨.inr hi, .inr hj, hne, hover⟩
      · exact ⟨.inr hi, .inl rfl, fun h => hfresh (h ▸ hi), hover⟩
      · obtain ⟨hi, hj, hne, hover⟩ := hpairs.mp (.inr h)
        exact ⟨.inr hi, .inr hj, hne, hover⟩
    · rintro ⟨rfl | hi, rfl | hj, hne, hover⟩
      · exact absurd rfl hne
      · exact .inl (.inl ⟨rfl, hj, hover⟩)
      · exact .inr (.inl ⟨rfl, hi, hover⟩)
      · rcases hpairs.mpr ⟨hi, hj, hne, hover⟩ with h | h
        · exact .inl (.inr h)
        · exact .inr (.inr h)

private theorem mem_foldl_conflictSets {pairs : List (ν × ν)} {sets : ν → Finset ν} :
    j ∈ pairs.foldl (fun sets pair =>
      let sets := update sets pair.1 (insert pair.2 (sets pair.1))
      update sets pair.2 (insert pair.1 (sets pair.2))) sets i ↔
        j ∈ sets i ∨ (i, j) ∈ pairs ∨ (j, i) ∈ pairs := by
  induction pairs generalizing sets with
  | nil => simp
  | cons pair rest ih =>
    obtain ⟨a, b⟩ := pair
    rw [foldl_cons, ih]
    simp only [mem_cons, Prod.mk.injEq]
    -- the head enters `b` at `a` and `a` at `b`
    have hentered : j ∈ update (update sets a (insert b (sets a))) b
        (insert a (update sets a (insert b (sets a)) b)) i ↔
          j ∈ sets i ∨ i = a ∧ j = b ∨ j = a ∧ i = b := by
      by_cases hb : i = b
      · obtain rfl := hb
        by_cases ha : i = a
        · obtain rfl := ha
          simp only [update_self, Finset.mem_insert]
          tauto
        · simp only [update_self, update_of_ne ha, Finset.mem_insert]
          tauto
      · by_cases ha : i = a
        · obtain rfl := ha
          simp only [update_of_ne hb, update_self, Finset.mem_insert]
          tauto
        · simp only [update_of_ne hb, update_of_ne ha]
          tauto
    rw [hentered]
    tauto

theorem mem_conflictSets {pairs : List (ν × ν)} :
    j ∈ conflictSets pairs i ↔ (i, j) ∈ pairs ∨ (j, i) ∈ pairs := by
  rw [conflictSets, mem_foldl_conflictSets]
  simp

theorem nodup_tensors (g : CustomGraph ν) : ((tensors g).map OpNode.outputName).Nodup :=
  g.nodup.sublist (filter_sublist.map _)

/-- Two placed tensors conflict exactly when they are different and their lifetimes overlap. -/
theorem mem_conflicts : j ∈ conflicts g i ↔ i ∈ (tensors g).map OpNode.outputName ∧
      j ∈ (tensors g).map OpNode.outputName ∧ i ≠ j ∧
        (births g j : ℤ) ≤ deathOf g i ∧ (births g i : ℤ) ≤ deathOf g j := by
  rw [conflicts, mem_conflictSets, mem_conflictPairs (nodup_tensors g), overlaps_iff]

/-! ### Safe plans -/

/-- The second tensor is born while the first is still to be consumed. -/
def LiveAtBirth (g : CustomGraph ν) (first second : OpNode ν) : Prop :=
  births g first.outputName < births g second.outputName ∧
    ∃ death, deaths g first.outputName = some death ∧ (births g second.outputName : ℤ) ≤ death

/-- Some operation reads the tensor. -/
def Consumed (g : CustomGraph ν) (node : OpNode ν) : Prop :=
  ∃ consumer ∈ g.executionOrder, node.outputName ∈ consumer.inputNames

/-- The plan gives the two tensors ranges that share no byte. -/
def DisjointRanges (plan : ReusePlan ν) (first second : OpNode ν) : Prop :=
  ∃ a b, plan.entry? first.outputName = some a ∧ plan.entry? second.outputName = some b ∧
    (a.offset + a.size ≤ b.offset ∨ b.offset + b.size ≤ a.offset)

/-- The plan gives the tensor a range inside the buffer. -/
def InsideBuffer (plan : ReusePlan ν) (node : OpNode ν) : Prop :=
  ∃ a, plan.entry? node.outputName = some a ∧ a.size = node.sizeBytes ∧
    a.offset + a.size ≤ plan.totalBufferSizeBytes

/-- Nonempty tensors of which one is born while the other is still to be consumed have disjoint
ranges, and all ranges are inside the buffer. -/
structure PlanSafe (g : CustomGraph ν) (plan : ReusePlan ν) : Prop where
  disjoint : ∀ first ∈ g.executionOrder, ∀ second ∈ g.executionOrder, 0 < first.sizeBytes →
    0 < second.sizeBytes → LiveAtBirth g first second → DisjointRanges plan first second
  inside : ∀ node ∈ g.executionOrder, 0 < node.sizeBytes → InsideBuffer plan node

/-- Every nonempty tensor that is born while another one is still to be consumed has a consumer
itself. -/
def BirthsConsumed (g : CustomGraph ν) : Prop :=
  ∀ first ∈ g.executionOrder, ∀ second ∈ g.executionOrder, 0 < first.sizeBytes →
    0 < second.sizeBytes → LiveAtBirth g first second → Consumed g second

section Lifetimes

variable {g : CustomGraph ν} {first second node : OpNode ν}

theorem le_deathOf_iff (hnode : node ∈ g.executionOrder) (j : ℕ) :
    (j : ℤ) ≤ deathOf g node.outputName ↔ ∃ (k : ℕ) (consumer : OpNode ν), j ≤ k ∧
      g.executionOrder[k]? = some consumer ∧ node.outputName ∈ consumer.inputNames :=
  le_deaths_iff g (mem_map_of_mem hnode) j _

/-- The death of a tensor of the graph is in the table. -/
theorem exists_deaths_eq (hnode : node ∈ g.executionOrder) :
    ∃ death, deaths g node.outputName = some death := by
  cases hdeath : deaths g node.outputName with
  | some death => exact ⟨death, rfl⟩
  | none =>
    -- the default would be read, whatever it is, and no death is that late
    have hlate := (le_deaths_iff g (mem_map_of_mem hnode) g.executionOrder.length
      g.executionOrder.length).mp (by rw [hdeath]; exact le_rfl)
    obtain ⟨_, _, hle, hk, -⟩ := hlate
    have := (List.getElem?_eq_some_iff.mp hk).1
    omega

theorem liveAtBirth_iff (hfirst : first ∈ g.executionOrder) :
    LiveAtBirth g first second ↔ births g first.outputName < births g second.outputName ∧
      (births g second.outputName : ℤ) ≤ deathOf g first.outputName := by
  obtain ⟨_, hdeath⟩ := exists_deaths_eq hfirst
  simp [LiveAtBirth, deathOf, hdeath]

/-- A tensor with a consumer is consumed after its birth. -/
theorem births_lt_deathOf (topological : g.Topological) (hnode : node ∈ g.executionOrder)
    (hconsumed : Consumed g node) : (births g node.outputName : ℤ) < deathOf g node.outputName := by
  obtain ⟨consumer, hmem, hin⟩ := hconsumed
  obtain ⟨k, hk⟩ := mem_iff_getElem?.mp hmem
  obtain ⟨_, _, hlt, hi, hname⟩ := topological k consumer hk _ hin
  have hlate : ((births g node.outputName + 1 : ℕ) : ℤ) ≤ deathOf g node.outputName := by
    rw [← hname, births_eq g hi, hname]
    exact (le_deathOf_iff hnode _).mpr ⟨k, consumer, hlt, hk, hin⟩
  push_cast at hlate
  omega

theorem consumed_iff (hnode : node ∈ g.executionOrder) :
    Consumed g node ↔ 0 ≤ deathOf g node.outputName := by
  have h := le_deathOf_iff hnode 0
  push_cast at h
  rw [h]
  constructor
  · rintro ⟨consumer, hmem, hin⟩
    obtain ⟨k, hk⟩ := mem_iff_getElem?.mp hmem
    exact ⟨k, consumer, Nat.zero_le k, hk, hin⟩
  · rintro ⟨k, consumer, -, hk, hin⟩
    exact ⟨consumer, mem_of_getElem? hk, hin⟩

/-- A tensor that nothing consumes has no conflicts. -/
theorem conflicts_eq_empty (hnode : node ∈ g.executionOrder) (idle : ¬ Consumed g node) :
    conflicts g node.outputName = ∅ := by
  rw [consumed_iff hnode, not_le] at idle
  refine Finset.eq_empty_of_forall_notMem fun name hname => ?_
  obtain ⟨-, -, -, hle, -⟩ := mem_conflicts.mp hname
  omega

theorem mem_conflicts_symm {i j : ν} (h : j ∈ conflicts g i) : i ∈ conflicts g j := by
  obtain ⟨hi, hj, hne, hij, hji⟩ := mem_conflicts.mp h
  exact mem_conflicts.mpr ⟨hj, hi, hne.symm, hji, hij⟩

/-- A tensor with a consumer conflicts with every tensor that is live at its birth. -/
theorem mem_conflicts_of_liveAtBirth (topological : g.Topological) (hfirst : first ∈ tensors g)
    (hsecond : second ∈ tensors g) (live : LiveAtBirth g first second)
    (hconsumed : Consumed g second) :
    second.outputName ∈ conflicts g first.outputName := by
  have hbirth := births_lt_deathOf topological (mem_tensors.mp hsecond).1 hconsumed
  obtain ⟨hlt, hle⟩ := (liveAtBirth_iff (mem_tensors.mp hfirst).1).mp live
  refine mem_conflicts.mpr ⟨mem_map_of_mem hfirst, mem_map_of_mem hsecond, ?_, hle, by omega⟩
  intro hname
  rw [hname] at hlt
  exact lt_irrefl _ hlt

end Lifetimes

/-! ### Other sizes -/

theorem liveTogether_iff {first second : OpNode ν}
    (hfirst : first ∈ g.executionOrder) (hsecond : second ∈ g.executionOrder) :
    LiveTogether (skeleton g) first.outputName second.outputName ↔ LiveAtBirth g first second := by
  have hnames : (skeleton g).map Prod.fst = g.names := by
    simp [skeleton, CustomGraph.names, comp_def]
  obtain ⟨i, hi⟩ := mem_iff_getElem?.mp hfirst
  rw [LiveTogether, hnames, liveAtBirth_iff hfirst, le_deathOf_iff hfirst, births_eq g hi,
    mem_liveNames_skeleton]
  constructor
  · rintro ⟨-, _, hlt, _, hi', hname, hconsumed⟩
    obtain rfl := g.eq_of_outputName_eq hi' hi hname
    exact ⟨hlt, hconsumed⟩
  · rintro ⟨hlt, hconsumed⟩
    exact ⟨mem_map_of_mem hsecond, i, hlt, first, hi, rfl, hconsumed⟩

theorem consumedFrom_iff (hnode : node ∈ g.executionOrder) :
    consumedFrom (skeleton g) 0 node.outputName = true ↔ Consumed g node := by
  rw [consumedFrom_skeleton, consumed_iff hnode]
  exact (le_deathOf_iff hnode 0).symm

variable {g g' : CustomGraph ν}

omit [DecidableEq ν] in
/-- Whether inputs are produced before depends on the names alone. -/
theorem topological_of_skeleton_eq (h : skeleton g' = skeleton g)
    (topological : g.Topological) : g'.Topological := by
  intro j node hj name hname
  have get {g₁ g₂ : CustomGraph ν} (heq : skeleton g₁ = skeleton g₂) {i : ℕ} {a : OpNode ν}
      (ha : g₁.executionOrder[i]? = some a) : ∃ b, g₂.executionOrder[i]? = some b ∧
        b.outputName = a.outputName ∧ b.inputNames = a.inputNames := by
    refine skeleton_get ?_
    rw [← heq]
    simp [skeleton, ha]
  obtain ⟨other, hother, -, hinputs⟩ := get h hj
  obtain ⟨i, _, hlt, hi, hprod⟩ := topological j other hother name (hinputs ▸ hname)
  obtain ⟨producer', hi', hname', -⟩ := get h.symm hi
  exact ⟨i, producer', hlt, hi', hname'.trans hprod⟩

/-- The lifetimes for which no sizes put a tensor without consumer among tensors still needed. -/
theorem birthsConsumed_of_skeleton (h : ∀ earlier later, LiveTogether (skeleton g) earlier later →
      consumedFrom (skeleton g) 0 later = true) : BirthsConsumed g :=
  fun _ hfirst _ hsecond _ _ live =>
    (consumedFrom_iff hsecond).mp (h _ _ ((liveTogether_iff hfirst hsecond).mpr live))

/-- The same operations in the same order, on tensors of the given sizes. -/
def resize (g : CustomGraph ν) (size : ν → ℕ) : CustomGraph ν where
  executionOrder := g.executionOrder.map fun node =>
    { node with outputSpec := ⟨[size node.outputName], .uint8⟩ }
  aliases := g.aliases
  nodup := by
    rw [List.map_map]
    exact g.nodup

omit [DecidableEq ν] in
theorem skeleton_resize (g : CustomGraph ν) (size : ν → ℕ) :
    skeleton (resize g size) = skeleton g := by
  simp [skeleton, resize, comp_def]

omit [DecidableEq ν] in
theorem names_eq_of_skeleton_eq (h : skeleton g' = skeleton g) : g'.names = g.names := by
  have hnames := congrArg (List.map Prod.fst) h
  simpa [skeleton, CustomGraph.names, comp_def] using hnames

/-- Births and deaths depend on the names alone. -/
theorem births_eq_of_skeleton_eq (h : skeleton g' = skeleton g) : births g' = births g := by
  funext name
  rw [births, births, names_eq_of_skeleton_eq h]

theorem deathOf_eq_of_skeleton_eq (h : skeleton g' = skeleton g) : deathOf g' = deathOf g := by
  have table (g : CustomGraph ν) : deaths g = (skeleton g).zipIdx.foldl
      (fun table entry => entry.1.2.foldl
        (fun table name => update table name (some (entry.2 : ℤ))) table)
      (fun name => if name ∈ g.names then some (-1) else none) := by
    rw [deaths, skeleton, zipIdx_map, foldl_map]
    rfl
  funext name
  rw [deathOf, deathOf, table g', table g, h, names_eq_of_skeleton_eq h]

/-- The sizes that leave two tensors of one byte each. -/
def onlyPair (first second : ν) (name : ν) : ℕ :=
  if name = first ∨ name = second then 1 else 0

omit [DecidableEq ν] in
theorem mem_resize {size : ν → ℕ} (h : node ∈ (resize g size).executionOrder) :
    node.sizeBytes = size node.outputName ∧ ∃ old ∈ g.executionOrder,
      old.outputName = node.outputName := by
  obtain ⟨old, hold, rfl⟩ := mem_map.mp h
  refine ⟨?_, old, hold, rfl⟩
  simp [OpNode.sizeBytes, TensorSpec.sizeBytes, Dtype.bytesPerElement, Dtype.bits]

/-- Where a tensor without consumer is born while another is needed, and these two are all there
is, nothing conflicts. -/
theorem exists_pair_of_idle {earlier later : ν} (halias : g.aliases = [])
    (live : LiveTogether (skeleton g) earlier later)
    (idle : consumedFrom (skeleton g) 0 later ≠ true) :
    ∃ first ∈ tensors (resize g (onlyPair earlier later)),
      ∃ second ∈ tensors (resize g (onlyPair earlier later)),
        LiveAtBirth (resize g (onlyPair earlier later)) first second ∧
        first.sizeBytes = 1 ∧ second.sizeBytes = 1 ∧
        conflicts (resize g (onlyPair earlier later)) first.outputName = ∅ ∧
        conflicts (resize g (onlyPair earlier later)) second.outputName = ∅ := by
  set g' := resize g (onlyPair earlier later) with hg'
  have hskeleton : skeleton g' = skeleton g := skeleton_resize g _
  have halias' : g'.aliases = [] := halias
  rw [← hskeleton] at live idle
  -- the nodes of the two names, each of one byte
  have exists_node {name : ν} (hmem : name ∈ (skeleton g').map Prod.fst)
      (hpair : name = earlier ∨ name = later) :
      ∃ node ∈ tensors g', node.outputName = name ∧ node.sizeBytes = 1 := by
    rw [skeleton, List.map_map] at hmem
    obtain ⟨node, hnode, rfl⟩ := mem_map.mp hmem
    have hsize : node.sizeBytes = 1 := (mem_resize hnode).1.trans (if_pos hpair)
    exact ⟨node, mem_tensors.mpr ⟨hnode, by omega, isAlias_eq_false halias' _⟩, rfl, hsize⟩
  have hearlier : earlier ∈ (skeleton g').map Prod.fst :=
    (take_subset _ _ |> map_subset Prod.fst) (mem_of_mem_filter live.2)
  obtain ⟨first, hfirst, rfl, hsizeFirst⟩ := exists_node hearlier (.inl rfl)
  obtain ⟨second, hsecond, rfl, hsizeSecond⟩ := exists_node live.1 (.inr rfl)
  have hsecondMem := (mem_tensors.mp hsecond).1
  rw [Ne, consumedFrom_iff hsecondMem] at idle
  have hlive := (liveTogether_iff (mem_tensors.mp hfirst).1 hsecondMem).mp live
  have hnone : conflicts g' second.outputName = ∅ := conflicts_eq_empty hsecondMem idle
  refine ⟨first, hfirst, second, hsecond, hlive, hsizeFirst, hsizeSecond, ?_, hnone⟩
  -- the only other tensor has no conflicts, with the first one neither
  refine Finset.eq_empty_of_forall_notMem fun name hname => ?_
  obtain ⟨-, hmem, hne, -⟩ := mem_conflicts.mp hname
  obtain ⟨node, hnode, rfl⟩ := mem_map.mp hmem
  obtain ⟨hnodeMem, hpos, -⟩ := mem_tensors.mp hnode
  rw [(mem_resize hnodeMem).1, onlyPair] at hpos
  split at hpos
  · rename_i hpair
    rcases hpair with heq | heq
    · exact hne heq.symm
    · have hback := mem_conflicts_symm hname
      rw [heq, hnone] at hback
      exact Finset.notMem_empty _ hback
  · exact absurd hpos (lt_irrefl 0)

/-! ### Two graphs -/

/-- An operation whose output nothing consumes, on the output of another one. -/
def idleCalls : List (CustomGraph.OpCall ℕ) :=
  [⟨0, "input", [], [2], .uint8⟩, ⟨1, "gemm", [0], [2], .uint8⟩]

/-- Two operations in a row, and one whose output is empty. -/
def sinkCalls : List (CustomGraph.OpCall ℕ) :=
  [⟨0, "input", [], [2], .uint8⟩, ⟨1, "gemm", [0], [3], .uint8⟩, ⟨2, "store", [1], [0], .uint8⟩]

variable {g : CustomGraph ℕ}

theorem idle_topological (built : (CustomGraph.empty ℕ).addOps idleCalls = .ok g) : g.Topological :=
  CustomGraph.topological_of_order (CustomGraph.addOps_eq_ok built).1 (by decide)

theorem sink_topological (built : (CustomGraph.empty ℕ).addOps sinkCalls = .ok g) : g.Topological :=
  CustomGraph.topological_of_order (CustomGraph.addOps_eq_ok built).1 (by decide)

/-- In the second graph the last tensor is empty, so every birth that counts has a consumer. -/
theorem sink_birthsConsumed
    (built : (CustomGraph.empty ℕ).addOps sinkCalls = .ok g) : BirthsConsumed g := by
  cases built
  intro first _ second hsecond _ hpos live
  rcases mem_cons.mp hsecond with rfl | hsecond
  · exact absurd live.1 (Nat.not_lt_zero _)
  rcases mem_cons.mp hsecond with rfl | hsecond
  · exact ⟨_, mem_cons_of_mem _ (mem_cons_of_mem _ mem_cons_self), mem_cons_self⟩
  · obtain rfl := mem_singleton.mp hsecond
    exact absurd hpos (by decide)

end Graph
