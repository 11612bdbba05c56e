import Mosaic.Graph.HybridBestFitSafety

/-!
# Lifetimes that are safe for all sizes

Which orders of placement a graph can have depends on its sizes, which break ties and decide which
tensors are placed at all. Here the orders are traced back to the lifetimes. Lifetimes that no
sizes bring into a harmful order are those without certain groups of two, three or four tensors,
and for each such group there are sizes with which the planner puts one of its tensors on top of
another one.
-/

namespace Graph

open List Prod

variable {ν : Type} [DecidableEq ν]

/-- The groups of tensors that do not occur. In the first a tensor without consumer is born while
another one of its window is live. In the second it is born in the window of a tensor with a
consumer, while a third one is live that dies before that is born. In the third `q` may be placed
before `y`, because it conflicts with some `r` that is born after `y` dies, and after `p`, which
dies before `q` is born and conflicts with `y`. -/
structure SafeLifetimes (names : List ν) (birth : ν → ℕ) (death : ν → ℤ) : Prop where
  pair : ∀ x ∈ names, ∀ y ∈ names, birth x < birth y → (birth y : ℤ) ≤ death x →
    birth x / windowSize = birth y / windowSize → 0 ≤ death y
  triple : ∀ p ∈ names, ∀ q ∈ names, ∀ y ∈ names, birth p < birth y → (birth y : ℤ) ≤ death p →
    death p < birth q → birth q / windowSize = birth y / windowSize → death y < 0 → death q < 0
  quadruple : ∀ p ∈ names, ∀ q ∈ names, ∀ y ∈ names, ∀ r ∈ names, p ≠ y → r ≠ q →
    (birth y : ℤ) ≤ death p → (birth p : ℤ) ≤ death y → death p < birth q →
    (birth r : ℤ) ≤ death q → (birth q : ℤ) ≤ death r → death y < birth r →
    birth q / windowSize = birth y / windowSize →
    birth p / windowSize = birth q / windowSize ∧ (birth q : ℤ) ≤ death y

section Orders

variable {g : CustomGraph ν}

/-- Where `q` has as many conflicts as `y`, and `y` has one that `q` has not, `q` has one that `y`
has not. -/
theorem exists_conflict_of_card_le {p q y : ν}
    (hcard : (conflicts g y).card ≤ (conflicts g q).card) (hp : p ∈ conflicts g y)
    (hpq : p ∉ conflicts g q) (hne : p ≠ q) :
    ∃ r ∈ conflicts g q, r ≠ y ∧ r ∉ conflicts g y := by
  by_contra hnone
  push Not at hnone
  by_cases hqy : y ∈ conflicts g q
  · -- `q` and `y` are conflicts of each other and count on both sides
    have hyq := mem_conflicts_symm hqy
    have hsubset : insert p ((conflicts g q).erase y) ⊆ (conflicts g y).erase q := by
      intro z hz
      rcases Finset.mem_insert.mp hz with rfl | hz
      · exact Finset.mem_erase.mpr ⟨hne, hp⟩
      · obtain ⟨hzy, hzq⟩ := Finset.mem_erase.mp hz
        exact Finset.mem_erase.mpr ⟨fun h => (mem_conflicts.mp hzq).2.2.1 h.symm, hnone z hzq hzy⟩
    have hle := Finset.card_le_card hsubset
    rw [Finset.card_insert_of_notMem fun h => hpq (Finset.mem_of_mem_erase h),
      Finset.card_erase_of_mem hqy, Finset.card_erase_of_mem hyq] at hle
    omega
  · have hsubset : insert p (conflicts g q) ⊆ conflicts g y := by
      intro z hz
      rcases Finset.mem_insert.mp hz with rfl | hz
      · exact hp
      · exact hnone z hz fun h => hqy (h ▸ hz)
    have hle := Finset.card_le_card hsubset
    rw [Finset.card_insert_of_notMem hpq] at hle
    omega

/-- Where `p` has as many conflicts as `q` and `q` as `y`, and `y` conflicts with both others, which
do not conflict, `p` has a conflict that neither `q` nor `y` has, provided what `q` has and `y` has
not is none of `p`. -/
theorem exists_conflict_of_card_le_card {p q y : ν}
    (hpq : (conflicts g q).card ≤ (conflicts g p).card)
    (hqy : (conflicts g y).card ≤ (conflicts g q).card) (hp : p ∈ conflicts g y)
    (hq : q ∈ conflicts g y) (hapart : p ∉ conflicts g q) (hne : p ≠ q)
    (late : ∀ r ∈ conflicts g q, r ≠ y → r ∉ conflicts g y → r ∉ conflicts g p) :
    ∃ x ∈ conflicts g p, x ∉ conflicts g q ∧ x ∉ conflicts g y := by
  by_contra hnone
  push Not at hnone
  have hself (a : ν) : a ∉ conflicts g a := fun h => (mem_conflicts.mp h).2.2.1 rfl
  -- beyond the conflicts of `q`, `y` has those of `p` and the two tensors `p` and `q` themselves
  have hmore : insert p (insert q (conflicts g p \ conflicts g q)) ⊆
      conflicts g y \ conflicts g q := by
    intro z hz
    rcases Finset.mem_insert.mp hz with rfl | hz
    · exact Finset.mem_sdiff.mpr ⟨hp, hapart⟩
    rcases Finset.mem_insert.mp hz with rfl | hz
    · exact Finset.mem_sdiff.mpr ⟨hq, hself z⟩
    · obtain ⟨hzp, hzq⟩ := Finset.mem_sdiff.mp hz
      exact Finset.mem_sdiff.mpr ⟨hnone z hzp hzq, hzq⟩
  have hfewer : conflicts g q \ conflicts g y ⊆ insert y (conflicts g q \ conflicts g p) := by
    intro z hz
    obtain ⟨hzq, hzy⟩ := Finset.mem_sdiff.mp hz
    by_cases heq : z = y
    · exact heq ▸ Finset.mem_insert_self z _
    · exact Finset.mem_insert_of_mem (Finset.mem_sdiff.mpr ⟨hzq, late z hzq heq hzy⟩)
  have hqFresh : q ∉ conflicts g p \ conflicts g q := fun h =>
    hapart (mem_conflicts_symm (Finset.mem_sdiff.mp h).1)
  have hpFresh : p ∉ insert q (conflicts g p \ conflicts g q) := by
    rw [Finset.mem_insert, not_or]
    exact ⟨hne, fun h => hself p (Finset.mem_sdiff.mp h).1⟩
  have hmoreCard := Finset.card_le_card hmore
  have hfewerCard := (Finset.card_le_card hfewer).trans (Finset.card_insert_le _ _)
  rw [Finset.card_insert_of_notMem hpFresh, Finset.card_insert_of_notMem hqFresh] at hmoreCard
  have hpqCard := Finset.card_sdiff_le_card_sdiff_iff.mpr hpq
  have hqyCard := Finset.card_sdiff_le_card_sdiff_iff.mpr hqy
  omega

/-- Where the groups do not occur, no sizes make the order of the placements harmful. -/
theorem hybridOrderly_of_safeLifetimes (halias : g.aliases = []) (topological : g.Topological)
    (h : SafeLifetimes g.names (births g) (deathOf g)) : HybridOrderly g where
  idle first hfirst second hsecond live hidle := by
    obtain ⟨hlt, hle⟩ := (liveAtBirth_iff hfirst.1).mp live
    have hwindow : windowOf g first.outputName ≤ windowOf g second.outputName :=
      Nat.div_le_div_right hlt.le
    rcases hwindow.lt_or_eq with hless | heq
    · exact .inl hless
    · have := h.pair _ (mem_map_of_mem hfirst.1) _ (mem_map_of_mem hsecond.1) hlt hle heq
      exact absurd ((consumed_iff hsecond.1).mpr this) hidle
  regard p hp q hq y hy hpq hqy hyp hdeath hconsumed hlive := by
    have name {node : OpNode ν} (hnode : node ∈ nonempty g) : node.outputName ∈ g.names :=
      mem_map_of_mem hnode.1
    have tensor {node : OpNode ν} (hnode : node ∈ nonempty g) :
        node.outputName ∈ (tensors g).map OpNode.outputName :=
      mem_map_of_mem (mem_tensors.mpr ⟨hnode.1, hnode.2, isAlias_eq_false halias _⟩)
    have named {a : ν} (ha : a ∈ (tensors g).map OpNode.outputName) : a ∈ g.names := by
      obtain ⟨node, hnode, rfl⟩ := mem_map.mp ha
      exact mem_map_of_mem (mem_tensors.mp hnode).1
    have hproperQ := births_lt_deathOf topological hq.1 hconsumed
    rw [liveAtBirth_iff hp.1, liveAtBirth_iff hy.1] at hlive
    -- `q` is born after `y` and placed before it, so they share a window
    have hwindows : windowOf g y.outputName ≤ windowOf g q.outputName :=
      Nat.div_le_div_right (by omega)
    have hwindow : windowOf g q.outputName = windowOf g y.outputName := by
      unfold PlacedBefore at hqy
      omega
    have hcardQY : (conflicts g y.outputName).card ≤ (conflicts g q.outputName).card := by
      unfold PlacedBefore at hqy
      omega
    by_cases hidle : Consumed g y
    · have hproperY := births_lt_deathOf topological hy.1 hidle
      have hneBirth : births g p.outputName ≠ births g y.outputName := by omega
      have hpy : p.outputName ∈ conflicts g y.outputName :=
        mem_conflicts.mpr ⟨tensor hy, tensor hp, fun heq => hneBirth (by rw [heq]), by omega,
          hyp⟩
      have hpq' : p.outputName ∉ conflicts g q.outputName := fun hmem => by
        have := (mem_conflicts.mp hmem).2.2.2.2
        omega
      have hnePQ : p.outputName ≠ q.outputName := by
        intro heq
        rw [heq] at hdeath
        omega
      obtain ⟨r, hr, hry, hrNot⟩ := exists_conflict_of_card_le hcardQY hpy hpq' hnePQ
      obtain ⟨-, hrTensor, hqr, hrq, hqDeath⟩ := mem_conflicts.mp hr
      have lateR {r : ν} (hr : r ∈ conflicts g q.outputName) (hry : r ≠ y.outputName)
          (hrNot : r ∉ conflicts g y.outputName) : deathOf g y.outputName < births g r := by
        obtain ⟨-, hrTensor, -, -, hqDeath⟩ := mem_conflicts.mp hr
        by_contra hle
        exact hrNot (mem_conflicts.mpr ⟨tensor hy, hrTensor, hry.symm, by omega, by omega⟩)
      have hlate := lateR hr hry hrNot
      obtain ⟨hsame, hqy'⟩ := h.quadruple _ (name hp) _ (name hq) _ (name hy) _ (named hrTensor)
        (fun heq => hneBirth (by rw [heq])) hqr.symm hyp (by omega) hdeath hrq hqDeath hlate hwindow
      have hyq : q.outputName ∈ conflicts g y.outputName := by
        refine mem_conflicts.mpr ⟨tensor hy, tensor hq, fun heq => ?_, hqy', by omega⟩
        rw [← heq] at hdeath
        omega
      have hcardPQ : (conflicts g q.outputName).card ≤ (conflicts g p.outputName).card := by
        have hsame' : windowOf g p.outputName = windowOf g q.outputName := hsame
        unfold PlacedBefore at hpq
        omega
      obtain ⟨x, hx, hxq, -⟩ := exists_conflict_of_card_le_card hcardPQ hcardQY hpy hyq hpq' hnePQ
        fun r hr hry hrNot hrp => by
          have := lateR hr hry hrNot
          have := (mem_conflicts.mp hrp).2.2.2.1
          omega
      -- now `x` and `p` are in the places of `p` and `y`
      obtain ⟨-, hxTensor, hpx, hxBirth, hxDeath⟩ := mem_conflicts.mp hx
      have hxEnds : deathOf g x < births g q.outputName := by
        by_contra hle
        refine hxq (mem_conflicts.mpr ⟨tensor hq, hxTensor, fun heq => ?_, by omega, by omega⟩)
        rw [← heq] at hxBirth
        omega
      have := (h.quadruple _ (named hxTensor) _ (name hq) _ (name hp) _ (named hrTensor) hpx.symm
        hqr.symm hxDeath hxBirth hxEnds hrq hqDeath (by omega) hsame.symm).2
      omega
    · have hdead : deathOf g y.outputName < 0 := by
        rw [consumed_iff hy.1] at hidle
        omega
      have := h.triple _ (name hp) _ (name hq) _ (name hy) (by omega) hyp hdeath hwindow hdead
      omega

end Orders

/-! ### Sizes for harmful lifetimes -/

section Sizes

variable {g : CustomGraph ν} {plan : ReusePlan ν}

/-- A list of the nonempty nodes in the right order is the order of the placements. -/
theorem filter_orderedTensors_eq {nodes : List (OpNode ν)}
    (hnodes : ∀ node, node ∈ nodes ↔ node ∈ nonempty g) (sorted : nodes.Pairwise (PlacedBefore g)) :
    (orderedTensors g).filter (fun node => 0 < node.sizeBytes) = nodes := by
  have distinct {l : List (OpNode ν)} (hl : l.Pairwise (PlacedBefore g)) : l.Nodup :=
    hl.imp fun {a b} hab heq => by
      subst heq
      exact hab.asymm hab
  have hsorted := (orderedTensors_pairwise g).filter fun node => 0 < node.sizeBytes
  refine List.Perm.eq_of_pairwise (fun a b _ _ hab hba => absurd hba hab.asymm) hsorted sorted
    ((perm_ext_iff_of_nodup (distinct hsorted) (distinct sorted)).mpr fun node => ?_)
  rw [hnodes, mem_filter, mem_orderedTensors, decide_eq_true_eq]
  rfl

/-- The offset of a tensor by the nonempty ones that are placed before. -/
theorem hybridOffset_of_filter (halias : g.aliases = []) (h : hybridBestFitPlan g = .ok plan)
    {front back : List (OpNode ν)} {node : OpNode ν}
    (horder : (orderedTensors g).filter (fun node => 0 < node.sizeBytes) = front ++ node :: back) :
    planOffset plan node.outputName = BestFit.bestFit (fun b => planOffset plan b.outputName)
      (fun b => planOffset plan b.outputName + b.sizeBytes) node.sizeBytes
      (front.filter fun b => (births g node.outputName : ℤ) ≤ deathOf g b.outputName) := by
  have hmem : node ∈ (orderedTensors g).filter fun node => 0 < node.sizeBytes := by
    rw [horder]
    exact mem_append_right _ mem_cons_self
  obtain ⟨hnode, hpos⟩ := mem_filter.mp hmem
  obtain ⟨before, _, hsplit⟩ := append_of_mem hnode
  -- the list has no node twice, so what is in front of the node is the same in both
  have hnodup : (front ++ node :: back).Nodup := by
    rw [← horder]
    exact ((nodup_orderedTensors g).of_map _).filter _
  have hfilter : before.filter (fun node => 0 < node.sizeBytes) = front := by
    rw [hsplit, filter_append, filter_cons, if_pos hpos] at horder
    have hfront : node ∉ front := fun hin =>
      (nodup_append.mp hnodup).2.2 _ hin _ mem_cons_self rfl
    have hback : node ∉ back := (nodup_cons.mp (nodup_append.mp hnodup).2.1).1
    exact ((append_cons_inj_of_notMem hfront hback).mp horder.symm).1.symm
  have hoff := (hybridOffset_eq halias h hsplit (of_decide_eq_true hpos)).2.2
  rwa [hfilter] at hoff

variable {a b : OpNode ν}

/-- Two tensors that are live together and have a byte in common. -/
theorem not_planSafe_of_common (halias : g.aliases = []) (h : hybridBestFitPlan g = .ok plan)
    (ha : a ∈ nonempty g) (hb : b ∈ nonempty g)
    (live : LiveAtBirth g a b ∨ LiveAtBirth g b a)
    (hab : planOffset plan a.outputName < planOffset plan b.outputName + b.sizeBytes)
    (hba : planOffset plan b.outputName < planOffset plan a.outputName + a.sizeBytes) :
    ¬ PlanSafe g plan := by
  intro hsafe
  have apart {c d : OpNode ν} (hc : c ∈ nonempty g) (hd : d ∈ nonempty g)
      (live : LiveAtBirth g c d) :
      planOffset plan c.outputName + c.sizeBytes ≤ planOffset plan d.outputName ∨
        planOffset plan d.outputName + d.sizeBytes ≤ planOffset plan c.outputName := by
    obtain ⟨_, _, hx, hy, hxy⟩ := hsafe.disjoint c hc.1 d hd.1 hc.2 hd.2 live
    rw [(hybrid_entry halias h hc).1] at hx
    rw [(hybrid_entry halias h hd).1] at hy
    cases hx
    cases hy
    exact hxy
  rcases live with hlive | hlive
  · have := apart ha hb hlive
    omega
  · have := apart hb ha hlive
    omega

omit [DecidableEq ν] in
theorem exists_resized {size : ν → ℕ} {name : ν} (hname : name ∈ g.names) :
    ∃ node ∈ (resize g size).executionOrder, node.outputName = name ∧
      node.sizeBytes = size name := by
  obtain ⟨old, hold, rfl⟩ := mem_map.mp hname
  have hmem : { old with outputSpec := ⟨[size old.outputName], Dtype.uint8⟩ } ∈
      (resize g size).executionOrder := mem_map_of_mem hold
  exact ⟨_, hmem, rfl, (mem_resize hmem).1⟩

variable {size : ν → ℕ}

omit [DecidableEq ν] in
/-- After resizing, the nonempty nodes are those whose names have a size. -/
theorem mem_nonempty_resize {nodes : List (OpNode ν)}
    (hnodes : ∀ node ∈ nodes, node ∈ (resize g size).executionOrder)
    (hsize : ∀ name, 0 < size name ↔ name ∈ nodes.map OpNode.outputName) (node : OpNode ν) :
    node ∈ nodes ↔ node ∈ nonempty (resize g size) := by
  constructor
  · intro hnode
    have hmem := hnodes node hnode
    refine ⟨hmem, ?_⟩
    rw [(mem_resize hmem).1]
    exact (hsize _).mpr (mem_map_of_mem hnode)
  · rintro ⟨hmem, hpos⟩
    rw [(mem_resize hmem).1, hsize] at hpos
    obtain ⟨other, hother, hname⟩ := mem_map.mp hpos
    exact inj_on_of_nodup_map (resize g size).nodup (hnodes other hother) hmem hname ▸ hother

theorem births_resize (size : ν → ℕ) : births (resize g size) = births g :=
  births_eq_of_skeleton_eq (skeleton_resize g size)

theorem deathOf_resize (size : ν → ℕ) : deathOf (resize g size) = deathOf g :=
  deathOf_eq_of_skeleton_eq (skeleton_resize g size)

theorem mem_conflicts_resize (halias : g.aliases = []) {a b : ν} :
    b ∈ conflicts (resize g size) a ↔ (a ∈ g.names ∧ 0 < size a) ∧ (b ∈ g.names ∧ 0 < size b) ∧
      a ≠ b ∧ (births g b : ℤ) ≤ deathOf g a ∧ (births g a : ℤ) ≤ deathOf g b := by
  have htensor (name : ν) : name ∈ (tensors (resize g size)).map OpNode.outputName ↔
      name ∈ g.names ∧ 0 < size name := by
    constructor
    · intro hname
      obtain ⟨node, hnode, rfl⟩ := mem_map.mp hname
      obtain ⟨hmem, hpos, -⟩ := mem_tensors.mp hnode
      obtain ⟨hsize, _, hold, hname⟩ := mem_resize hmem
      exact ⟨hname ▸ mem_map_of_mem hold, hsize ▸ hpos⟩
    · rintro ⟨hname, hpos⟩
      obtain ⟨node, hnode, rfl, hsize⟩ := exists_resized hname
      exact mem_map_of_mem (mem_tensors.mpr ⟨hnode, hsize ▸ hpos, isAlias_eq_false halias _⟩)
  rw [mem_conflicts, htensor, htensor, births_resize, deathOf_resize]

/-- The sizes that leave the tensors of a group. -/
def groupSize (group : List (ν × ℕ)) (name : ν) : ℕ :=
  ((group.find? fun entry => entry.1 = name).map Prod.snd).getD 0

variable {group : List (ν × ℕ)}

theorem groupSize_of_mem {entry : ν × ℕ}
    (distinct : (group.map Prod.fst).Nodup) (h : entry ∈ group) :
    groupSize group entry.1 = entry.2 := by
  have hfind : (group.find? fun other => other.1 = entry.1) = some entry := by
    cases hfound : group.find? fun other => other.1 = entry.1 with
    | none => simpa using find?_eq_none.mp hfound entry h
    | some other =>
      have hname : other.1 = entry.1 := by simpa using find?_some hfound
      have hmem := mem_of_find?_eq_some hfound
      rw [inj_on_of_nodup_map distinct hmem h hname]
  simp [groupSize, hfind]

theorem groupSize_pos_iff (distinct : (group.map Prod.fst).Nodup)
    (pos : ∀ entry ∈ group, 0 < entry.2) (name : ν) :
    0 < groupSize group name ↔ name ∈ group.map Prod.fst := by
  constructor
  · intro hpos
    by_contra hnone
    have hfind : (group.find? fun entry => entry.1 = name) = none := by
      rw [find?_eq_none]
      intro entry hentry heq
      exact hnone (mem_map.mpr ⟨entry, hentry, by simpa using heq⟩)
    simp [groupSize, hfind] at hpos
  · intro hname
    obtain ⟨entry, hentry, rfl⟩ := mem_map.mp hname
    rw [groupSize_of_mem distinct hentry]
    exact pos entry hentry

section

variable (halias : g.aliases = []) (distinct : (group.map Prod.fst).Nodup)
  (known : ∀ entry ∈ group, entry.1 ∈ g.names ∧ 0 < entry.2)
include halias distinct known

/-- The graph in which only the tensors of a group are not empty: its nodes in the given order, and
what is needed for that to be the order of the placements. -/
theorem exists_group :
    ∃ nodes plan, nodes.map (fun node => (node.outputName, node.sizeBytes)) = group ∧
      (∀ node ∈ nodes, node ∈ nonempty (resize g (groupSize group))) ∧
      hybridBestFitPlan (resize g (groupSize group)) = .ok plan ∧
      (nodes.Pairwise (PlacedBefore (resize g (groupSize group))) →
        (orderedTensors (resize g (groupSize group))).filter (fun node => 0 < node.sizeBytes) =
          nodes) := by
  have halias' : (resize g (groupSize group)).aliases = [] := halias
  obtain ⟨_, -, -, hplan⟩ := exists_hybrid halias'
  -- a node for every entry
  have hnodes : ∀ part : List (ν × ℕ), part ⊆ group → ∃ nodes : List (OpNode ν),
      nodes.map (fun node => (node.outputName, node.sizeBytes)) = part ∧
      ∀ node ∈ nodes, node ∈ (resize g (groupSize group)).executionOrder := by
    intro part hpart
    induction part with
    | nil => exact ⟨[], rfl, nofun⟩
    | cons entry rest ih =>
      obtain ⟨nodes, hmap, hmem⟩ := ih fun _ h => hpart (mem_cons_of_mem _ h)
      have hentry := hpart mem_cons_self
      obtain ⟨node, hnode, hname, hsize⟩ := @exists_resized _ g (groupSize group) _
        (known entry hentry).1
      rw [groupSize_of_mem distinct hentry] at hsize
      exact ⟨node :: nodes, by rw [map_cons, hmap, hname, hsize],
        forall_mem_cons.mpr ⟨hnode, hmem⟩⟩
  obtain ⟨nodes, hmap, hmem⟩ := hnodes group (List.Subset.refl _)
  have hnames : nodes.map OpNode.outputName = group.map Prod.fst := by
    rw [← hmap, List.map_map]
    rfl
  have hall := mem_nonempty_resize hmem fun name => by
    rw [hnames]
    exact groupSize_pos_iff distinct (fun entry h => (known entry h).2) name
  exact ⟨nodes, _, hmap, fun node hnode => (hall node).mp hnode, hplan,
    filter_orderedTensors_eq hall⟩

theorem mem_conflicts_group {a b : ν} :
    b ∈ conflicts (resize g (groupSize group)) a ↔ a ∈ group.map Prod.fst ∧
      b ∈ group.map Prod.fst ∧ a ≠ b ∧ (births g b : ℤ) ≤ deathOf g a ∧
        (births g a : ℤ) ≤ deathOf g b := by
  have hmem (name : ν) : (name ∈ g.names ∧ 0 < groupSize group name) ↔
      name ∈ group.map Prod.fst := by
    rw [groupSize_pos_iff distinct fun entry h => (known entry h).2]
    refine and_iff_right_of_imp fun hname => ?_
    obtain ⟨entry, hentry, rfl⟩ := mem_map.mp hname
    exact (known entry hentry).1
  rw [mem_conflicts_resize halias, hmem, hmem]

end

theorem placedBefore_resize : PlacedBefore (resize g size) a b ↔
      births g a.outputName / windowSize < births g b.outputName / windowSize ∨
        births g a.outputName / windowSize = births g b.outputName / windowSize ∧
          ((conflicts (resize g size) b.outputName).card <
              (conflicts (resize g size) a.outputName).card ∨
            (conflicts (resize g size) a.outputName).card =
                (conflicts (resize g size) b.outputName).card ∧
              (b.sizeBytes < a.sizeBytes ∨ a.sizeBytes = b.sizeBytes ∧
                births g a.outputName < births g b.outputName)) := by
  rw [PlacedBefore, windowOf, windowOf, births_resize]

theorem liveAtBirth_resize (ha : a ∈ nonempty (resize g size)) :
    LiveAtBirth (resize g size) a b ↔ births g a.outputName < births g b.outputName ∧
      (births g b.outputName : ℤ) ≤ deathOf g a.outputName := by
  rw [liveAtBirth_iff ha.1, births_resize, deathOf_resize]

/-- The offset in a resized graph, by what the lifetimes leave of the tensors in front. -/
theorem offset_resize (halias : g.aliases = []) {size : ν → ℕ}
    (h : hybridBestFitPlan (resize g size) = .ok plan) {front back live : List (OpNode ν)}
    {node : OpNode ν}
    (horder : (orderedTensors (resize g size)).filter (fun node => 0 < node.sizeBytes) =
      front ++ node :: back)
    (hlive : front.filter (fun b => (births g node.outputName : ℤ) ≤ deathOf g b.outputName) =
      live) :
    planOffset plan node.outputName = BestFit.bestFit (fun b => planOffset plan b.outputName)
      (fun b => planOffset plan b.outputName + b.sizeBytes) node.sizeBytes live := by
  have halias' : (resize g size).aliases = [] := halias
  rw [hybridOffset_of_filter halias' h horder, births_resize, deathOf_resize, hlive]

theorem pairwise_quadruple {α : Type} {r : α → α → Prop} {a b c d : α} (hab : r a b) (hac : r a c)
    (had : r a d) (hbc : r b c) (hbd : r b d) (hcd : r c d) : [a, b, c, d].Pairwise r := by
  simp [hab, hac, had, hbc, hbd, hcd]

variable {g : CustomGraph ν}

/-- There are sizes with which the planner puts one tensor on top of another one. -/
def CanBeUnsafe (g : CustomGraph ν) : Prop :=
  ∃ size plan, hybridBestFitPlan (resize g size) = .ok plan ∧ ¬ PlanSafe (resize g size) plan

/-- Of two tensors whose lifetimes overlap one is live when the other is born. -/
theorem liveAtBirth_of_together
    (ha : a ∈ nonempty (resize g size)) (hb : b ∈ nonempty (resize g size))
    (hne : a.outputName ≠ b.outputName) (hba : (births g b.outputName : ℤ) ≤ deathOf g a.outputName)
    (hab : (births g a.outputName : ℤ) ≤ deathOf g b.outputName) :
    LiveAtBirth (resize g size) a b ∨ LiveAtBirth (resize g size) b a := by
  rw [liveAtBirth_resize ha, liveAtBirth_resize hb]
  rcases lt_trichotomy (births g a.outputName) (births g b.outputName) with hlt | heq | hgt
  · exact .inl ⟨hlt, hba⟩
  · rw [← births_resize size] at heq
    have hbirth := births_injOn (resize g size) ha hb (Int.ofNat_inj.mpr heq)
    exact absurd (congrArg OpNode.outputName hbirth) hne
  · exact .inr ⟨hgt, hab⟩

theorem pairwise_triple {α : Type} {r : α → α → Prop} {a b c : α} (hab : r a b) (hac : r a c)
    (hbc : r b c) : [a, b, c].Pairwise r := by
  simp [hab, hac, hbc]

/-- A larger tensor without consumer is placed before a tensor that is live at its birth, and both
are at the start of the buffer. -/
theorem not_safe_of_pair (halias : g.aliases = []) {x y : ν} (hx : x ∈ g.names) (hy : y ∈ g.names)
    (hlt : births g x < births g y) (hle : (births g y : ℤ) ≤ deathOf g x)
    (hwindow : births g x / windowSize = births g y / windowSize) (hdead : deathOf g y < 0) :
    CanBeUnsafe g := by
  have hne : y ≠ x := fun heq => by simp [heq] at hlt
  have distinct : ([(y, 2), (x, 1)].map Prod.fst).Nodup := by simp [hne]
  have known : ∀ entry ∈ [(y, 2), (x, 1)], entry.1 ∈ g.names ∧ 0 < entry.2 := by simp [hx, hy]
  obtain ⟨_, plan, hmap, hmem, hplan, hsorted⟩ := exists_group halias distinct known
  simp only [map_eq_cons_iff, map_eq_nil_iff, Prod.mk.injEq] at hmap
  obtain ⟨ny, _, rfl, ⟨rfl, hbytesY⟩, nx, _, rfl, ⟨rfl, hbytesX⟩, rfl⟩ := hmap
  have memY := hmem ny (by simp)
  have memX := hmem nx (by simp)
  have hnone (a : ν) :
      conflicts (resize g (groupSize [(ny.outputName, 2), (nx.outputName, 1)])) a = ∅ := by
    refine Finset.eq_empty_of_forall_notMem fun b hb => ?_
    obtain ⟨ha, hb', hab, hba, hab'⟩ := (mem_conflicts_group halias distinct known).mp hb
    simp only [map_cons, map_nil, mem_cons, not_mem_nil, or_false] at ha hb'
    -- one of two different tensors is the one without consumer
    rcases ha with rfl | rfl
    · omega
    · rcases hb' with rfl | rfl
      · omega
      · exact hab rfl
  have horder := hsorted (pairwise_pair.mpr (placedBefore_resize.mpr
    (.inr ⟨hwindow.symm, .inr ⟨by rw [hnone, hnone], .inl (by omega)⟩⟩)))
  have hoffsetY := @offset_resize _ _ g plan halias _ hplan [] _ [] _ horder rfl
  have hoffsetX := @offset_resize _ _ g plan halias _ hplan [ny] _ [] _ horder
    (by simp; omega)
  rw [BestFit.bestFit_nil] at hoffsetX hoffsetY
  exact ⟨_, plan, hplan, not_planSafe_of_common (g := resize g _) halias hplan memX memY
    (.inl ((liveAtBirth_resize memX).mpr ⟨hlt, hle⟩)) (by omega) (by omega)⟩

/-- Two tensors are placed at the start of the buffer without regard to each other, the larger one
first, and the third one behind the smaller. -/
theorem offset_of_covered (halias : g.aliases = [])
    (h : hybridBestFitPlan (resize g size) = .ok plan) {p q y : OpNode ν} {back : List (OpNode ν)}
    (horder : (orderedTensors (resize g size)).filter (fun node => 0 < node.sizeBytes) =
      p :: q :: y :: back) (hpos : 0 < y.sizeBytes)
    (hpq : deathOf g p.outputName < births g q.outputName)
    (hpy : (births g y.outputName : ℤ) ≤ deathOf g p.outputName)
    (hqy : (births g y.outputName : ℤ) ≤ deathOf g q.outputName) :
    planOffset plan p.outputName = 0 ∧ planOffset plan y.outputName = q.sizeBytes := by
  have hoffsetP := @offset_resize _ _ g plan halias _ h [] _ [] _ horder rfl
  have hoffsetQ := @offset_resize _ _ g plan halias _ h [p] _ [] _ horder (by simp; omega)
  have hoffsetY := @offset_resize _ _ g plan halias _ h [p, q] _ [p, q] _ horder
    (by simp [hpy, hqy])
  rw [BestFit.bestFit_nil] at hoffsetP hoffsetQ
  have hcovered : _ = planOffset plan q.outputName + q.sizeBytes :=
    @BestFit.bestFit_of_covered (OpNode ν) (fun b => planOffset plan b.outputName)
      (fun b => planOffset plan b.outputName + b.sizeBytes) y.sizeBytes p q hoffsetP hoffsetQ hpos
  rw [hcovered, hoffsetQ, zero_add] at hoffsetY
  exact ⟨hoffsetP, hoffsetY⟩

/-- A tensor without consumer is placed on a larger one that is live at its birth, when a tensor of
its window that is born after the death of that one comes in between. -/
theorem not_safe_of_triple (halias : g.aliases = []) {p q y : ν} (hp : p ∈ g.names)
    (hq : q ∈ g.names) (hy : y ∈ g.names) (hlt : births g p < births g y)
    (hle : (births g y : ℤ) ≤ deathOf g p) (hpq : deathOf g p < births g q)
    (hwindow : births g q / windowSize = births g y / windowSize) (hdead : deathOf g y < 0)
    (hbusy : (births g q : ℤ) ≤ deathOf g q) :
    CanBeUnsafe g := by
  have hnePQ : p ≠ q := by rintro rfl; omega
  have hnePY : p ≠ y := by rintro rfl; omega
  have hneQY : q ≠ y := by rintro rfl; omega
  have distinct : ([(p, 3), (q, 2), (y, 1)].map Prod.fst).Nodup := by simp [hnePQ, hnePY, hneQY]
  have known : ∀ entry ∈ [(p, 3), (q, 2), (y, 1)], entry.1 ∈ g.names ∧ 0 < entry.2 := by
    simp [hp, hq, hy]
  obtain ⟨_, plan, hmap, hmem, hplan, hsorted⟩ := exists_group halias distinct known
  simp only [map_eq_cons_iff, map_eq_nil_iff, Prod.mk.injEq] at hmap
  obtain ⟨np, _, rfl, ⟨rfl, hbytesP⟩, nq, _, rfl, ⟨rfl, hbytesQ⟩, ny, _, rfl,
    ⟨rfl, hbytesY⟩, rfl⟩ := hmap
  have memP := hmem np (by simp)
  have memY := hmem ny (by simp)
  have hnone (a : ν) : conflicts (resize g (groupSize [(np.outputName, 3), (nq.outputName, 2),
      (ny.outputName, 1)])) a = ∅ := by
    refine Finset.eq_empty_of_forall_notMem fun b hb => ?_
    obtain ⟨ha, hb', hab, hba, hab'⟩ := (mem_conflicts_group halias distinct known).mp hb
    simp only [map_cons, map_nil, mem_cons, not_mem_nil, or_false] at ha hb'
    -- the third tensor has no consumer, and the others are apart
    rcases ha with rfl | rfl | rfl <;> rcases hb' with rfl | rfl | rfl <;>
      first | omega | exact hab rfl
  have hwindows : births g np.outputName / windowSize ≤ births g ny.outputName / windowSize :=
    Nat.div_le_div_right hlt.le
  have horder := hsorted (pairwise_triple
    (placedBefore_resize.mpr (by rw [hnone, hnone]; omega))
    (placedBefore_resize.mpr (by rw [hnone, hnone]; omega))
    (placedBefore_resize.mpr (by rw [hnone, hnone]; omega)))
  obtain ⟨hoffsetP, hoffsetY⟩ := offset_of_covered halias hplan horder (by omega) hpq hle (by omega)
  exact ⟨_, plan, hplan, not_planSafe_of_common (g := resize g _) halias hplan memP memY
    (.inl ((liveAtBirth_resize memP).mpr ⟨hlt, hle⟩)) (by omega) (by omega)⟩

theorem card_conflicts_group (halias : g.aliases = []) (distinct : (group.map Prod.fst).Nodup)
    (known : ∀ entry ∈ group, entry.1 ∈ g.names ∧ 0 < entry.2) {a : ν}
    (ha : a ∈ group.map Prod.fst) :
    (conflicts (resize g (groupSize group)) a).card = (group.map Prod.fst).countP fun b =>
      a ≠ b ∧ (births g b : ℤ) ≤ deathOf g a ∧ (births g a : ℤ) ≤ deathOf g b := by
  have hset : conflicts (resize g (groupSize group)) a = ((group.map Prod.fst).filter fun b =>
      a ≠ b ∧ (births g b : ℤ) ≤ deathOf g a ∧ (births g a : ℤ) ≤ deathOf g b).toFinset := by
    ext b
    rw [mem_conflicts_group halias distinct known, mem_toFinset, mem_filter,
      decide_eq_true_eq]
    exact and_iff_right ha
  rw [hset, toFinset_card_of_nodup (distinct.filter _), countP_eq_length_filter]

/-- The lifetimes of four tensors of which `q` may come between `p` and `y`. -/
structure Quadruple (g : CustomGraph ν) (p q y r : ν) : Prop where
  mem : (p ∈ g.names ∧ q ∈ g.names) ∧ y ∈ g.names ∧ r ∈ g.names
  ne : p ≠ y ∧ r ≠ q
  proper : (births g p : ℤ) < deathOf g p ∧ (births g q : ℤ) < deathOf g q ∧
    (births g y : ℤ) < deathOf g y ∧ (births g r : ℤ) < deathOf g r
  together : (births g y : ℤ) ≤ deathOf g p ∧ (births g p : ℤ) ≤ deathOf g y ∧
    (births g r : ℤ) ≤ deathOf g q ∧ (births g q : ℤ) ≤ deathOf g r
  apart : deathOf g p < births g q ∧ deathOf g y < births g r
  window : births g q / windowSize = births g y / windowSize
  free : deathOf g y < births g q ∨ births g p / windowSize < births g q / windowSize

variable {p q y r : ν}

theorem Quadruple.nodup (h : Quadruple g p q y r) : [p, q, y, r].Nodup := by
  obtain ⟨-, ⟨hnePY, hneRQ⟩, ⟨hproperP, hproperQ, hproperY, hproperR⟩, ⟨hyp, hpy, hrq, hqr⟩,
    ⟨hpq, hyr⟩, -, -⟩ := h
  have hnePQ : p ≠ q := by rintro rfl; omega
  have hneQY : q ≠ y := by rintro rfl; omega
  have hneYR : y ≠ r := by rintro rfl; omega
  have hnePR : p ≠ r := by rintro rfl; omega
  simp [hnePQ, hnePY, hneQY, hneYR, hnePR, hneRQ.symm]

/-- In the graph of the four tensors `q` and `y` have as many conflicts, and so have `p` and `r`:
two, where they conflict with each other as well, and otherwise one. -/
theorem Quadruple.cards (halias : g.aliases = []) (h : Quadruple g p q y r)
    (hperm : (group.map Prod.fst).Perm [p, q, y, r])
    (known : ∀ entry ∈ group, entry.1 ∈ g.names ∧ 0 < entry.2) :
    (conflicts (resize g (groupSize group)) q).card =
        (conflicts (resize g (groupSize group)) y).card ∧
      (conflicts (resize g (groupSize group)) p).card =
        (conflicts (resize g (groupSize group)) r).card ∧
      (deathOf g y < births g q → (conflicts (resize g (groupSize group)) q).card = 1) ∧
      (deathOf g p < births g r → (conflicts (resize g (groupSize group)) p).card = 1) ∧
      ((births g r : ℤ) ≤ deathOf g p → (conflicts (resize g (groupSize group)) p).card = 2) ∧
      1 ≤ (conflicts (resize g (groupSize group)) q).card := by
  have hnodup := h.nodup
  have distinct := hperm.nodup_iff.mpr hnodup
  simp only [nodup_cons, mem_cons, not_mem_nil, or_false, not_or,
    not_mem_nil, not_false_eq_true, nodup_nil, and_true] at hnodup
  obtain ⟨⟨hnePQ, hnePY, hnePR⟩, ⟨hneQY, hneQR⟩, hneYR⟩ := hnodup
  obtain ⟨-, -, ⟨hproperP, hproperQ, hproperY, hproperR⟩, ⟨hyp, hpy, hrq, hqr⟩, ⟨hpq, hyr⟩, -, -⟩ :=
    h
  have card {a : ν} (ha : a ∈ [p, q, y, r]) :
      (conflicts (resize g (groupSize group)) a).card = [p, q, y, r].countP fun b =>
        a ≠ b ∧ (births g b : ℤ) ≤ deathOf g a ∧ (births g a : ℤ) ≤ deathOf g b := by
    rw [card_conflicts_group halias distinct known (hperm.mem_iff.mpr ha), hperm.countP_eq]
  simp only [countP_cons, countP_nil] at card
  have hpr : (births g p : ℤ) ≤ deathOf g r := by omega
  have hyq : (births g y : ℤ) ≤ deathOf g q := by omega
  -- `p` conflicts with `y` and maybe with `r`, `q` with `r` and maybe with `y`
  have hcardP := card (a := p) (by simp)
  have hcardQ := card (a := q) (by simp)
  have hcardY := card (a := y) (by simp)
  have hcardR := card (a := r) (by simp)
  simp only [ne_eq, hnePQ, hnePY, hnePR, hyp, hpy, hpr, not_le.mpr hpq, not_true, not_false_eq_true,
    true_and, false_and, and_false, and_true, decide_true, decide_false, decide_eq_true_eq, if_true,
    Bool.false_eq_true, if_false] at hcardP
  simp only [ne_eq, Ne.symm hnePQ, hneQY, hneQR, hyq, hrq, hqr, not_le.mpr hpq, not_true,
    not_false_eq_true, true_and, false_and, and_false, and_true, decide_true, decide_false,
    decide_eq_true_eq, if_true, Bool.false_eq_true, if_false] at hcardQ
  simp only [ne_eq, Ne.symm hnePY, Ne.symm hneQY, hneYR, hyp, hpy, hyq, not_le.mpr hyr, not_true,
    not_false_eq_true, true_and, false_and, and_false, and_true, decide_true, decide_false,
    decide_eq_true_eq, if_true, Bool.false_eq_true, if_false] at hcardY
  simp only [ne_eq, Ne.symm hnePR, Ne.symm hneQR, Ne.symm hneYR, hpr, hrq, hqr, not_le.mpr hyr,
    not_true, not_false_eq_true, true_and, false_and, and_false, and_true, decide_true,
    decide_false, decide_eq_true_eq, if_true, Bool.false_eq_true, if_false] at hcardR
  rw [hcardP, hcardQ, hcardY, hcardR]
  refine ⟨by omega, by omega, fun hlt => ?_, fun hlt => ?_, fun hle => ?_, by omega⟩
  · rw [if_neg (not_le.mpr hlt)]
  · rw [if_neg (not_le.mpr hlt)]
  · rw [if_pos hle]

/-- The sizes that put `y` on `p`, where `r` comes last: it has no conflict with `p`, or is in a
later window. -/
theorem not_safe_of_quadruple_last (halias : g.aliases = [])
    (h : Quadruple g p q y r) (hlast : deathOf g p < births g r ∨
      births g y / windowSize < births g r / windowSize) :
    CanBeUnsafe g := by
  obtain ⟨⟨hp, hq⟩, hy, hr⟩ := h.mem
  have distinct : ([(p, 4), (q, 2), (y, 1), (r, 1)].map Prod.fst).Nodup := h.nodup
  have known : ∀ entry ∈ [(p, 4), (q, 2), (y, 1), (r, 1)], entry.1 ∈ g.names ∧ 0 < entry.2 := by
    simp [hp, hq, hy, hr]
  obtain ⟨_, plan, hmap, hmem, hplan, hsorted⟩ := exists_group halias distinct known
  simp only [map_eq_cons_iff, map_eq_nil_iff, Prod.mk.injEq] at hmap
  obtain ⟨np, _, rfl, ⟨rfl, hbytesP⟩, nq, _, rfl, ⟨rfl, hbytesQ⟩, ny, _, rfl, ⟨rfl, hbytesY⟩,
    nr, _, rfl, ⟨rfl, hbytesR⟩, rfl⟩ := hmap
  have memP := hmem np (by simp)
  have memY := hmem ny (by simp)
  obtain ⟨hcardQY, hcardPR, hcardQ, hcardP, hcardTwo, hone⟩ := h.cards halias (.refl _) known
  obtain ⟨-, ⟨hnePY, -⟩, ⟨hproperP, hproperQ, hproperY, hproperR⟩, ⟨hyp, hpy, hrq, hqr⟩,
    ⟨hpq, hyr⟩, hwindow, hfree⟩ := h
  have hwindowPQ : births g np.outputName / windowSize ≤ births g nq.outputName / windowSize :=
    Nat.div_le_div_right (by omega)
  have hwindowYR : births g ny.outputName / windowSize ≤ births g nr.outputName / windowSize :=
    Nat.div_le_div_right (by omega)
  have hone' : 1 ≤ (conflicts (resize g (groupSize [(np.outputName, 4), (nq.outputName, 2),
      (ny.outputName, 1), (nr.outputName, 1)])) np.outputName).card := by
    rcases lt_or_ge (deathOf g np.outputName) (births g nr.outputName) with hlt | hle
    · rw [hcardP hlt]
    · rw [hcardTwo hle]
      exact one_le_two
  have horder := hsorted (pairwise_quadruple
    (placedBefore_resize.mpr (by omega)) (placedBefore_resize.mpr (by omega))
    (placedBefore_resize.mpr (by omega)) (placedBefore_resize.mpr (by omega))
    (placedBefore_resize.mpr (by omega)) (placedBefore_resize.mpr (by omega)))
  obtain ⟨hoffsetP, hoffsetY⟩ := offset_of_covered halias hplan horder (by omega) hpq hyp (by omega)
  exact ⟨_, plan, hplan, not_planSafe_of_common (g := resize g _) halias hplan memP memY
    (liveAtBirth_of_together memP memY hnePY hyp hpy) (by omega) (by omega)⟩

/-- The same with a third tensor behind the larger one that leaves room for both the others. -/
theorem offset_of_covered_before (halias : g.aliases = [])
    (h : hybridBestFitPlan (resize g size) = .ok plan) {p r q y : OpNode ν}
    {back : List (OpNode ν)}
    (horder : (orderedTensors (resize g size)).filter (fun node => 0 < node.sizeBytes) =
      p :: r :: q :: y :: back)
    (hbytes : 0 < r.sizeBytes ∧ 0 < y.sizeBytes ∧ q.sizeBytes + y.sizeBytes ≤ p.sizeBytes)
    (hrp : (births g r.outputName : ℤ) ≤ deathOf g p.outputName)
    (hq : deathOf g p.outputName < births g q.outputName ∧
      (births g q.outputName : ℤ) ≤ deathOf g r.outputName)
    (hy : (births g y.outputName : ℤ) ≤ deathOf g p.outputName ∧
      (births g y.outputName : ℤ) ≤ deathOf g r.outputName ∧
      (births g y.outputName : ℤ) ≤ deathOf g q.outputName) :
    planOffset plan p.outputName = 0 ∧ planOffset plan y.outputName = q.sizeBytes := by
  obtain ⟨hposR, hposY, hroom⟩ := hbytes
  have hoffsetP := @offset_resize _ _ g plan halias _ h [] _ [] _ horder rfl
  have hoffsetR := @offset_resize _ _ g plan halias _ h [p] _ [p] _ horder (by simp [hrp])
  have hoffsetQ := @offset_resize _ _ g plan halias _ h [p, r] _ [r] _ horder
    (by simp [hq.1, hq.2])
  have hoffsetY := @offset_resize _ _ g plan halias _ h [p, r, q] _ [p, r, q] _ horder
    (by simp [hy])
  rw [BestFit.bestFit_nil] at hoffsetP
  have hbehind : _ = planOffset plan p.outputName + p.sizeBytes :=
    @BestFit.bestFit_singleton_of_zero (OpNode ν) (fun b => planOffset plan b.outputName)
      (fun b => planOffset plan b.outputName + b.sizeBytes) r.sizeBytes p hoffsetP hposR
  have hfront : _ = 0 :=
    @BestFit.bestFit_singleton (OpNode ν) (fun b => planOffset plan b.outputName)
      (fun b => planOffset plan b.outputName + b.sizeBytes) q.sizeBytes r (by omega)
  rw [hfront] at hoffsetQ
  have hcovered : _ = planOffset plan q.outputName + q.sizeBytes :=
    @BestFit.bestFit_of_covered_before (OpNode ν) (fun b => planOffset plan b.outputName)
      (fun b => planOffset plan b.outputName + b.sizeBytes) y.sizeBytes p q r hoffsetP hoffsetQ
      (by omega) (by omega) hposY
  rw [hcovered, hoffsetQ, zero_add] at hoffsetY
  exact ⟨hoffsetP, hoffsetY⟩

/-- The sizes that put `y` on `p`, where `r` conflicts with `p` and comes second. It is placed
behind `p`, and leaves the start of the buffer to `q`. -/
theorem not_safe_of_quadruple_second (halias : g.aliases = [])
    (h : Quadruple g p q y r) (hrp : (births g r : ℤ) ≤ deathOf g p)
    (hwindowYR : births g y / windowSize = births g r / windowSize) :
    CanBeUnsafe g := by
  obtain ⟨⟨hp, hq⟩, hy, hr⟩ := h.mem
  have hperm : ([(p, 4), (r, 1), (q, 2), (y, 1)].map Prod.fst).Perm [p, q, y, r] :=
    .cons p (@perm_append_comm _ [r] [q, y])
  have distinct := hperm.nodup_iff.mpr h.nodup
  have known : ∀ entry ∈ [(p, 4), (r, 1), (q, 2), (y, 1)], entry.1 ∈ g.names ∧ 0 < entry.2 := by
    simp [hp, hq, hy, hr]
  obtain ⟨_, plan, hmap, hmem, hplan, hsorted⟩ := exists_group halias distinct known
  simp only [map_eq_cons_iff, map_eq_nil_iff, Prod.mk.injEq] at hmap
  obtain ⟨np, _, rfl, ⟨rfl, hbytesP⟩, _, _, rfl, ⟨rfl, hbytesR⟩, nq, _, rfl, ⟨rfl, hbytesQ⟩,
    ny, _, rfl, ⟨rfl, hbytesY⟩, rfl⟩ := hmap
  have memP := hmem np (by simp)
  have memY := hmem ny (by simp)
  obtain ⟨hcardQY, hcardPR, hcardQ, -, hcardTwo, -⟩ := h.cards halias hperm known
  obtain ⟨-, ⟨hnePY, -⟩, ⟨hproperP, hproperQ, hproperY, hproperR⟩, ⟨hyp, hpy, hrq, hqr⟩,
    ⟨hpq, hyr⟩, hwindow, hfree⟩ := h
  have hwindowPQ : births g np.outputName / windowSize ≤ births g nq.outputName / windowSize :=
    Nat.div_le_div_right (by omega)
  -- `p` and `r` have two conflicts, and `q` and `y` one
  have htwo := hcardTwo hrp
  have hone := hcardQ (by omega)
  have horder := hsorted (pairwise_quadruple
    (placedBefore_resize.mpr (by omega)) (placedBefore_resize.mpr (by omega))
    (placedBefore_resize.mpr (by omega)) (placedBefore_resize.mpr (by omega))
    (placedBefore_resize.mpr (by omega)) (placedBefore_resize.mpr (by omega)))
  obtain ⟨hoffsetP, hoffsetY⟩ := offset_of_covered_before halias hplan horder
    ⟨by omega, by omega, by omega⟩ hrp ⟨hpq, hqr⟩ ⟨hyp, by omega, by omega⟩
  exact ⟨_, plan, hplan, not_planSafe_of_common (g := resize g _) halias hplan memP memY
    (liveAtBirth_of_together memP memY hnePY hyp hpy) (by omega) (by omega)⟩

/-- Where the plans are safe for all sizes, the groups do not occur. -/
theorem safeLifetimes_of_safe (halias : g.aliases = []) (topological : g.Topological)
    (hsafe : ∀ size plan, hybridBestFitPlan (resize g size) = .ok plan →
      PlanSafe (resize g size) plan) :
    SafeLifetimes g.names (births g) (deathOf g) := by
  have proper {name : ν} (hname : name ∈ g.names) (hdeath : 0 ≤ deathOf g name) :
      (births g name : ℤ) < deathOf g name := by
    obtain ⟨_, hnode, rfl⟩ := mem_map.mp hname
    exact births_lt_deathOf topological hnode ((consumed_iff hnode).mpr hdeath)
  have hnever : ¬ CanBeUnsafe g := fun ⟨size, plan, hplan, hunsafe⟩ =>
    hunsafe (hsafe size plan hplan)
  refine ⟨fun x hx y hy hlt hle hwindow => ?_, fun p hp q hq y hy hlt hle hpq hwindow hdead => ?_,
    fun p hp q hq y hy r hr hnePY hneRQ hyp hpy hpq hrq hqr hyr hwindow => ?_⟩
  · by_contra hdead
    exact hnever (not_safe_of_pair halias hx hy hlt hle hwindow (not_le.mp hdead))
  · by_contra hbusy
    have := proper hq (not_lt.mp hbusy)
    exact hnever (not_safe_of_triple halias hp hq hy hlt hle hpq hwindow hdead this.le)
  · by_contra hfree
    have hproperP := proper hp (by omega)
    have hproperY := proper hy (by omega)
    have hwindowPQ : births g p / windowSize ≤ births g q / windowSize :=
      Nat.div_le_div_right (by omega)
    have hquadruple : Quadruple g p q y r := ⟨⟨⟨hp, hq⟩, hy, hr⟩, ⟨hnePY, hneRQ⟩,
      ⟨hproperP, proper hq (by omega), hproperY, proper hr (by omega)⟩,
      ⟨hyp, hpy, hrq, hqr⟩, ⟨hpq, hyr⟩, hwindow, by omega⟩
    have hwindowYR : births g y / windowSize ≤ births g r / windowSize :=
      Nat.div_le_div_right (by omega)
    by_cases hsecond : (births g r : ℤ) ≤ deathOf g p ∧
        births g y / windowSize = births g r / windowSize
    · exact hnever (not_safe_of_quadruple_second halias hquadruple hsecond.1 hsecond.2)
    · exact hnever (not_safe_of_quadruple_last halias hquadruple (by omega))

/-- The planner returns a plan with all ranges inside the buffer, and it is safe when the order of
its placements is orderly. Given the operations, the plans are safe for all sizes of the tensors
exactly when the lifetimes leave out the three groups. -/
theorem hybrid_safe_iff (halias : g.aliases = []) (topological : g.Topological) :
    (∃ plan, hybridBestFitPlan g = .ok plan ∧
      (∀ node ∈ g.executionOrder, 0 < node.sizeBytes → InsideBuffer plan node) ∧
      (HybridOrderly g → PlanSafe g plan)) ∧
    ((∀ g' : CustomGraph ν, g'.aliases = [] → skeleton g' = skeleton g → ∀ plan,
        hybridBestFitPlan g' = .ok plan → PlanSafe g' plan) ↔
      SafeLifetimes g.names (births g) (deathOf g)) := by
  refine ⟨?_, fun hsafe => ?_, fun hlifetimes g' halias' hskeleton plan hplan => ?_⟩
  · obtain ⟨_, -, -, hplan⟩ := exists_hybrid halias
    exact ⟨_, hplan, fun _ hnode hpos => (hybrid_entry halias hplan ⟨hnode, hpos⟩).2,
      hybrid_planSafe halias topological hplan⟩
  · exact safeLifetimes_of_safe halias topological fun size plan hplan =>
      hsafe (resize g size) halias (skeleton_resize g size) plan hplan
  · have topological' := topological_of_skeleton_eq hskeleton topological
    refine hybrid_planSafe halias' topological' hplan ?_
    refine hybridOrderly_of_safeLifetimes halias' topological' ?_
    rw [names_eq_of_skeleton_eq hskeleton, births_eq_of_skeleton_eq hskeleton,
      deathOf_eq_of_skeleton_eq hskeleton]
    exact hlifetimes

end Sizes

/-- In the graph of two tensors and an empty one no tensor dies before another one is born. -/
theorem sink_hybridOrderly {g : CustomGraph ℕ}
    (built : (CustomGraph.empty ℕ).addOps sinkCalls = .ok g) : HybridOrderly g := by
  have hconsumed := sink_birthsConsumed built
  have hlate : ∀ p ∈ g.executionOrder, ∀ q ∈ g.executionOrder, 0 < p.sizeBytes →
      0 < q.sizeBytes → (births g q.outputName : ℤ) ≤ deathOf g p.outputName := by
    cases built
    decide
  refine ⟨fun first hfirst second hsecond live hidle => ?_, ?_⟩
  · exact absurd (hconsumed first hfirst.1 second hsecond.1 hfirst.2 hsecond.2 live) hidle
  · rintro p hp q hq _ - - - - hdeath
    exact absurd hdeath (not_lt.mpr (hlate p hp.1 q hq.1 hp.2 hq.2))

theorem hybrid_safe_iff_sink : ∃ g plan, (CustomGraph.empty ℕ).addOps sinkCalls = .ok g ∧
    hybridBestFitPlan g = .ok plan ∧
    (plan.entries.map fun entry => (entry.1, entry.2.offset, entry.2.size)) =
      [(1, 0, 3), (0, 3, 2)] ∧ PlanSafe g plan := by
  have built : ∃ g, (CustomGraph.empty ℕ).addOps sinkCalls = .ok g := ⟨_, rfl⟩
  obtain ⟨g, hg⟩ := built
  have halias : g.aliases = [] := (CustomGraph.addOps_eq_ok hg).2
  obtain ⟨plan, hplan, -, hsafe⟩ := (hybrid_safe_iff halias (sink_topological hg)).1
  refine ⟨g, plan, hg, hplan, ?_, hsafe (sink_hybridOrderly hg)⟩
  cases hg
  cases hplan
  rfl

/-- Five operations whose outputs are all consumed, the last one empty. -/
def reorderedCalls : List (CustomGraph.OpCall ℕ) :=
  [⟨0, "input", [], [1], .uint8⟩, ⟨1, "gemm", [0], [5], .uint8⟩, ⟨2, "gemm", [1], [1], .uint8⟩,
    ⟨3, "input", [], [3], .uint8⟩, ⟨4, "store", [2, 3], [0], .uint8⟩]

/-- The largest tensor is placed first, at the start of the buffer. So is the one of three bytes,
which does not conflict with it. The first tensor conflicts with the large one, and is placed last,
behind the one of three bytes and inside the large one. -/
theorem hybrid_overlaps_reordered : ∃ g plan,
    (CustomGraph.empty ℕ).addOps reorderedCalls = .ok g ∧ g.aliases = [] ∧ g.Topological ∧
    hybridBestFitPlan g = .ok plan ∧
    (plan.entries.map fun entry => (entry.1, entry.2.offset, entry.2.size)) =
      [(1, 0, 5), (2, 5, 1), (3, 0, 3), (0, 3, 1)] ∧ ¬ PlanSafe g plan := by
  have built : ∃ g, (CustomGraph.empty ℕ).addOps reorderedCalls = .ok g := ⟨_, rfl⟩
  obtain ⟨g, hg⟩ := built
  have topological : g.Topological :=
    CustomGraph.topological_of_order (CustomGraph.addOps_eq_ok hg).1 (by decide)
  have hplan : (hybridBestFitPlan g).toOption = some ⟨[(1, ⟨0, 5, [5], .uint8⟩),
      (2, ⟨5, 1, [1], .uint8⟩), (3, ⟨0, 3, [3], .uint8⟩), (0, ⟨3, 1, [1], .uint8⟩)], 6⟩ := by
    cases hg
    decide +kernel
  cases hg
  refine ⟨_, _, rfl, rfl, topological, Fallible.toOption_eq_some.mp hplan, rfl, fun hsafe => ?_⟩
  -- the first tensor is born at 0 and dies at 1, where the second is born
  obtain ⟨_, _, ha, hb, hapart⟩ := hsafe.disjoint _ mem_cons_self _
    (mem_cons_of_mem _ mem_cons_self) (by decide) (by decide)
    ⟨by decide, 1, rfl, by decide⟩
  cases ha
  cases hb
  simp at hapart

end Graph
