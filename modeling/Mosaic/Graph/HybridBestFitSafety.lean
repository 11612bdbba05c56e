import Mosaic.Graph.HybridBestFit

/-!
# Safety of the hybrid best fit planner

The planner looks at the tensors placed before that die at or after the birth of the tensor to be
placed. In its order of placements this misses tensors in two ways. A tensor that nothing consumes
is never looked at again, so it must come after the tensors that are live at its birth. And two
tensors of which one dies before the other is born are placed without regard to each other, so no
tensor that is born before the one dies may come after them.
-/

namespace Graph

open List

variable {ν : Type} [DecidableEq ν] {g : CustomGraph ν}

/-! ### Ranks -/

/-- The position of a tensor among the placements. -/
def placementRank (g : CustomGraph ν) (node : OpNode ν) : ℕ :=
  ((orderedTensors g).map OpNode.outputName).idxOf node.outputName

variable {node : OpNode ν}

theorem mem_orderedTensors : node ∈ orderedTensors g ↔ node ∈ g.executionOrder :=
  (orderedTensors_perm g).mem_iff

theorem placementRank_eq {i : ℕ} (h : (orderedTensors g)[i]? = some node) :
    placementRank g node = i := by
  have hname : ((orderedTensors g).map OpNode.outputName)[i]? = some node.outputName := by
    simp [h]
  obtain ⟨hlt, hget⟩ := List.getElem?_eq_some_iff.mp hname
  rw [placementRank, ← hget]
  exact List.Nodup.idxOf_getElem (nodup_orderedTensors g) i hlt

/-- What is placed before a tensor, and what after. -/
theorem exists_split (hnode : node ∈ g.executionOrder) :
    ∃ before after, orderedTensors g = before ++ node :: after ∧
      ∀ b, b ∈ before ↔ b ∈ g.executionOrder ∧ placementRank g b < placementRank g node := by
  obtain ⟨before, after, horder⟩ := append_of_mem (mem_orderedTensors.mpr hnode)
  have hrank : placementRank g node = before.length := placementRank_eq (by simp [horder])
  refine ⟨before, after, horder, fun b => ?_⟩
  rw [hrank]
  constructor
  · intro hb
    obtain ⟨i, hi⟩ := mem_iff_getElem?.mp hb
    obtain ⟨hlt, -⟩ := List.getElem?_eq_some_iff.mp hi
    have hget : (orderedTensors g)[i]? = some b := by
      rw [horder, getElem?_append_left hlt, hi]
    exact ⟨mem_orderedTensors.mp (mem_of_getElem? hget), by rwa [placementRank_eq hget]⟩
  · rintro ⟨hb, hlt⟩
    obtain ⟨i, hi⟩ := mem_iff_getElem?.mp (mem_orderedTensors.mpr hb)
    rw [placementRank_eq hi] at hlt
    rw [horder, getElem?_append_left hlt] at hi
    exact mem_of_getElem? hi

theorem placementRank_injOn : {node | node ∈ g.executionOrder}.InjOn (placementRank g) := by
  intro a ha b hb hrank
  obtain ⟨_, hi⟩ := mem_iff_getElem?.mp (mem_orderedTensors.mpr ha)
  obtain ⟨_, hj⟩ := mem_iff_getElem?.mp (mem_orderedTensors.mpr hb)
  rw [placementRank_eq hi, placementRank_eq hj] at hrank
  rw [hrank, hj] at hi
  exact (Option.some.inj hi).symm

/-- The ranks follow the windows, the conflicts, the sizes and the births. -/
theorem placementRank_lt_iff {a b : OpNode ν} (ha : a ∈ g.executionOrder)
    (hb : b ∈ g.executionOrder) :
    placementRank g a < placementRank g b ↔ PlacedBefore g a b := by
  have before {c d : OpNode ν} (hc : c ∈ g.executionOrder) (hd : d ∈ g.executionOrder)
      (hlt : placementRank g c < placementRank g d) : PlacedBefore g c d := by
    obtain ⟨i, hi⟩ := mem_iff_getElem?.mp (mem_orderedTensors.mpr hc)
    obtain ⟨j, hj⟩ := mem_iff_getElem?.mp (mem_orderedTensors.mpr hd)
    rw [placementRank_eq hi, placementRank_eq hj] at hlt
    obtain ⟨hi', rfl⟩ := List.getElem?_eq_some_iff.mp hi
    obtain ⟨hj', rfl⟩ := List.getElem?_eq_some_iff.mp hj
    exact pairwise_iff_getElem.mp (orderedTensors_pairwise g) i j hi' hj' hlt
  refine ⟨before ha hb, fun hbefore => ?_⟩
  rcases lt_trichotomy (placementRank g a) (placementRank g b) with hlt | heq | hgt
  · exact hlt
  · obtain rfl := placementRank_injOn ha hb heq
    exact absurd hbefore hbefore.asymm
  · exact absurd (before hb ha hgt) hbefore.asymm

/-! ### Safe plans -/

/-- The nonempty nodes of a graph. -/
def nonempty (g : CustomGraph ν) : Set (OpNode ν) :=
  {node | node ∈ g.executionOrder ∧ 0 < node.sizeBytes}

/-- A tensor that nothing consumes is placed after the tensors that are live at its birth. When `y`
is placed after `p` and `q`, and `q` is born after `p` dies but `y` before, then `p` and `y` are
not live together. -/
structure HybridOrderly (g : CustomGraph ν) : Prop where
  idle : ∀ first ∈ nonempty g, ∀ second ∈ nonempty g, LiveAtBirth g first second →
    ¬ Consumed g second → PlacedBefore g first second
  regard : ∀ p ∈ nonempty g, ∀ q ∈ nonempty g, ∀ y ∈ nonempty g, PlacedBefore g p q →
    PlacedBefore g q y → (births g y.outputName : ℤ) ≤ deathOf g p.outputName →
    deathOf g p.outputName < births g q.outputName → Consumed g q →
    ¬ (LiveAtBirth g p y ∨ LiveAtBirth g y p)

theorem births_injOn (g : CustomGraph ν) :
    (nonempty g).InjOn fun node => (births g node.outputName : ℤ) := by
  intro a ha b hb hbirth
  obtain ⟨_, hi⟩ := mem_iff_getElem?.mp ha.1
  obtain ⟨_, hj⟩ := mem_iff_getElem?.mp hb.1
  dsimp only at hbirth
  rw [births_eq g hi, births_eq g hj] at hbirth
  obtain rfl := Int.ofNat_inj.mp hbirth
  exact Option.some.inj (hi.symm.trans hj)

variable {plan : ReusePlan ν}

/-- The offsets of the plan are placements by best fit in the order of the ranks. -/
theorem hybrid_placed (halias : g.aliases = []) (topological : g.Topological)
    (h : hybridBestFitPlan g = .ok plan) :
    OutOfOrder.Placed (fun node => (births g node.outputName : ℤ))
      (fun node => deathOf g node.outputName) (nonempty g) (placementRank g) OpNode.sizeBytes
      (fun node => planOffset plan node.outputName) where
  pos _ hnode := hnode.2
  rank_injOn := placementRank_injOn.mono fun _ hnode => hnode.1
  birth_injOn := births_injOn g
  proper i hi j _ hle := by
    have hconsumed : Consumed g i := (consumed_iff hi.1).mpr (by omega)
    exact (births_lt_deathOf topological hi.1 hconsumed).le
  bestFit j hj := by
    obtain ⟨_, _, horder, hbefore⟩ := exists_split hj.1
    refine ⟨_, fun i => ?_, (hybridOffset_eq halias h horder hj.2).2.2⟩
    simp only [mem_filter, decide_eq_true_eq, hbefore, nonempty, Set.mem_ofPred_eq]
    tauto

theorem beginsIn_iff {first second : OpNode ν} (hfirst : first ∈ g.executionOrder) :
    OutOfOrder.BeginsIn (fun node => (births g node.outputName : ℤ))
      (fun node => deathOf g node.outputName) first second ↔ LiveAtBirth g first second := by
  rw [liveAtBirth_iff hfirst, OutOfOrder.BeginsIn, Int.ofNat_lt]

theorem hybrid_orderly (topological : g.Topological) (ord : HybridOrderly g) :
    OutOfOrder.Orderly (fun node => (births g node.outputName : ℤ))
      (fun node => deathOf g node.outputName) (nonempty g) (placementRank g) where
  empty i hi j hj hbegins hempty := by
    rw [placementRank_lt_iff hi.1 hj.1]
    refine ord.idle i hi j hj ((beginsIn_iff hi.1).mp hbegins) fun hconsumed => ?_
    have := births_lt_deathOf topological hj.1 hconsumed
    omega
  regard p hp q hq y hy hpq hqy hyp hdeath hbirth hoverlap := by
    rw [placementRank_lt_iff hp.1 hq.1] at hpq
    rw [placementRank_lt_iff hq.1 hy.1] at hqy
    have hconsumed : Consumed g q := (consumed_iff hq.1).mpr (by omega)
    refine ord.regard p hp q hq y hy hpq hqy hyp hdeath hconsumed ?_
    rwa [OutOfOrder.Overlap, beginsIn_iff hp.1, beginsIn_iff hy.1] at hoverlap

/-- Every nonempty tensor has an entry, inside the buffer. -/
theorem hybrid_entry (halias : g.aliases = [])
    (h : hybridBestFitPlan g = .ok plan) (hnode : node ∈ nonempty g) :
    plan.entry? node.outputName = some ⟨planOffset plan node.outputName, node.sizeBytes,
      node.outputSpec.shape, node.outputSpec.dtype⟩ ∧ InsideBuffer plan node := by
  obtain ⟨_, _, horder, -⟩ := exists_split hnode.1
  obtain ⟨hentry, hinside, -⟩ := hybridOffset_eq halias h horder hnode.2
  exact ⟨hentry, _, hentry, rfl, hinside⟩

/-- The plan of an orderly order is safe. -/
theorem hybrid_planSafe (halias : g.aliases = []) (topological : g.Topological)
    (h : hybridBestFitPlan g = .ok plan) (ord : HybridOrderly g) : PlanSafe g plan where
  disjoint first hfirst second hsecond hposFirst hposSecond live := by
    have memFirst : first ∈ nonempty g := ⟨hfirst, hposFirst⟩
    have memSecond : second ∈ nonempty g := ⟨hsecond, hposSecond⟩
    have hplaced := hybrid_placed halias topological h
    have hord := hybrid_orderly topological ord
    have hbegins := (beginsIn_iff hfirst).mpr live
    refine ⟨_, _, (hybrid_entry halias h memFirst).1, (hybrid_entry halias h memSecond).1, ?_⟩
    rcases lt_trichotomy (placementRank g first) (placementRank g second) with hlt | heq | hgt
    · exact hplaced.separate_of_overlap hord memFirst memSecond (.inl hbegins) hlt
    · obtain rfl := placementRank_injOn hfirst hsecond heq
      exact absurd live.1 (lt_irrefl _)
    · exact (hplaced.separate_of_overlap hord memSecond memFirst (.inr hbegins) hgt).symm
  inside _ hnode hpos := (hybrid_entry halias h ⟨hnode, hpos⟩).2

end Graph
