import Mosaic.Graph.AnalysisTotal
import Mosaic.Memory.Packing
import Mathlib.Algebra.Order.Field.Basic
import Mathlib.Data.Rat.Cast.Order

/-!
# Liveness and the size of the arena

The backward walk of the analyzer finds, after each node, the tensors that are produced there or
before and consumed later. The planner computes lifetimes on its own, from births and deaths. As
both mean the same, the tensors that are live together lie in separate ranges of the arena, and
the arena is at least as large as the peak.
-/

namespace Graph

open List

variable {ν : Type} [DecidableEq ν] {g : CustomGraph ν}

/-! ### The live sets -/

/-- What the backward walk holds in front of these nodes. -/
def liveBefore (nodes : List (OpNode ν)) : Finset ν :=
  (nodes.foldr livenessStep ([], ∅)).2

theorem liveBefore_cons (node : OpNode ν) (rest : List (OpNode ν)) :
    liveBefore (node :: rest) =
      (liveBefore rest).erase node.outputName ∪ node.inputNames.toFinset :=
  rfl

/-- A tensor is live in front of some nodes when one of them consumes it and none before that
one produces it. -/
theorem mem_liveBefore {nodes : List (OpNode ν)} {name : ν} :
    name ∈ liveBefore nodes ↔ ∃ (k : ℕ) (consumer : OpNode ν), nodes[k]? = some consumer ∧
      name ∈ consumer.inputNames ∧
      ∀ j < k, ∀ node, nodes[j]? = some node → node.outputName ≠ name := by
  induction nodes with
  | nil => simp [liveBefore]
  | cons head rest ih =>
    rw [liveBefore_cons, Finset.mem_union, mem_toFinset, Finset.mem_erase, ih]
    constructor
    · rintro (⟨hne, k, consumer, hk, hin, hfresh⟩ | hin)
      · refine ⟨k + 1, consumer, hk, hin, fun j hj node hnode => ?_⟩
        cases j with
        | zero =>
          obtain rfl : head = node := Option.some.inj hnode
          exact Ne.symm hne
        | succ j => exact hfresh j (Nat.lt_of_succ_lt_succ hj) node hnode
      · exact ⟨0, head, rfl, hin, fun j hj => absurd hj (Nat.not_lt_zero j)⟩
    · rintro ⟨k, consumer, hk, hin, hfresh⟩
      cases k with
      | zero =>
        obtain rfl : head = consumer := Option.some.inj hk
        exact .inr hin
      | succ k =>
        refine .inl ⟨Ne.symm (hfresh 0 (Nat.succ_pos k) head rfl), k, consumer, hk, hin, ?_⟩
        exact fun j hj node hnode => hfresh (j + 1) (Nat.succ_lt_succ hj) node hnode

variable {node : OpNode ν}

/-- The entry of a node records what is live in front of the nodes after it. -/
theorem find_livenessEntry {nodes : List (OpNode ν)} {i : ℕ}
    (distinct : (nodes.map OpNode.outputName).Nodup) (hi : nodes[i]? = some node) :
    (nodes.foldr livenessStep ([], ∅)).1.find? (fun entry => entry.1 = node.outputName) =
      some (node.outputName, liveBefore (nodes.drop (i + 1))) := by
  induction nodes generalizing i with
  | nil => cases hi
  | cons head rest ih =>
    rw [map_cons, nodup_cons] at distinct
    rw [foldr_cons, livenessStep]
    cases i with
    | zero =>
      obtain rfl : head = node := Option.some.inj hi
      exact find?_cons_of_pos (decide_eq_true rfl)
    | succ i =>
      have other : head.outputName ≠ node.outputName := fun same =>
        distinct.1 (same ▸ mem_map_of_mem (mem_of_getElem? hi))
      rw [find?_cons_of_neg (by simpa using other)]
      exact ih distinct.2 hi

theorem liveAfter_eq {i : ℕ} (hi : g.executionOrder[i]? = some node) :
    liveAfter (analyzeLiveness g) node.outputName =
      liveBefore (g.executionOrder.drop (i + 1)) := by
  rw [liveAfter, analyzeLiveness, find_livenessEntry g.nodup hi]
  rfl

/-- Two positions that produce the same tensor are the same. -/
theorem position_unique {i j : ℕ} {first second : OpNode ν}
    (hi : g.executionOrder[i]? = some first) (hj : g.executionOrder[j]? = some second)
    (same : first.outputName = second.outputName) : i = j := by
  rw [← births_eq g hi, ← births_eq g hj, same]

/-- Live after a node are exactly the tensors that it or an earlier node produces and that a
later node consumes. -/
theorem mem_liveAfter_iff (topological : g.Topological) {i : ℕ}
    (hi : g.executionOrder[i]? = some node) (name : ν) :
    name ∈ liveAfter (analyzeLiveness g) node.outputName ↔
      (∃ j ≤ i, ∃ producer, g.executionOrder[j]? = some producer ∧ producer.outputName = name) ∧
        ∃ k, i < k ∧ ∃ consumer, g.executionOrder[k]? = some consumer ∧
          name ∈ consumer.inputNames := by
  rw [liveAfter_eq hi, mem_liveBefore]
  simp only [getElem?_drop]
  constructor
  · rintro ⟨k, consumer, hk, hin, hfresh⟩
    refine ⟨?_, i + 1 + k, by omega, consumer, hk, hin⟩
    -- the producer lies before the consumer, and not between the node and the consumer
    obtain ⟨j, producer, hlt, hj, rfl⟩ := topological _ consumer hk name hin
    refine ⟨j, ?_, producer, hj, rfl⟩
    by_contra hbetween
    refine hfresh (j - (i + 1)) (by omega) producer ?_ rfl
    rwa [Nat.add_sub_cancel' (by omega)]
  · rintro ⟨⟨j, hle, producer, hj, rfl⟩, k, hlt, consumer, hk, hin⟩
    refine ⟨k - (i + 1), consumer, by rwa [Nat.add_sub_cancel' (by omega)], hin, ?_⟩
    intro between _ other hother same
    have := position_unique hother hj same
    omega

/-! ### The tensors in memory at one node -/

section Arena

variable {plan : ReusePlan ν} {i : ℕ} {node : OpNode ν} {name : ν}

/-- A tensor in memory at a node is produced there, or before and consumed later. -/
theorem liveSet_cases (topological : g.Topological) (hi : g.executionOrder[i]? = some node)
    (h : name ∈ liveSet g node.outputName) :
    ∃ j ≤ i, ∃ producer, g.executionOrder[j]? = some producer ∧ producer.outputName = name ∧
      (j < i → ∃ k consumer, i ≤ k ∧ g.executionOrder[k]? = some consumer ∧
        producer.outputName ∈ consumer.inputNames) := by
  rcases Finset.mem_union.mp h with hlive | hself
  · obtain ⟨⟨j, hle, producer, hj, rfl⟩, k, hlt, consumer, hk, hin⟩ :=
      (mem_liveAfter_iff topological hi name).mp hlive
    exact ⟨j, hle, producer, hj, rfl, fun _ => ⟨k, consumer, hlt.le, hk, hin⟩⟩
  · exact ⟨i, le_rfl, node, hi, (Finset.mem_singleton.mp hself).symm,
      fun hlt => absurd hlt (lt_irrefl i)⟩

/-- Two tensors in memory at a node have separate ranges. The earlier of the two is still
consumed after the node, so it was live when the later one was placed. -/
theorem separate_of_liveSet (h : generateOptimizedReusePlan g = .ok plan)
    (halias : g.aliases = []) {j j' : ℕ} {first second : OpNode ν} (hlt : j < j') (hle : j' ≤ i)
    (hj : g.executionOrder[j]? = some first) (hj' : g.executionOrder[j']? = some second)
    (consumed : ∃ k consumer, i ≤ k ∧ g.executionOrder[k]? = some consumer ∧
      first.outputName ∈ consumer.inputNames)
    (hfirst : 0 < first.sizeBytes) (hsecond : 0 < second.sizeBytes) :
    FirstFit.Separate Block.start Block.stop (nodeBlock plan first) (nodeBlock plan second) := by
  obtain ⟨k, consumer, hk, hcons, hin⟩ := consumed
  have hlive : first ∈ liveNodes g j' :=
    mem_liveNodes.mpr ⟨j, hlt, hj, hfirst, k, consumer, hle.trans hk, hcons, hin⟩
  exact separate_of_live h (fun k _ node _ => by rw [halias]; rfl) hj' hsecond hlive

/-- What is in memory at a node fits into the arena. -/
theorem liveBytes_le_total (h : generateOptimizedReusePlan g = .ok plan)
    (halias : g.aliases = []) (topological : g.Topological)
    (hi : g.executionOrder[i]? = some node) :
    liveBytes g node.outputName ≤ plan.totalBufferSizeBytes := by
  refine @Packing.sum_le_of_separate _ (planOffset plan) _ _ _ ?_ ?_
  · intro name hname hpos
    obtain ⟨j, -, _, hj, rfl, -⟩ := liveSet_cases topological hi hname
    rw [CustomGraph.tensorSize_eq hj] at hpos ⊢
    exact stop_le_total h hj hpos
  · intro name hname name' hname' hne hpos hpos'
    obtain ⟨j, hle, first, hj, rfl, hconsumed⟩ := liveSet_cases topological hi hname
    obtain ⟨j', hle', second, hj', rfl, hconsumed'⟩ := liveSet_cases topological hi hname'
    rw [CustomGraph.tensorSize_eq hj] at hpos ⊢
    rw [CustomGraph.tensorSize_eq hj'] at hpos' ⊢
    rcases lt_trichotomy j j' with hlt | rfl | hlt
    · exact separate_of_liveSet h halias hlt hle' hj hj' (hconsumed (hlt.trans_le hle')) hpos hpos'
    · obtain rfl : first = second := Option.some.inj (hj.symm.trans hj')
      exact absurd rfl hne
    · exact (separate_of_liveSet h halias hlt hle hj' hj (hconsumed' (hlt.trans_le hle))
        hpos' hpos).symm

end Arena

/-! ### The peak -/

/-- The search keeps the largest live memory it has seen. -/
theorem foldl_peakStep (nodes : List (OpNode ν)) (peak : PeakInfo ν) :
    (peak.peakMemoryBytes ≤ (nodes.foldl (peakStep g) peak).peakMemoryBytes ∧
      ∀ node ∈ nodes,
        liveBytes g node.outputName ≤ (nodes.foldl (peakStep g) peak).peakMemoryBytes) ∧
    ((nodes.foldl (peakStep g) peak).peakMemoryBytes = peak.peakMemoryBytes ∨
      ∃ node ∈ nodes,
        (nodes.foldl (peakStep g) peak).peakMemoryBytes = liveBytes g node.outputName) := by
  induction nodes generalizing peak with
  | nil => simp
  | cons node rest ih =>
    obtain ⟨⟨hbelow, hall⟩, hattained⟩ := ih (peakStep g peak node)
    rw [foldl_cons]
    have hstep : peak.peakMemoryBytes ≤ (peakStep g peak node).peakMemoryBytes ∧
        liveBytes g node.outputName ≤ (peakStep g peak node).peakMemoryBytes ∧
        ((peakStep g peak node).peakMemoryBytes = peak.peakMemoryBytes ∨
          (peakStep g peak node).peakMemoryBytes = liveBytes g node.outputName) := by
      unfold peakStep
      split
      · rename_i hlarger
        exact ⟨hlarger.le, le_rfl, .inr rfl⟩
      · rename_i hsmaller
        exact ⟨le_rfl, not_lt.mp hsmaller, .inl rfl⟩
    obtain ⟨hkeep, hnode, hchoice⟩ := hstep
    refine ⟨⟨hkeep.trans hbelow, ?_⟩, ?_⟩
    · rintro other (_ | ⟨_, hother⟩)
      · exact hnode.trans hbelow
      · exact hall other hother
    · rcases hattained with hsame | ⟨other, hother, heq⟩
      · rcases hchoice with hold | hnew
        · exact .inl (hsame.trans hold)
        · exact .inr ⟨node, mem_cons_self, hsame.trans hnew⟩
      · exact .inr ⟨other, mem_cons_of_mem _ hother, heq⟩

/-- The peak of a closed graph is the largest live memory. -/
theorem peak_spec (closed : Closed g) :
    ∃ peak, calculatePeakMemory g (analyzeLiveness g) = .ok peak ∧
      (∀ node ∈ g.executionOrder, liveBytes g node.outputName ≤ peak.peakMemoryBytes) ∧
      (peak.peakMemoryBytes = 0 ∨ ∃ node ∈ g.executionOrder,
        peak.peakMemoryBytes = liveBytes g node.outputName) := by
  obtain ⟨⟨-, hall⟩, hattained⟩ := foldl_peakStep (g := g) g.executionOrder ⟨0, none, ∅⟩
  exact ⟨_, calculatePeakMemory_eq_ok closed, hall, hattained⟩

omit [DecidableEq ν] in
theorem CustomGraph.Topological.closed (topological : g.Topological) : Closed g := by
  intro node hnode name hname
  obtain ⟨j, hj⟩ := mem_iff_getElem?.mp hnode
  obtain ⟨_, _, -, hi, rfl⟩ := topological j node hj name hname
  exact mem_names g hi

/-- The live memory of a timeline step as a fraction of the peak. -/
def TimelineStep.occupancyRatio (step : TimelineStep ν) (peakMemoryBytes : ℕ) : ℚ :=
  if peakMemoryBytes > 0 then step.totalMemoryBytes / peakMemoryBytes else 0

omit [DecidableEq ν] in
theorem TimelineStep.occupancyRatio_le_one {step : TimelineStep ν} {peakMemoryBytes : ℕ}
    (h : step.totalMemoryBytes ≤ peakMemoryBytes) : step.occupancyRatio peakMemoryBytes ≤ 1 := by
  unfold occupancyRatio
  split
  · rename_i hpos
    rw [div_le_one (Nat.cast_pos.mpr hpos)]
    exact Nat.cast_le.mpr h
  · exact zero_le_one

/-- After a node live are exactly the tensors produced there or before and consumed later. The
plan of a graph without aliases has at least the size of the peak, the largest sum of the sizes
of a node's output and what is live after the node, and no step of the timeline exceeds it. -/
theorem liveness_and_peak (g : CustomGraph ν) (topological : g.Topological) :
    (∀ (i : ℕ) (node : OpNode ν), g.executionOrder[i]? = some node → ∀ name,
      name ∈ liveAfter (analyzeLiveness g) node.outputName ↔
        (∃ j ≤ i, ∃ producer, g.executionOrder[j]? = some producer ∧
          producer.outputName = name) ∧
        ∃ k, i < k ∧ ∃ consumer, g.executionOrder[k]? = some consumer ∧
          name ∈ consumer.inputNames) ∧
    (g.aliases = [] → ∃ peak timeline plan,
      calculatePeakMemory g (analyzeLiveness g) = .ok peak ∧
      calculateMemoryTimeline g (analyzeLiveness g) = .ok timeline ∧
      generateOptimizedReusePlan g = .ok plan ∧
      (∀ node ∈ g.executionOrder,
        ∑ name ∈ liveAfter (analyzeLiveness g) node.outputName ∪ {node.outputName},
          g.tensorSize name ≤ peak.peakMemoryBytes) ∧
      (peak.peakMemoryBytes = 0 ∨ ∃ node ∈ g.executionOrder, peak.peakMemoryBytes =
        ∑ name ∈ liveAfter (analyzeLiveness g) node.outputName ∪ {node.outputName},
          g.tensorSize name) ∧
      peak.peakMemoryBytes ≤ plan.totalBufferSizeBytes ∧
      ∀ step ∈ timeline, step.totalMemoryBytes ≤ plan.totalBufferSizeBytes ∧
        step.occupancyRatio peak.peakMemoryBytes ≤ 1) := by
  refine ⟨fun i node hi name => mem_liveAfter_iff topological hi name, fun halias => ?_⟩
  obtain ⟨plan, hplan⟩ := exists_plan (g := g) fun j node _ _ source target hfind => by
    simp [halias] at hfind
  obtain ⟨peak, hpeak, hall, hattained⟩ := peak_spec topological.closed
  -- What is live at a step has places that do not overlap, all below the size of the buffer.
  have hfits : ∀ node ∈ g.executionOrder,
      liveBytes g node.outputName ≤ plan.totalBufferSizeBytes := by
    intro node hnode
    obtain ⟨i, hi⟩ := mem_iff_getElem?.mp hnode
    exact liveBytes_le_total hplan halias topological hi
  refine ⟨peak, _, plan, hpeak, calculateMemoryTimeline_eq_ok topological.closed, hplan, hall,
    hattained, ?_, ?_⟩
  · rcases hattained with hzero | ⟨node, hnode, heq⟩
    · exact hzero ▸ Nat.zero_le _
    · exact heq ▸ hfits node hnode
  · intro step hstep
    obtain ⟨node, hnode, rfl⟩ := mem_map.mp hstep
    exact ⟨hfits node hnode, TimelineStep.occupancyRatio_le_one (hall node hnode)⟩

theorem liveness_and_peak_chain : ∃ (g : CustomGraph ℕ) (peak : PeakInfo ℕ) (plan : ReusePlan ℕ),
    (CustomGraph.empty ℕ).addOps chainCalls = .ok g ∧
      calculatePeakMemory g (analyzeLiveness g) = .ok peak ∧
      generateOptimizedReusePlan g = .ok plan ∧
      peak.peakMemoryBytes ≤ plan.totalBufferSizeBytes := by
  have built : ∃ g, (CustomGraph.empty ℕ).addOps chainCalls = .ok g := ⟨_, rfl⟩
  obtain ⟨g, hg⟩ := built
  obtain ⟨peak, -, plan, hpeak, -, hplan, -, -, hle, -⟩ :=
    (liveness_and_peak g (chain_topological hg)).2 (CustomGraph.addOps_eq_ok hg).2
  exact ⟨g, peak, plan, hg, hpeak, hplan, hle⟩

end Graph
