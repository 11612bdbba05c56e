import Mosaic.Graph.PlanEquations
import Mosaic.Memory.ArenaLogic

/-!
# Safety of reuse plans

The planner puts a tensor at the first gap between the blocks that are still needed. That the
gap is free depends on the needed blocks being pairwise separate, which in turn is what all
the earlier placements established. The induction over the placements needs no condition on
the sizes or the lifetimes, only that no earlier tensor was forced onto another one.

A graph is executed in one arena by storing the output of every node at its planned offset.
-/

namespace Graph

open List

variable {ν : Type} [DecidableEq ν]

/-! ### Live blocks are separate -/

/-- No node before position `j` is forced onto another tensor. -/
def UnaliasedBefore (g : CustomGraph ν) (j : ℕ) : Prop :=
  ∀ i < j, ∀ node, g.executionOrder[i]? = some node →
    g.aliases.find? (fun link => link.1 = node.outputName) = none

theorem UnaliasedBefore.mono {g : CustomGraph ν} {i j : ℕ} (h : UnaliasedBefore g j)
    (hle : i ≤ j) : UnaliasedBefore g i :=
  fun k hk => h k (by omega)

theorem mem_take_iff {β : Type} {l : List β} {j : ℕ} {b : β} :
    b ∈ l.take j ↔ ∃ i < j, l[i]? = some b := by
  rw [mem_iff_getElem?]
  refine exists_congr fun i => ?_
  by_cases hi : i < j <;> simp [hi]

theorem mem_liveNodes {g : CustomGraph ν} {j : ℕ} {node : OpNode ν} :
    node ∈ liveNodes g j ↔ ∃ i < j, g.executionOrder[i]? = some node ∧ 0 < node.sizeBytes ∧
      ∃ k consumer, j ≤ k ∧ g.executionOrder[k]? = some consumer ∧
        node.outputName ∈ consumer.inputNames := by
  simp only [liveNodes, mem_filter, mem_take_iff, decide_eq_true_eq]
  constructor
  · rintro ⟨⟨⟨i, hlt, hi⟩, hpos⟩, hdeath⟩
    exact ⟨i, hlt, hi, hpos, (le_deaths_iff g (mem_names g hi) j _).mp hdeath⟩
  · rintro ⟨i, hlt, hi, hpos, hconsumed⟩
    exact ⟨⟨⟨i, hlt, hi⟩, hpos⟩, (le_deaths_iff g (mem_names g hi) j _).mpr hconsumed⟩

section Plan

variable {g : CustomGraph ν} {plan : ReusePlan ν} {i j : ℕ} {node earlier : OpNode ν}

/-- Among separate live blocks a tensor without alias gets the least feasible offset. -/
theorem planOffset_isLeast (h : generateOptimizedReusePlan g = .ok plan)
    (hj : g.executionOrder[j]? = some node) (hpos : 0 < node.sizeBytes)
    (halias : g.aliases.find? (fun link => link.1 = node.outputName) = none)
    (separate : (liveBlocks g plan j).Pairwise (FirstFit.Separate Block.start Block.stop)) :
    IsLeast (FirstFit.Feasible Block.start Block.stop node.sizeBytes (liveBlocks g plan j))
      (planOffset plan node.outputName) := by
  rw [planOffset_eq_firstFit h hj hpos halias]
  refine FirstFit.firstFit_isLeast _ _ ?_ separate
  intro block hblock
  obtain ⟨_, hlive, rfl⟩ := mem_map.mp hblock
  obtain ⟨-, -, -, hsize, -⟩ := mem_liveNodes.mp hlive
  exact Nat.lt_add_of_pos_right hsize

/-- The live blocks at a position are pairwise separate as soon as every tensor placed before
misses the tensors that are live at its birth. -/
theorem liveBlocks_pairwise_of
    (placed : ∀ b < j, ∀ node, g.executionOrder[b]? = some node → 0 < node.sizeBytes →
      ∀ earlier ∈ liveNodes g b,
        FirstFit.Separate Block.start Block.stop (nodeBlock plan earlier) (nodeBlock plan node)) :
    (liveBlocks g plan j).Pairwise (FirstFit.Separate Block.start Block.stop) := by
  have hget : ∀ {a : ℕ} (ha : a < (g.executionOrder.take j).length),
      a < j ∧ g.executionOrder[a]? = some (g.executionOrder.take j)[a] := by
    intro a ha
    rw [List.length_take] at ha
    exact ⟨by omega, by simp⟩
  rw [liveBlocks, pairwise_map, liveNodes, pairwise_filter, pairwise_filter, pairwise_iff_getElem]
  intro a b ha hb hlt hposa hposb hdeatha _
  obtain ⟨-, hgeta⟩ := hget ha
  obtain ⟨hbj, hgetb⟩ := hget hb
  -- what is live at `j` was already live at the birth of the later of the two
  obtain ⟨k, consumer, hk, hcons, hin⟩ :=
    (le_deaths_iff g (mem_names g hgeta) j _).mp (of_decide_eq_true hdeatha)
  exact placed b hbj _ hgetb (of_decide_eq_true hposb) _ (mem_liveNodes.mpr
    ⟨a, hlt, hgeta, of_decide_eq_true hposa, k, consumer, by omega, hcons, hin⟩)

section

variable (h : generateOptimizedReusePlan g = .ok plan)
include h

/-- A tensor misses every earlier tensor that is still consumed at or after its birth. -/
theorem separate_of_live (unaliased : UnaliasedBefore g (j + 1))
    (hj : g.executionOrder[j]? = some node) (hpos : 0 < node.sizeBytes)
    (hlive : earlier ∈ liveNodes g j) :
    FirstFit.Separate Block.start Block.stop (nodeBlock plan earlier) (nodeBlock plan node) := by
  induction j using Nat.strong_induction_on generalizing node earlier with
  | _ j ih =>
    have separate : (liveBlocks g plan j).Pairwise
        (FirstFit.Separate Block.start Block.stop) :=
      liveBlocks_pairwise_of fun b hb node hnode hpos earlier hearlier =>
        ih b hb (unaliased.mono (by omega)) hnode hpos hearlier
    have hleast := planOffset_isLeast h hj hpos (unaliased j (by omega) node hj) separate
    exact (hleast.1 _ (mem_map_of_mem hlive)).symm

/-- The live blocks at a position are pairwise separate. -/
theorem liveBlocks_pairwise (unaliased : UnaliasedBefore g j) :
    (liveBlocks g plan j).Pairwise (FirstFit.Separate Block.start Block.stop) :=
  liveBlocks_pairwise_of fun _ hb _ hnode hpos _ hearlier =>
    separate_of_live h (unaliased.mono hb) hnode hpos hearlier

/-! ### Where offsets come from -/

/-- The offset of a tensor is zero, the end of an earlier tensor that some node consumes, or the
offset of an earlier tensor. -/
theorem planOffset_cases (ready : AliasesReady g) (hj : g.executionOrder[j]? = some node)
    (hpos : 0 < node.sizeBytes) : planOffset plan node.outputName = 0 ∨
      ∃ i < j, ∃ source, g.executionOrder[i]? = some source ∧ 0 < source.sizeBytes ∧
        ((∃ consumer ∈ g.executionOrder, source.outputName ∈ consumer.inputNames) ∧
            planOffset plan node.outputName =
              planOffset plan source.outputName + source.sizeBytes ∨
          planOffset plan node.outputName = planOffset plan source.outputName) := by
  cases halias : g.aliases.find? fun link => link.1 = node.outputName with
  | some link =>
    obtain ⟨source, target⟩ := link
    obtain ⟨producer, hprod, rfl, hsize⟩ := ready j node hj hpos source target halias
    obtain ⟨i, hlt, hi⟩ := mem_take_iff.mp hprod
    exact .inr ⟨i, hlt, producer, hi, hsize, .inr (planOffset_eq_target h hj hpos halias)⟩
  | none =>
    rw [planOffset_eq_firstFit h hj hpos halias]
    rcases FirstFit.firstFit_eq_zero_or_stop node.sizeBytes (liveBlocks g plan j) with
      hzero | ⟨block, hblock, hstop⟩
    · exact .inl hzero
    · obtain ⟨live, hlive, rfl⟩ := mem_map.mp hblock
      obtain ⟨i, hlt, hi, hsize, _, consumer, -, hk, hin⟩ := mem_liveNodes.mp hlive
      exact .inr ⟨i, hlt, live, hi, hsize, .inl ⟨⟨consumer, mem_of_getElem? hk, hin⟩, hstop⟩⟩

end

/-- When the sizes of all tensors that some node consumes are multiples of `d`, so are all
offsets, those of the tensors that nothing consumes included. -/
theorem dvd_planOffset {d : ℕ} (h : generateOptimizedReusePlan g = .ok plan)
    (ready : AliasesReady g) (aligned : ∀ node ∈ g.executionOrder, ∀ consumer ∈ g.executionOrder,
      node.outputName ∈ consumer.inputNames → d ∣ node.sizeBytes)
    (hj : g.executionOrder[j]? = some node) (hpos : 0 < node.sizeBytes) :
    d ∣ planOffset plan node.outputName := by
  induction j using Nat.strong_induction_on generalizing node with
  | h j ih =>
    rcases planOffset_cases h ready hj hpos with hzero | ⟨i, hlt, source, hi, hsize, hsrc⟩
    · rw [hzero]
      exact Nat.dvd_zero d
    · have hoff := ih i hlt hi hsize
      rcases hsrc with ⟨⟨consumer, hcons, hin⟩, hstop⟩ | hsame
      · rw [hstop]
        exact Nat.dvd_add hoff (aligned source (mem_of_getElem? hi) consumer hcons hin)
      · rwa [hsame]

end Plan

/-! ### Executing a graph in one arena -/

section Execution

variable {α : Type}

/-- The tensor `name` as a view of all its cells. -/
def tensorView (g : CustomGraph ν) (name : ν) : Arena.View ν :=
  ⟨name, 0, g.tensorSize name⟩

/-- A node as a kernel: it reads all its inputs and stores its output. -/
def nodeKernel (g : CustomGraph ν) (sem : ν → List (List α) → ℕ → α) (node : OpNode ν) :
    Arena.Kernel ν α where
  reads := node.inputNames.map (tensorView g)
  writes := [tensorView g node.outputName]
  value inputs _ i := sem node.outputName inputs i

/-- The nodes of a graph in execution order. The reads of a run are the input values of the
nodes, one after the other. -/
def graphProgram (g : CustomGraph ν) (sem : ν → List (List α) → ℕ → α) : List (Arena.Op ν α) :=
  g.executionOrder.map fun node => .kernel (nodeKernel g sem node)

variable {g : CustomGraph ν}

theorem tensorView_eq {i : ℕ} {node : OpNode ν} (hi : g.executionOrder[i]? = some node) :
    tensorView g node.outputName = ⟨node.outputName, 0, node.sizeBytes⟩ := by
  rw [tensorView, CustomGraph.tensorSize_eq hi]

/-- The tensors produced before position `j` and consumed at or after it. -/
def liveViews (g : CustomGraph ν) (j : ℕ) : List (Arena.View ν) :=
  ((g.executionOrder.take j).filter fun node =>
    (j : ℤ) ≤ (deaths g node.outputName).getD g.names.length).map fun node =>
      tensorView g node.outputName

theorem mem_liveViews {j : ℕ} {v : Arena.View ν} :
    v ∈ liveViews g j ↔ ∃ i < j, ∃ node, g.executionOrder[i]? = some node ∧
      (∃ k consumer, j ≤ k ∧ g.executionOrder[k]? = some consumer ∧
        node.outputName ∈ consumer.inputNames) ∧ v = tensorView g node.outputName := by
  simp only [liveViews, mem_map, mem_filter, mem_take_iff, decide_eq_true_eq]
  constructor
  · rintro ⟨node, ⟨⟨i, hlt, hi⟩, hdeath⟩, rfl⟩
    exact ⟨i, hlt, node, hi, (le_deaths_iff g (mem_names g hi) j _).mp hdeath, rfl⟩
  · rintro ⟨i, hlt, node, hi, hconsumed, rfl⟩
    exact ⟨node, ⟨⟨i, hlt, hi⟩, (le_deaths_iff g (mem_names g hi) j _).mpr hconsumed⟩, rfl⟩

variable {plan : ReusePlan ν}

/-- In the arena, a tensor misses the tensors that are live at its birth. -/
theorem apart_of_live {i j : ℕ} {node earlier : OpNode ν}
    (h : generateOptimizedReusePlan g = .ok plan) (unaliased : UnaliasedBefore g (j + 1))
    (hj : g.executionOrder[j]? = some node) (hlt : i < j)
    (hi : g.executionOrder[i]? = some earlier)
    (consumed : ∃ k consumer, j ≤ k ∧ g.executionOrder[k]? = some consumer ∧
      earlier.outputName ∈ consumer.inputNames) :
    Arena.Apart (planOffset plan) (tensorView g earlier.outputName)
      (tensorView g node.outputName) := by
  rw [tensorView_eq hi, tensorView_eq hj]
  rcases Nat.eq_zero_or_pos earlier.sizeBytes with hzero | hearlier
  · exact .inl hzero
  rcases Nat.eq_zero_or_pos node.sizeBytes with hzero | hnode
  · exact .inr (.inl hzero)
  have hlive : earlier ∈ liveNodes g j := mem_liveNodes.mpr ⟨i, hlt, hi, hearlier, consumed⟩
  exact .inr (.inr (separate_of_live h unaliased hj hnode hlive))

/-- One node: agreement on what is live before it gives agreement on what is live after. -/
theorem nodeKernel_safe {j : ℕ} {node : OpNode ν}
    (h : generateOptimizedReusePlan g = .ok plan) (unaliased : UnaliasedBefore g (j + 1))
    (topological : g.Topological) (sem : ν → List (List α) → ℕ → α)
    (hj : g.executionOrder[j]? = some node) :
    Arena.Safe (planOffset plan) (liveViews g j) [.kernel (nodeKernel g sem node)]
      (liveViews g (j + 1)) := by
  have hinput : ∀ v ∈ (nodeKernel g sem node).reads, Arena.Covered (liveViews g j) v ∧
      Arena.Apart (planOffset plan) v (tensorView g node.outputName) := by
    intro v hv
    obtain ⟨name, hname, rfl⟩ := mem_map.mp hv
    obtain ⟨i, producer, hlt, hi, rfl⟩ := topological j node hj name hname
    have consumed : ∃ k consumer, j ≤ k ∧ g.executionOrder[k]? = some consumer ∧
        producer.outputName ∈ consumer.inputNames := ⟨j, node, le_rfl, hj, hname⟩
    exact ⟨.of_mem (mem_liveViews.mpr ⟨i, hlt, producer, hi, consumed, rfl⟩),
      apart_of_live h unaliased hj hlt hi consumed⟩
  refine Arena.Safe.kernel (fun v hv => (hinput v hv).1) ?_ ?_ fun v hv => ?_
  · intro w hw v hv
    obtain rfl := mem_singleton.mp hw
    exact (hinput v hv).2
  · intro w hw w' hw' hne
    obtain rfl := mem_singleton.mp hw
    obtain rfl := mem_singleton.mp hw'
    exact absurd rfl hne
  · obtain ⟨i, hlt, live, hi, ⟨k, consumer, hk, hcons, hin⟩, rfl⟩ := mem_liveViews.mp hv
    have consumed : ∃ k consumer, j ≤ k ∧ g.executionOrder[k]? = some consumer ∧
        live.outputName ∈ consumer.inputNames := ⟨k, consumer, by omega, hcons, hin⟩
    rcases Nat.lt_succ_iff_lt_or_eq.mp hlt with hlt | rfl
    · refine .inr ⟨mem_liveViews.mpr ⟨i, hlt, live, hi, consumed, rfl⟩, fun w hw => ?_⟩
      obtain rfl := mem_singleton.mp hw
      exact apart_of_live h unaliased hj hlt hi consumed
    · obtain rfl : live = node := Option.some.inj (hi.symm.trans hj)
      exact .inl (mem_singleton.mpr rfl)

/-- Executed in one arena, every node of the graph sees the inputs it sees with separate
buffers. -/
theorem graphProgram_safe (h : generateOptimizedReusePlan g = .ok plan) (halias : g.aliases = [])
    (topological : g.Topological) (sem : ν → List (List α) → ℕ → α) :
    Arena.Safe (planOffset plan) [] (graphProgram g sem) (liveViews g g.executionOrder.length) := by
  have hpre : ∀ j ≤ g.executionOrder.length,
      Arena.Safe (planOffset plan) []
        ((g.executionOrder.take j).map fun node => .kernel (nodeKernel g sem node))
        (liveViews g j) := by
    intro j hj
    induction j with
    | zero => exact Arena.Safe.nil _ _
    | succ j ih =>
      have hget := getElem?_eq_getElem (l := g.executionOrder) (i := j) (by omega)
      rw [← take_concat_get' g.executionOrder j (by omega), map_append]
      exact (ih (by omega)).append
        (nodeKernel_safe h (fun i _ node _ => by rw [halias]; rfl) topological sem hget)
  simpa [graphProgram] using hpre _ le_rfl

end Execution

/-- Plans of graphs without aliases. Two nonempty tensors of which the second is born while the
first is still to be consumed occupy disjoint ranges, every range lies inside the buffer, and
running the nodes in order in one arena shows every node the input values it would see with
one buffer for each tensor. -/
theorem reuse_plan_safe {calls : List (CustomGraph.OpCall ν)} {g : CustomGraph ν}
    (built : (CustomGraph.empty ν).addOps calls = .ok g) (topological : g.Topological) :
    ∃ plan, generateOptimizedReusePlan g = .ok plan ∧
      (∀ first ∈ g.executionOrder, ∀ second ∈ g.executionOrder,
        0 < first.sizeBytes → 0 < second.sizeBytes →
        births g first.outputName < births g second.outputName →
        (∃ death, deaths g first.outputName = some death ∧
          (births g second.outputName : ℤ) ≤ death) →
        ∃ a b, plan.entry? first.outputName = some a ∧ plan.entry? second.outputName = some b ∧
          (a.offset + a.size ≤ b.offset ∨ b.offset + b.size ≤ a.offset)) ∧
      (∀ node ∈ g.executionOrder, 0 < node.sizeBytes →
        ∃ a, plan.entry? node.outputName = some a ∧ a.size = node.sizeBytes ∧
          a.offset + a.size ≤ plan.totalBufferSizeBytes) ∧
      ∀ (α : Type) (sem : ν → List (List α) → ℕ → α) (m : Arena.Mem α) (σ : Arena.Store ν α),
        (∃ outs m', Arena.Exec (planOffset plan) (graphProgram g sem) m outs m') ∧
        ∀ outs m', Arena.Exec (planOffset plan) (graphProgram g sem) m outs m' →
          outs = (Arena.evalAll (graphProgram g sem) σ).2 := by
  have halias : g.aliases = [] := (CustomGraph.addOps_eq_ok built).2
  obtain ⟨plan, h⟩ := exists_plan (g := g) fun j node _ _ source target hfind => by
    simp [halias] at hfind
  refine ⟨plan, h, ?_, ?_, fun α sem m σ => ⟨Arena.exists_exec _ _, fun outs m' hexec => ?_⟩⟩
  · rintro first hfirst second hsecond hposFirst hposSecond hlt ⟨death, hdeath, hle⟩
    obtain ⟨i, hi⟩ := mem_iff_getElem?.mp hfirst
    obtain ⟨j, hj⟩ := mem_iff_getElem?.mp hsecond
    rw [births_eq g hi, births_eq g hj] at hlt
    rw [births_eq g hj] at hle
    -- A tensor whose death comes later is live when the second one is placed.
    have hconsumed := (le_deaths_iff g (mem_names g hi) j 0).mp (by rw [hdeath]; exact hle)
    have hlive := mem_liveNodes.mpr ⟨i, hlt, hi, hposFirst, hconsumed⟩
    refine ⟨_, _, entry?_eq h hi hposFirst, entry?_eq h hj hposSecond, ?_⟩
    exact separate_of_live h (fun k _ node _ => by rw [halias]; rfl) hj hposSecond hlive
  · intro node hnode hpos
    obtain ⟨i, hi⟩ := mem_iff_getElem?.mp hnode
    exact ⟨_, entry?_eq h hi hpos, rfl, stop_le_total h hi hpos⟩
  · -- Nothing is live at the start, so that any memory stands for any store.
    have hsync : Arena.Sync (planOffset plan) [] m σ := nofun
    exact ((graphProgram_safe h halias topological sem).run m σ outs m' hsync hexec).2


/-- Three operations in a row, the last of which can reuse the memory of the first. -/
def chainCalls : List (CustomGraph.OpCall ℕ) :=
  [⟨0, "input", [], [2, 3], .bfloat16⟩, ⟨1, "gemm", [0], [2, 5], .bfloat16⟩,
    ⟨2, "gemm", [1], [2, 3], .bfloat16⟩]

theorem chain_topological {g : CustomGraph ℕ}
    (built : (CustomGraph.empty ℕ).addOps chainCalls = .ok g) : g.Topological :=
  CustomGraph.topological_of_order (CustomGraph.addOps_eq_ok built).1 (by decide)

theorem reuse_plan_safe_chain :
    ∃ g plan, (CustomGraph.empty ℕ).addOps chainCalls = .ok g ∧ g.Topological ∧
      generateOptimizedReusePlan g = .ok plan ∧
      (plan.entries.map fun entry => entry.2.offset) = [0, 12, 0] ∧
      ∀ (sem : ℕ → List (List Bool) → ℕ → Bool) m σ outs m',
        Arena.Exec (planOffset plan) (graphProgram g sem) m outs m' →
          outs = (Arena.evalAll (graphProgram g sem) σ).2 := by
  have built : ∃ g, (CustomGraph.empty ℕ).addOps chainCalls = .ok g := ⟨_, rfl⟩
  obtain ⟨g, hg⟩ := built
  obtain ⟨plan, hplan, -, -, hrun⟩ := reuse_plan_safe hg (chain_topological hg)
  refine ⟨g, plan, hg, chain_topological hg, hplan, ?_, fun sem m σ => (hrun Bool sem m σ).2⟩
  cases hg
  cases hplan
  rfl

end Graph
