import Mosaic.Graph.Ilp
import Mathlib.Algebra.Order.BigOperators.Group.List

/-!
# Safety of the integer program planner

A solution keeps the tensors of a pair apart, and whole offsets stay as they are. So the plan of a
sound optimal answer with whole offsets fails only for the pairs that are not posted, those with a
tensor that nothing consumes. Other offsets may be rounded towards each other, and then one byte
is shared by tensors of which one has an odd size. An answer that is not optimal says nothing.
-/

namespace Graph

open List Function LinearProgram Int

variable {ν : Type} [DecidableEq ν]

/-! ### Safe plans -/

/-- The first tensor is live when the node of the second runs: it was produced before, and it is
consumed by this node or later, or not at all. -/
def LiveWhenRuns (g : CustomGraph ν) (first second : OpNode ν) : Prop :=
  births g first.outputName < births g second.outputName ∧
    (¬ Consumed g first ∨ (births g second.outputName : ℤ) ≤ deathOf g first.outputName)

/-- The range of every output is disjoint from the ranges of the tensors that are live when its
node runs, and all ranges are inside the buffer. -/
structure IlpSafe (g : CustomGraph ν) (plan : IlpPlan ν) : Prop where
  disjoint : ∀ first ∈ g.executionOrder, ∀ second ∈ g.executionOrder, 0 < first.sizeBytes →
    0 < second.sizeBytes → LiveWhenRuns g first second →
    ∃ a b, plan.entry? first.outputName = some a ∧ plan.entry? second.outputName = some b ∧
      (a.offset + a.size ≤ b.offset ∨ b.offset + b.size ≤ a.offset)
  inside : ∀ node ∈ g.executionOrder, 0 < node.sizeBytes →
    ∃ a, plan.entry? node.outputName = some a ∧ a.size = node.sizeBytes ∧ 0 ≤ a.offset ∧
      a.offset + a.size ≤ plan.totalBufferSizeBytes

/-- Nonempty tensors of which one is live when the other one is produced both have a consumer. -/
def LiveConsumed (g : CustomGraph ν) : Prop :=
  ∀ first ∈ nonzeroTensors g, ∀ second ∈ nonzeroTensors g, LiveWhenRuns g first second →
    Consumed g first ∧ Consumed g second

/-- Nonempty tensors of which one is live when the other one is produced have even sizes. -/
def LiveEven (g : CustomGraph ν) : Prop :=
  ∀ first ∈ nonzeroTensors g, ∀ second ∈ nonzeroTensors g, LiveWhenRuns g first second →
    Even first.sizeBytes ∧ Even second.sizeBytes

/-- All offsets of an answer are whole numbers. -/
def LpAnswer.Whole (answer : LpAnswer ν) : Prop :=
  ∀ name x, answer.HasOffset name x → ∃ n : ℤ, x = n

/-- The plans that sound answers of some kind lead to are safe. -/
def SafeFor (g : CustomGraph ν) (kind : LpAnswer ν → Prop) : Prop :=
  ∀ solve : Problem (LpVar ν) → LpAnswer ν, (solve (ilpProblem g)).Sound (ilpProblem g) →
    kind (solve (ilpProblem g)) → ∀ plan, ilpPlan solve g = .ok plan → IlpSafe g plan

section Plan

variable {g : CustomGraph ν} {first second node : OpNode ν} {plan : IlpPlan ν}
  {solve : Problem (LpVar ν) → LpAnswer ν}

/-- The entry of a tensor, and the size of the buffer. -/
theorem ilp_entry (hnode : node ∈ nonzeroTensors g) (h : ilpPlan solve g = .ok plan) :
    plan.entry? node.outputName = some ⟨roundedOffset (solve (ilpProblem g)) node.outputName,
      node.sizeBytes, node.outputSpec.shape, node.outputSpec.dtype⟩ ∧
    plan.totalBufferSizeBytes = roundedTotal (solve (ilpProblem g)) := by
  have hne : nonzeroTensors g ≠ [] := ne_nil_of_mem hnode
  rw [ilpPlan, if_neg hne] at h
  dsimp only at h
  split at h
  · cases h
  · cases h
    refine ⟨?_, rfl⟩
    rw [IlpPlan.entry?, find?_map]
    change Option.map _ (Option.map _
      ((nonzeroTensors g).find? fun other => other.outputName = node.outputName)) = _
    rw [find?_nonzeroTensors hnode]
    rfl

/-- A plan exists unless the solver says that there is no solution. -/
theorem exists_ilpPlan (hstatus : (solve (ilpProblem g)).status ≠ .infeasible) :
    ∃ plan, ilpPlan solve g = .ok plan := by
  rw [ilpPlan]
  split
  · exact ⟨_, rfl⟩
  · rw [if_neg hstatus]
    exact ⟨_, rfl⟩

/-- Live tensors with consumers are a pair of the problem. -/
theorem mem_ilpConflicts_of_live (topological : g.Topological) (hfirst : first ∈ nonzeroTensors g)
    (hsecond : second ∈ nonzeroTensors g) (live : LiveWhenRuns g first second)
    (consumed : Consumed g first ∧ Consumed g second) :
    (first.outputName, second.outputName) ∈ ilpConflicts g ∨
      (second.outputName, first.outputName) ∈ ilpConflicts g := by
  obtain ⟨hlt, hlive⟩ := live
  have hle := hlive.resolve_left (not_not.mpr consumed.1)
  have hproper := births_lt_deathOf topological (mem_nonzeroTensors.mp hsecond).1 consumed.2
  refine (mem_ilpConflicts hfirst hsecond).mpr ⟨?_, hle, by omega⟩
  rintro rfl
  exact lt_irrefl _ hlt

/-- The two tensors of a pair are live together and have consumers. -/
theorem live_of_mem_ilpConflicts (hfirst : first ∈ nonzeroTensors g)
    (hsecond : second ∈ nonzeroTensors g)
    (h : (first.outputName, second.outputName) ∈ ilpConflicts g ∨
      (second.outputName, first.outputName) ∈ ilpConflicts g) :
    (LiveWhenRuns g first second ∨ LiveWhenRuns g second first) ∧ Consumed g first ∧
      Consumed g second := by
  obtain ⟨hne, hle, hle'⟩ := (mem_ilpConflicts hfirst hsecond).mp h
  obtain ⟨hmemFirst, -⟩ := mem_nonzeroTensors.mp hfirst
  obtain ⟨hmemSecond, -⟩ := mem_nonzeroTensors.mp hsecond
  have hbirths : births g first.outputName ≠ births g second.outputName := fun heq =>
    hne (eq_of_name_eq hfirst hsecond
      ((idxOf_inj (mem_map_of_mem hmemFirst)).mp heq))
  refine ⟨?_, (consumed_iff hmemFirst).mpr (by omega), (consumed_iff hmemSecond).mpr (by omega)⟩
  rcases hbirths.lt_or_gt with hlt | hgt
  · exact .inl ⟨hlt, .inr hle⟩
  · exact .inr ⟨hgt, .inr hle'⟩

/-! ### Rounding -/

/-- Two tensors are apart after rounding when the one in front has an even size or a whole
offset. -/
theorem rounded_separated {x y : ℚ} {n : ℕ} (h : x + n ≤ y) (hn : Even n ∨ ∃ k : ℤ, x = k) :
    roundHalfEven x + n ≤ roundHalfEven y := by
  have hmono := roundHalfEven_mono h
  rcases hn with heven | ⟨k, rfl⟩
  · have hsum := roundHalfEven_add_even x ((even_coe_nat n).mpr heven)
    rw [cast_natCast] at hsum
    rwa [hsum] at hmono
  · have hsum : roundHalfEven ((k : ℚ) + n) = k + n := by exact_mod_cast roundHalfEven_intCast _
    rwa [hsum, ← roundHalfEven_intCast k] at hmono

section

variable (hsound : (solve (ilpProblem g)).Sound (ilpProblem g))
  (hstatus : (solve (ilpProblem g)).status = .optimal)
include hsound hstatus

/-- A sound optimal answer gives a tensor the rounded value of a solution. -/
theorem exists_solution :
    ∃ x, (ilpProblem g).Feasible x ∧ roundedTotal (solve (ilpProblem g)) = ⌈x .totalMemory⌉ ∧
      ∀ node ∈ nonzeroTensors g,
        (solve (ilpProblem g)).HasOffset node.outputName (x (.offset node.outputName)) ∧
        roundedOffset (solve (ilpProblem g)) node.outputName =
          roundHalfEven (x (.offset node.outputName)) := by
  obtain ⟨x, hfeasible, hvalues⟩ := hsound hstatus
  refine ⟨x, hfeasible, ?_, fun node hnode => ?_⟩
  · have htotal := hvalues .totalMemory
      (mem_append_left _ (mem_append_right _ mem_cons_self))
    simp [roundedTotal, htotal]
  · have hoff : (solve (ilpProblem g)).varValue (.offset node.outputName) = _ := hvalues _
      (mem_append_left _ (mem_append_left _ (mem_map_of_mem hnode)))
    exact ⟨hoff, by simp [roundedOffset, hoff]⟩

/-- The ranges of an optimal answer are inside the buffer. -/
theorem ilp_inside (h : ilpPlan solve g = .ok plan) (hnode : node ∈ nonzeroTensors g) :
    ∃ a, plan.entry? node.outputName = some a ∧ a.size = node.sizeBytes ∧ 0 ≤ a.offset ∧
      a.offset + a.size ≤ plan.totalBufferSizeBytes := by
  obtain ⟨x, hfeasible, htotal, hoff⟩ := exists_solution hsound hstatus
  obtain ⟨hentry, hbuffer⟩ := ilp_entry hnode h
  obtain ⟨hnonneg, hbound⟩ := bounds_of_feasible hfeasible hnode
  refine ⟨_, hentry, rfl, ?_, ?_⟩
  · dsimp only
    rw [(hoff node hnode).2]
    exact roundHalfEven_nonneg hnonneg
  · -- the end of the tensor is rounded no further up than the size of the buffer
    dsimp only
    rw [hbuffer, htotal, (hoff node hnode).2]
    have hceil := le_ceil (x .totalMemory)
    have hle : x (.offset node.outputName) ≤ ((⌈x .totalMemory⌉ - node.sizeBytes : ℤ) : ℚ) := by
      push_cast
      linarith
    have := roundHalfEven_mono hle
    rw [roundHalfEven_intCast] at this
    omega

end

/-- The plan of an optimal answer is safe when live tensors have consumers, and even sizes or whole
offsets. -/
theorem ilp_safe (topological : g.Topological)
    (hsound : (solve (ilpProblem g)).Sound (ilpProblem g))
    (hstatus : (solve (ilpProblem g)).status = .optimal) (h : ilpPlan solve g = .ok plan)
    (consumed : LiveConsumed g) (even : LiveEven g ∨ (solve (ilpProblem g)).Whole) :
    IlpSafe g plan where
  disjoint first hfirst second hsecond hposFirst hposSecond live := by
    have memFirst : first ∈ nonzeroTensors g := mem_nonzeroTensors.mpr ⟨hfirst, hposFirst⟩
    have memSecond : second ∈ nonzeroTensors g := mem_nonzeroTensors.mpr ⟨hsecond, hposSecond⟩
    obtain ⟨x, hfeasible, -, hoff⟩ := exists_solution hsound hstatus
    obtain ⟨hasFirst, hroundFirst⟩ := hoff first memFirst
    obtain ⟨hasSecond, hroundSecond⟩ := hoff second memSecond
    refine ⟨_, _, (ilp_entry memFirst h).1, (ilp_entry memSecond h).1, ?_⟩
    rw [hroundFirst, hroundSecond]
    -- which of the two is in front
    have hseparated : Separated (fun name => x (.offset name)) first second := by
      rcases mem_ilpConflicts_of_live topological memFirst memSecond live
        (consumed first memFirst second memSecond live) with hpair | hpair
      · exact separated_of_feasible hfeasible memFirst memSecond hpair
      · exact (separated_of_feasible hfeasible memSecond memFirst hpair).symm
    rcases hseparated with hle | hle
    · exact .inl (rounded_separated hle (even.imp
        (fun heven => (heven first memFirst second memSecond live).1)
        fun hwhole => hwhole _ _ hasFirst))
    · exact .inr (rounded_separated hle (even.imp
        (fun heven => (heven first memFirst second memSecond live).2)
        fun hwhole => hwhole _ _ hasSecond))
  inside node hnode hpos := ilp_inside hsound hstatus h (mem_nonzeroTensors.mpr ⟨hnode, hpos⟩)

end Plan

/-! ### Harmful solutions -/

section Harmful

variable {g : CustomGraph ν} {first second node : OpNode ν}

/-- The tensors one behind the other. -/
def stackOffset (lo : ℚ) : List (OpNode ν) → ν → ℚ
  | [], _ => lo
  | node :: rest, name =>
    if node.outputName = name then lo else stackOffset (lo + node.sizeBytes) rest name

theorem stackOffset_range {lo : ℚ} {nodes : List (OpNode ν)} (hnode : node ∈ nodes) :
    lo ≤ stackOffset lo nodes node.outputName ∧
      (nodes.Pairwise (fun a b => a.outputName ≠ b.outputName) →
        stackOffset lo nodes node.outputName + node.sizeBytes ≤
          lo + ((nodes.map OpNode.sizeBytes).sum : ℕ)) := by
  induction nodes generalizing lo with
  | nil => cases hnode
  | cons head rest ih =>
    have hsize : (0 : ℚ) ≤ head.sizeBytes := Nat.cast_nonneg _
    have hrest : (0 : ℚ) ≤ ((rest.map OpNode.sizeBytes).sum : ℕ) := Nat.cast_nonneg _
    rw [map_cons, sum_cons, stackOffset, Nat.cast_add]
    rcases mem_cons.mp hnode with rfl | hmem
    · rw [if_pos rfl]
      exact ⟨le_rfl, fun _ => by linarith⟩
    · obtain ⟨hlo, hhi⟩ := @ih (lo + head.sizeBytes) hmem
      split
      · rename_i hname
        refine ⟨le_rfl, fun hnodup => ?_⟩
        exact absurd hname ((pairwise_cons.mp hnodup).1 node hmem)
      · refine ⟨by linarith, fun hnodup => ?_⟩
        have := hhi (pairwise_cons.mp hnodup).2
        linarith

variable {nodes : List (OpNode ν)}

theorem stackOffset_separated {lo : ℚ}
    (distinct : nodes.Pairwise fun a b => a.outputName ≠ b.outputName) (hfirst : first ∈ nodes)
    (hsecond : second ∈ nodes) (hne : first.outputName ≠ second.outputName) :
    Separated (stackOffset lo nodes) first second := by
  induction nodes generalizing lo with
  | nil => cases hfirst
  | cons head rest ih =>
    obtain ⟨hhead, hrest⟩ := pairwise_cons.mp distinct
    rcases mem_cons.mp hfirst with rfl | hfirstRest
    · have hmem := (mem_cons.mp hsecond).resolve_left fun heq => hne (by rw [heq])
      refine .inl ?_
      rw [stackOffset, if_pos rfl, stackOffset, if_neg hne]
      exact (stackOffset_range hmem).1
    · rcases mem_cons.mp hsecond with rfl | hsecondRest
      · refine .inr ?_
        rw [stackOffset, if_pos rfl, stackOffset, if_neg hne.symm]
        exact (stackOffset_range hfirstRest).1
      · have hseparated := @ih (lo + head.sizeBytes) hrest hfirstRest hsecondRest
        unfold Separated at hseparated ⊢
        rwa [stackOffset, if_neg (hhead first hfirstRest), stackOffset,
          if_neg (hhead second hsecondRest)]

theorem stackOffset_whole (lo : ℤ) (nodes : List (OpNode ν)) (name : ν) :
    ∃ n : ℤ, stackOffset (lo : ℚ) nodes name = n := by
  induction nodes generalizing lo with
  | nil => exact ⟨lo, rfl⟩
  | cons head rest ih =>
    rw [stackOffset]
    split
    · exact ⟨lo, rfl⟩
    · obtain ⟨n, hn⟩ := ih (lo + head.sizeBytes)
      exact ⟨n, by exact_mod_cast hn⟩

omit [DecidableEq ν] in
/-- Two tensors can be moved to the front. -/
theorem exists_front (hfirst : first ∈ nonzeroTensors g) (hsecond : second ∈ nonzeroTensors g)
    (hne : first ≠ second) : ∃ rest, (first :: second :: rest).Perm (nonzeroTensors g) := by
  classical
  have hmem : second ∈ (nonzeroTensors g).erase first :=
    (mem_erase_of_ne hne.symm).mpr hsecond
  exact ⟨((nonzeroTensors g).erase first).erase second,
    ((perm_cons_erase hfirst).trans ((perm_cons_erase hmem).cons first)).symm⟩

/-- The tensors of the graph one behind the other, in any order. -/
theorem stack_range (hperm : nodes.Perm (nonzeroTensors g)) (lo : ℚ)
    (hnode : node ∈ nonzeroTensors g) :
    lo ≤ stackOffset lo nodes node.outputName ∧
      stackOffset lo nodes node.outputName + node.sizeBytes ≤ lo + bigM g := by
  obtain ⟨hlo, hhi⟩ := @stackOffset_range _ _ _ lo _ (hperm.mem_iff.mpr hnode)
  rw [bigM, ← (hperm.map OpNode.sizeBytes).sum_eq]
  exact ⟨hlo, hhi (pairwise_map.mp ((hperm.map OpNode.outputName).nodup_iff.mpr
    (nodup_nonzeroTensors g)))⟩

theorem stack_separated (hperm : nodes.Perm (nonzeroTensors g)) (lo : ℚ)
    (hfirst : first ∈ nonzeroTensors g) (hsecond : second ∈ nonzeroTensors g)
    (hne : first.outputName ≠ second.outputName) :
    Separated (stackOffset lo nodes) first second :=
  stackOffset_separated (pairwise_map.mp ((hperm.map OpNode.outputName).nodup_iff.mpr
    (nodup_nonzeroTensors g))) (hperm.mem_iff.mpr hfirst) (hperm.mem_iff.mpr hsecond) hne

/-- Offsets that are a solution, but bring two live tensors together when they are rounded. -/
theorem exists_unsafe (halias : g.aliases = []) {offset : ν → ℚ} {lo : ℚ} (hlo : 0 ≤ lo)
    (range : ∀ node ∈ nonzeroTensors g, lo ≤ offset node.outputName ∧
      offset node.outputName + node.sizeBytes ≤ lo + bigM g)
    (separated : ∀ first ∈ nonzeroTensors g, ∀ second ∈ nonzeroTensors g,
      (first.outputName, second.outputName) ∈ ilpConflicts g → Separated offset first second)
    (hfirst : first ∈ nonzeroTensors g) (hsecond : second ∈ nonzeroTensors g)
    (live : LiveWhenRuns g first second ∨ LiveWhenRuns g second first)
    (hab : roundHalfEven (offset first.outputName) <
      roundHalfEven (offset second.outputName) + second.sizeBytes)
    (hba : roundHalfEven (offset second.outputName) <
      roundHalfEven (offset first.outputName) + first.sizeBytes) :
    ∃ solve : Problem (LpVar ν) → LpAnswer ν, (solve (ilpProblem g)).Sound (ilpProblem g) ∧
      (solve (ilpProblem g)).status = .optimal ∧
      (∀ name x, (solve (ilpProblem g)).HasOffset name x → x = offset name) ∧
      ∃ plan, ilpPlan solve g = .ok plan ∧ ¬ IlpSafe g plan := by
  obtain ⟨x, hfeasible, hoff⟩ := exists_feasible halias hlo range separated
  let solve (_ : Problem (LpVar ν)) : LpAnswer ν := ⟨.optimal, fun v => some (x v)⟩
  have hstatus : (solve (ilpProblem g)).status ≠ .infeasible := nofun
  obtain ⟨plan, hplan⟩ := exists_ilpPlan hstatus
  refine ⟨solve, fun _ => ⟨x, hfeasible, fun _ _ => rfl⟩, rfl, fun name y hy => ?_, plan, hplan,
    fun hsafe => ?_⟩
  · rw [← Option.some.inj hy, hoff]
  · have rounded (name : ν) :
        roundedOffset (solve (ilpProblem g)) name = roundHalfEven (offset name) := by
      rw [← hoff]
      rfl
    have apart {a b : OpNode ν} (ha : a ∈ nonzeroTensors g) (hb : b ∈ nonzeroTensors g)
        (live : LiveWhenRuns g a b) :
        roundHalfEven (offset a.outputName) + a.sizeBytes ≤ roundHalfEven (offset b.outputName) ∨
          roundHalfEven (offset b.outputName) + b.sizeBytes ≤
            roundHalfEven (offset a.outputName) := by
      obtain ⟨hmemA, hposA⟩ := mem_nonzeroTensors.mp ha
      obtain ⟨hmemB, hposB⟩ := mem_nonzeroTensors.mp hb
      obtain ⟨_, _, hc, hd, hcd⟩ := hsafe.disjoint a hmemA b hmemB hposA hposB live
      rw [(ilp_entry ha hplan).1] at hc
      rw [(ilp_entry hb hplan).1] at hd
      cases hc
      cases hd
      rwa [rounded, rounded] at hcd
    rcases live with hlive | hlive
    · have := apart hfirst hsecond hlive
      omega
    · have := apart hsecond hfirst hlive
      omega

section

variable (halias : g.aliases = []) (hfirst : first ∈ nonzeroTensors g)
  (hsecond : second ∈ nonzeroTensors g)
  (live : LiveWhenRuns g first second ∨ LiveWhenRuns g second first)
include halias hfirst hsecond live

/-- A tensor without consumer can be put on any other one. -/
theorem exists_unsafe_of_idle (hidle : ¬ Consumed g second) :
    ∃ solve : Problem (LpVar ν) → LpAnswer ν, (solve (ilpProblem g)).Sound (ilpProblem g) ∧
      (solve (ilpProblem g)).status = .optimal ∧ (solve (ilpProblem g)).Whole ∧
      ∃ plan, ilpPlan solve g = .ok plan ∧ ¬ IlpSafe g plan := by
  have hne : first ≠ second := by
    rintro rfl
    rcases live with hlive | hlive <;> exact lt_irrefl _ hlive.1
  have hname : first.outputName ≠ second.outputName := fun heq =>
    hne (eq_of_name_eq hfirst hsecond heq)
  obtain ⟨rest, hperm⟩ := exists_front hfirst hsecond hne
  -- the first tensor is at the start of the buffer, and the second one goes there too
  let offset := update (stackOffset 0 (first :: second :: rest)) second.outputName 0
  have hoffsetFirst : offset first.outputName = 0 := by
    simp only [offset]
    rw [update_of_ne hname, stackOffset, if_pos rfl]
  have hoffsetSecond : offset second.outputName = 0 := update_self ..
  have hoff {node : OpNode ν} (hnode : node ∈ nonzeroTensors g) (h : node ≠ second) :
      offset node.outputName = stackOffset 0 (first :: second :: rest) node.outputName :=
    update_of_ne (fun heq => h (eq_of_name_eq hnode hsecond heq)) ..
  have hrange : ∀ node ∈ nonzeroTensors g, 0 ≤ offset node.outputName ∧
      offset node.outputName + node.sizeBytes ≤ 0 + bigM g := by
    intro node hnode
    by_cases heq : node = second
    · have hle : second.sizeBytes ≤ bigM g :=
        le_sum_of_mem (mem_map_of_mem hsecond)
      rw [heq, hoffsetSecond, zero_add, zero_add]
      exact ⟨le_rfl, Nat.cast_le.mpr hle⟩
    · rw [hoff hnode heq]
      exact stack_range hperm 0 hnode
  have hseparated : ∀ a ∈ nonzeroTensors g, ∀ b ∈ nonzeroTensors g,
      (a.outputName, b.outputName) ∈ ilpConflicts g → Separated offset a b := by
    intro a ha b hb hpair
    obtain ⟨-, hconsumedA, hconsumedB⟩ := live_of_mem_ilpConflicts ha hb (.inl hpair)
    obtain ⟨hab, -⟩ := (mem_ilpConflicts ha hb).mp (.inl hpair)
    have hneA : a ≠ second := fun heq => hidle (heq ▸ hconsumedA)
    have hneB : b ≠ second := fun heq => hidle (heq ▸ hconsumedB)
    unfold Separated
    rw [hoff ha hneA, hoff hb hneB]
    exact stack_separated hperm 0 ha hb fun heq => hab (eq_of_name_eq ha hb heq)
  obtain ⟨-, hposFirst⟩ := mem_nonzeroTensors.mp hfirst
  obtain ⟨-, hposSecond⟩ := mem_nonzeroTensors.mp hsecond
  obtain ⟨solve, hsound, hstatus, hvalues, hplan⟩ := exists_unsafe halias le_rfl hrange hseparated
    hfirst hsecond live (by rw [hoffsetFirst, hoffsetSecond]; omega)
    (by rw [hoffsetFirst, hoffsetSecond]; omega)
  refine ⟨solve, hsound, hstatus, fun name x hx => ?_, hplan⟩
  rw [hvalues name x hx]
  by_cases heq : name = second.outputName
  · exact ⟨0, by rw [heq, hoffsetSecond, cast_zero]⟩
  · have hsame : offset name = _ := update_of_ne heq ..
    rw [hsame]
    exact_mod_cast stackOffset_whole 0 _ name

/-- Halves bring a tensor of an odd size together with the one behind it. -/
theorem exists_unsafe_of_odd (hodd : Odd first.sizeBytes) :
    ∃ solve : Problem (LpVar ν) → LpAnswer ν, (solve (ilpProblem g)).Sound (ilpProblem g) ∧
      (solve (ilpProblem g)).status = .optimal ∧
      ∃ plan, ilpPlan solve g = .ok plan ∧ ¬ IlpSafe g plan := by
  have hne : first ≠ second := by
    rintro rfl
    rcases live with hlive | hlive <;> exact lt_irrefl _ hlive.1
  have hname : first.outputName ≠ second.outputName := fun heq =>
    hne (eq_of_name_eq hfirst hsecond heq)
  obtain ⟨rest, hperm⟩ := exists_front hfirst hsecond hne
  have hoffsetFirst : stackOffset (3 / 2) (first :: second :: rest) first.outputName = 3 / 2 := by
    rw [stackOffset, if_pos rfl]
  have hoffsetSecond : stackOffset (3 / 2) (first :: second :: rest) second.outputName =
      3 / 2 + ((first.sizeBytes : ℤ) : ℚ) := by
    rw [stackOffset, if_neg hname, stackOffset, if_pos rfl, cast_natCast]
  have hroundSecond := roundHalfEven_three_halves_add_odd ((odd_coe_nat _).mpr hodd)
  have hpos := hodd.pos
  obtain ⟨-, hposSecond⟩ := mem_nonzeroTensors.mp hsecond
  obtain ⟨solve, hsound, hstatus, -, hplan⟩ := exists_unsafe halias (by norm_num)
    (fun node hnode => stack_range hperm (3 / 2) hnode)
    (fun a ha b hb hpair => stack_separated hperm (3 / 2) ha hb fun heq =>
      ((mem_ilpConflicts ha hb).mp (.inl hpair)).1 (eq_of_name_eq ha hb heq))
    hfirst hsecond live
    (by rw [hoffsetFirst, hoffsetSecond, hroundSecond, roundHalfEven_three_halves]; omega)
    (by rw [hoffsetFirst, hoffsetSecond, hroundSecond, roundHalfEven_three_halves]; omega)
  exact ⟨solve, hsound, hstatus, hplan⟩

end

/-- Of any two tensors that are live together both have consumers, if no kind of answer that covers
the whole offsets leads to an unsafe plan. -/
theorem liveConsumed_of_safeFor (halias : g.aliases = []) {kind : LpAnswer ν → Prop}
    (hkind : ∀ answer : LpAnswer ν, answer.status = .optimal → answer.Whole → kind answer)
    (hsafe : SafeFor g kind) : LiveConsumed g := by
  have consumed {a b : OpNode ν} (ha : a ∈ nonzeroTensors g) (hb : b ∈ nonzeroTensors g)
      (live : LiveWhenRuns g a b ∨ LiveWhenRuns g b a) : Consumed g b := by
    by_contra hidle
    obtain ⟨solve, hsound, hstatus, hwhole, plan, hplan, hunsafe⟩ :=
      exists_unsafe_of_idle halias ha hb live hidle
    exact hunsafe (hsafe solve hsound (hkind _ hstatus hwhole) plan hplan)
  exact fun first hfirst second hsecond live =>
    ⟨consumed hsecond hfirst (.inr live), consumed hfirst hsecond (.inl live)⟩

theorem liveEven_of_safeFor (halias : g.aliases = [])
    (hsafe : SafeFor g fun answer => answer.status = .optimal) : LiveEven g := by
  have even {a b : OpNode ν} (ha : a ∈ nonzeroTensors g) (hb : b ∈ nonzeroTensors g)
      (live : LiveWhenRuns g a b ∨ LiveWhenRuns g b a) : Even a.sizeBytes := by
    by_contra hodd
    obtain ⟨solve, hsound, hstatus, plan, hplan, hunsafe⟩ :=
      exists_unsafe_of_odd halias ha hb live (Nat.not_even_iff_odd.mp hodd)
    exact hunsafe (hsafe solve hsound hstatus plan hplan)
  exact fun first hfirst second hsecond live =>
    ⟨even hfirst hsecond (.inl live), even hsecond hfirst (.inr live)⟩

/-- An answer without values leaves no room for a tensor. -/
theorem safeFor_iff_of_unsolved {kind : LpAnswer ν → Prop} {status : LpStatus}
    (hoptimal : status ≠ .optimal) (hinfeasible : status ≠ .infeasible)
    (hkind : kind ⟨status, fun _ => none⟩) : SafeFor g kind ↔ nonzeroTensors g = [] := by
  constructor
  · intro hsafe
    by_contra hne
    obtain ⟨node, hnode⟩ := exists_mem_of_ne_nil _ hne
    let solve (_ : Problem (LpVar ν)) : LpAnswer ν := ⟨status, fun _ => none⟩
    obtain ⟨plan, hplan⟩ := @exists_ilpPlan _ _ g solve hinfeasible
    obtain ⟨hmem, hpos⟩ := mem_nonzeroTensors.mp hnode
    obtain ⟨_, ha, -, -, hle⟩ :=
      (hsafe solve (fun h => absurd h hoptimal) hkind plan hplan).inside node hmem hpos
    obtain ⟨hentry, htotal⟩ := ilp_entry hnode hplan
    rw [hentry] at ha
    cases ha
    rw [htotal] at hle
    have hzero : roundedOffset (solve (ilpProblem g)) node.outputName = 0 ∧
        roundedTotal (solve (ilpProblem g)) = 0 := ⟨rfl, rfl⟩
    dsimp only at hle
    omega
  · intro hnil solve _ _ plan _
    have hnone {node : OpNode ν} (hnode : node ∈ g.executionOrder) (hpos : 0 < node.sizeBytes) :
        False := by
      have hmem := mem_nonzeroTensors.mpr ⟨hnode, hpos⟩
      rw [hnil] at hmem
      exact not_mem_nil hmem
    exact ⟨fun first hfirst _ _ hpos _ _ => (hnone hfirst hpos).elim,
      fun node hnode hpos => (hnone hnode hpos).elim⟩

end Harmful

/-- The plans of all sound answers are safe only where there is nothing to place, since an answer
that is not optimal is used as well. Those of the optimal ones have all ranges inside the buffer,
and are safe exactly when live tensors have consumers and even sizes. Where the offsets are whole
numbers the sizes do not matter. -/
theorem ilp_safe_iff {g : CustomGraph ν} (halias : g.aliases = []) (topological : g.Topological) :
    (SafeFor g (fun _ => True) ↔ nonzeroTensors g = []) ∧
    (∀ status : LpStatus, status ≠ .optimal → status ≠ .infeasible →
      (SafeFor g (fun answer => answer.status = status) ↔ nonzeroTensors g = [])) ∧
    (SafeFor g (fun answer => answer.status = .optimal) ↔ LiveConsumed g ∧ LiveEven g) ∧
    (SafeFor g (fun answer => answer.status = .optimal ∧ answer.Whole) ↔ LiveConsumed g) ∧
    (∀ solve : Problem (LpVar ν) → LpAnswer ν, (solve (ilpProblem g)).Sound (ilpProblem g) →
      (solve (ilpProblem g)).status = .optimal → ∀ plan, ilpPlan solve g = .ok plan →
      ∀ node ∈ g.executionOrder, 0 < node.sizeBytes →
        ∃ a, plan.entry? node.outputName = some a ∧ a.size = node.sizeBytes ∧ 0 ≤ a.offset ∧
          a.offset + a.size ≤ plan.totalBufferSizeBytes) := by
  refine ⟨?_, fun status hoptimal hinfeasible => ?_, ⟨fun hsafe => ⟨?_, ?_⟩, ?_⟩,
    ⟨fun hsafe => ?_, ?_⟩, ?_⟩
  · exact @safeFor_iff_of_unsolved _ _ g _ .notSolved nofun nofun trivial
  · exact safeFor_iff_of_unsolved hoptimal hinfeasible rfl
  · exact liveConsumed_of_safeFor halias (fun _ hstatus _ => hstatus) hsafe
  · exact liveEven_of_safeFor halias hsafe
  · intro ⟨consumed, even⟩ solve hsound hstatus plan hplan
    exact ilp_safe topological hsound hstatus hplan consumed (.inl even)
  · exact liveConsumed_of_safeFor halias (fun _ hstatus hwhole => ⟨hstatus, hwhole⟩) hsafe
  · intro consumed solve hsound hkind plan hplan
    exact ilp_safe topological hsound hkind.1 hplan consumed (.inr hkind.2)
  · intro solve hsound hstatus plan hplan node hnode hpos
    exact ilp_inside hsound hstatus hplan (mem_nonzeroTensors.mpr ⟨hnode, hpos⟩)

/-- A solution for two tensors of two and of three bytes. -/
def sinkValues : LpVar ℕ → ℚ
  | .offset name => if name = 0 then 0 else 2
  | .totalMemory => 5
  | .order _ => 1

theorem ilp_safe_iff_sink : ∃ g plan, (CustomGraph.empty ℕ).addOps sinkCalls = .ok g ∧
    ilpPlan (fun _ => ⟨.optimal, fun v => some (sinkValues v)⟩) g = .ok plan ∧
    (plan.entries.map fun entry => (entry.1, entry.2.offset, entry.2.size)) =
      [(0, 0, 2), (1, 2, 3)] ∧ plan.totalBufferSizeBytes = 5 ∧ IlpSafe g plan := by
  have built : ∃ g, (CustomGraph.empty ℕ).addOps sinkCalls = .ok g := ⟨_, rfl⟩
  obtain ⟨g, hg⟩ := built
  have halias : g.aliases = [] := (CustomGraph.addOps_eq_ok hg).2
  have hconsumed : LiveConsumed g := by
    have hlate : ∀ node ∈ nonzeroTensors g, 0 ≤ deathOf g node.outputName := by
      cases hg
      decide +kernel
    intro first hfirst second hsecond _
    exact ⟨(consumed_iff (mem_nonzeroTensors.mp hfirst).1).mpr (hlate first hfirst),
      (consumed_iff (mem_nonzeroTensors.mp hsecond).1).mpr (hlate second hsecond)⟩
  have hfeasible : (ilpProblem g).Feasible sinkValues := by
    cases hg
    exact ⟨by decide +kernel, by decide +kernel, by decide +kernel⟩
  have hwhole (name : ℕ) : ∃ n : ℤ, sinkValues (.offset name) = n := by
    by_cases hname : name = 0
    · exact ⟨0, by simp [sinkValues, hname]⟩
    · exact ⟨2, by simp [sinkValues, hname]⟩
  have hsafe := (ilp_safe_iff halias (sink_topological hg)).2.2.2.1.mpr hconsumed
    (fun _ => ⟨.optimal, fun v => some (sinkValues v)⟩)
    (fun _ => ⟨sinkValues, hfeasible, fun _ _ => rfl⟩)
    ⟨rfl, fun name x hx => Option.some.inj hx ▸ hwhole name⟩
  have hplan : (ilpPlan (fun _ => ⟨.optimal, fun v => some (sinkValues v)⟩) g).toOption =
      some ⟨[(0, ⟨0, 2, [2], .uint8⟩), (1, ⟨2, 3, [3], .uint8⟩)], 5⟩ := by
    cases hg
    decide +kernel
  have hplan := Fallible.toOption_eq_some.mp hplan
  exact ⟨g, _, hg, hplan, rfl, rfl, hsafe _ hplan⟩

/-- Both tensors at the start of the buffer are a solution, since no constraint keeps them apart,
although the second operation reads the one while it writes the other. -/
theorem ilp_overlaps_idle : ∃ g plan, (CustomGraph.empty ℕ).addOps idleCalls = .ok g ∧
    g.aliases = [] ∧ g.Topological ∧
    LpAnswer.Sound ⟨.optimal, fun v => some (if v = .totalMemory then 2 else 0)⟩ (ilpProblem g) ∧
    ilpPlan (fun _ => ⟨.optimal, fun v => some (if v = .totalMemory then 2 else 0)⟩) g =
      .ok plan ∧
    (plan.entries.map fun entry => (entry.1, entry.2.offset, entry.2.size)) =
      [(0, 0, 2), (1, 0, 2)] ∧ ¬ IlpSafe g plan := by
  have built : ∃ g, (CustomGraph.empty ℕ).addOps idleCalls = .ok g := ⟨_, rfl⟩
  obtain ⟨g, hg⟩ := built
  have topological := idle_topological hg
  have hfeasible : (ilpProblem g).Feasible fun v => if v = .totalMemory then 2 else 0 := by
    cases hg
    exact ⟨by decide +kernel, by decide +kernel, by decide +kernel⟩
  have hplan : (ilpPlan (fun _ => ⟨.optimal, fun v =>
      some (if v = .totalMemory then 2 else 0)⟩) g).toOption =
      some ⟨[(0, ⟨0, 2, [2], .uint8⟩), (1, ⟨0, 2, [2], .uint8⟩)], 2⟩ := by
    cases hg
    decide +kernel
  refine ⟨g, _, hg, (CustomGraph.addOps_eq_ok hg).2, topological,
    fun _ => ⟨_, hfeasible, fun _ _ => rfl⟩, Fallible.toOption_eq_some.mp hplan, rfl,
    fun hsafe => ?_⟩
  -- the first tensor is born at 0 and dies at 1, where the second is born
  cases hg
  obtain ⟨_, _, ha, hb, hapart⟩ := hsafe.disjoint _ mem_cons_self _
    (mem_cons_of_mem _ mem_cons_self) (by decide) (by decide)
    ⟨by decide, .inr (by decide)⟩
  cases ha
  cases hb
  simp at hapart

end Graph
