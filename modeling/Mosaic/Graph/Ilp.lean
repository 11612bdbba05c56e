import Mosaic.Graph.Conflicts
import Mosaic.Linear.HalfEven
import Mosaic.Linear.Program

/-!
# The integer program planner

This planner leaves the placement to a solver. The offsets are continuous variables. A pair of
tensors with overlapping lifetimes gives two constraints of which a binary variable chooses one.
The answer is rounded: the offsets to the nearest whole number, the size of the buffer up. An
answer is used whatever its status is, unless the solver says that there is no solution, and a
variable without a value is read as zero.
-/

namespace Graph

open List Function LinearProgram

variable {ν : Type} [DecidableEq ν]

/-! ### The problem -/

/-- The last consumers, of the names that are known. -/
def knownDeaths (g : CustomGraph ν) : ν → Option ℤ :=
  g.executionOrder.zipIdx.foldl
    (fun table entry => entry.1.inputNames.foldl
      (fun table name =>
        if (table name).isSome then update table name (some (entry.2 : ℤ)) else table)
      table)
    fun name => if name ∈ g.names then some (-1) else none

/-- The death of a tensor. The length is for names that are missing from the table. -/
def ilpDeath (g : CustomGraph ν) (name : ν) : ℤ :=
  (knownDeaths g name).getD g.executionOrder.length

/-- The nodes whose tensors are placed: those that are not empty. -/
def nonzeroTensors (g : CustomGraph ν) : List (OpNode ν) :=
  g.executionOrder.filter fun node => 0 < node.sizeBytes

/-- The size of a tensor that is placed. -/
def tensorSize (g : CustomGraph ν) (name : ν) : ℕ :=
  (((nonzeroTensors g).find? fun node => node.outputName = name).map OpNode.sizeBytes).getD 0

/-- The pairs of tensors that must not share a byte. -/
def ilpConflicts (g : CustomGraph ν) : List (ν × ν) :=
  conflictPairs (births g) (ilpDeath g) ((nonzeroTensors g).map OpNode.outputName)

/-- The variables: the offset of a tensor, the size of the buffer, and the order of a pair. -/
inductive LpVar (ν : Type) where
  | offset (name : ν)
  | totalMemory
  | order (idx : ℕ)
  deriving DecidableEq, Repr

/-- All tensors one behind the other. -/
def bigM (g : CustomGraph ν) : ℕ :=
  ((nonzeroTensors g).map OpNode.sizeBytes).sum

/-- A tensor ends inside the buffer. -/
def boundConstraint (node : OpNode ν) : Constraint (LpVar ν) :=
  .le ⟨node.sizeBytes, [(1, .offset node.outputName)]⟩ ⟨0, [(1, .totalMemory)]⟩

/-- An alias is where its target is, if both are placed. -/
def aliasConstraint (g : CustomGraph ν) (link : ν × ν) : Option (Constraint (LpVar ν)) :=
  let names := (nonzeroTensors g).map OpNode.outputName
  if link.1 ∈ names ∧ link.2 ∈ names then
    some (.eq ⟨0, [(1, .offset link.1)]⟩ ⟨0, [(1, .offset link.2)]⟩)
  else none

/-- The tensors of a pair are in the order that its variable chooses. -/
def conflictConstraints (g : CustomGraph ν) (entry : (ν × ν) × ℕ) :
    List (Constraint (LpVar ν)) :=
  let (i, j) := entry.1
  [.le ⟨tensorSize g i, [(1, .offset i)]⟩
      ⟨bigM g, [(1, .offset j), (-(bigM g : ℚ), .order entry.2)]⟩,
    .le ⟨tensorSize g j, [(1, .offset j)]⟩
      ⟨0, [(1, .offset i), (bigM g, .order entry.2)]⟩]

/-- The problem that is posted to the solver. -/
def ilpProblem (g : CustomGraph ν) : Problem (LpVar ν) where
  continuous := (nonzeroTensors g).map (fun node => .offset node.outputName) ++ [.totalMemory]
  binary := (ilpConflicts g).zipIdx.map fun entry => .order entry.2
  objective := ⟨0, [(1, .totalMemory)]⟩
  constraints := (nonzeroTensors g).map boundConstraint ++
    g.aliases.filterMap (aliasConstraint g) ++
    (ilpConflicts g).zipIdx.flatMap (conflictConstraints g)

/-! ### The plan -/

/-- What a solver says of its answer. -/
inductive LpStatus where
  | optimal
  | notSolved
  | infeasible
  | unbounded
  | undefined
  deriving DecidableEq, Repr

/-- The answer of a solver. A variable may be left without a value. -/
structure LpAnswer (ν : Type) where
  status : LpStatus
  varValue : LpVar ν → Option ℚ

/-- The offset is the value of its variable. -/
def LpAnswer.HasOffset (answer : LpAnswer ν) (name : ν) (x : ℚ) : Prop :=
  answer.varValue (.offset name) = some x

/-- An answer that is said to be optimal satisfies the constraints. -/
def LpAnswer.Sound (answer : LpAnswer ν) (p : Problem (LpVar ν)) : Prop :=
  answer.status = .optimal → ∃ x, p.Feasible x ∧ ∀ v ∈ p.variables, answer.varValue v = some (x v)

/-- Where a tensor lives in the buffer. Nothing checks the offset, so it may be negative. -/
structure IlpEntry where
  offset : ℤ
  size : ℕ
  shape : List ℕ
  dtype : Dtype
  deriving DecidableEq, Repr

/-- The plan of this planner. -/
structure IlpPlan (ν : Type) where
  entries : List (ν × IlpEntry)
  totalBufferSizeBytes : ℤ
  deriving DecidableEq, Repr

/-- The entry of a tensor in a plan. -/
def IlpPlan.entry? (plan : IlpPlan ν) (name : ν) : Option IlpEntry :=
  (plan.entries.find? fun entry => entry.1 = name).map Prod.snd

/-- The offset of a tensor, rounded. -/
def roundedOffset (answer : LpAnswer ν) (name : ν) : ℤ :=
  match answer.varValue (.offset name) with
  | some x => roundHalfEven x
  | none => 0

/-- The size of the buffer, rounded up. -/
def roundedTotal (answer : LpAnswer ν) : ℤ :=
  match answer.varValue .totalMemory with
  | some x => ⌈x⌉
  | none => 0

/-- The planner raises when the solver says that there is no solution. -/
inductive IlpError where
  | infeasible
  deriving DecidableEq, Repr

/-- Plan every tensor of the graph with a solver. -/
def ilpPlan (solve : Problem (LpVar ν) → LpAnswer ν) (g : CustomGraph ν) :
    Except IlpError (IlpPlan ν) :=
  if nonzeroTensors g = [] then .ok ⟨[], 0⟩
  else
    let answer := solve (ilpProblem g)
    if answer.status = .infeasible then .error .infeasible
    else .ok ⟨(nonzeroTensors g).map fun node => (node.outputName,
      ⟨roundedOffset answer node.outputName, node.sizeBytes, node.outputSpec.shape,
        node.outputSpec.dtype⟩), roundedTotal answer⟩

/-! ### Conflicts -/

section Conflicts

variable {g : CustomGraph ν} {first second node : OpNode ν}

omit [DecidableEq ν] in
theorem mem_nonzeroTensors {node : OpNode ν} :
    node ∈ nonzeroTensors g ↔ node ∈ g.executionOrder ∧ 0 < node.sizeBytes := by
  simp [nonzeroTensors]

omit [DecidableEq ν] in
theorem nodup_nonzeroTensors (g : CustomGraph ν) :
    ((nonzeroTensors g).map OpNode.outputName).Nodup :=
  g.nodup.sublist (filter_sublist.map _)

omit [DecidableEq ν] in
theorem eq_of_name_eq (hfirst : first ∈ nonzeroTensors g) (hsecond : second ∈ nonzeroTensors g)
    (h : first.outputName = second.outputName) : first = second :=
  inj_on_of_nodup_map (nodup_nonzeroTensors g) hfirst hsecond h

/-- A tensor is found by its name. -/
theorem find?_nonzeroTensors (hnode : node ∈ nonzeroTensors g) :
    (nonzeroTensors g).find? (fun other => other.outputName = node.outputName) = some node := by
  cases hfound : (nonzeroTensors g).find? fun other => other.outputName = node.outputName with
  | none => simpa using find?_eq_none.mp hfound node hnode
  | some other =>
    have hname : other.outputName = node.outputName := by simpa using find?_some hfound
    rw [eq_of_name_eq (mem_of_find?_eq_some hfound) hnode hname]

theorem tensorSize_eq (hnode : node ∈ nonzeroTensors g) :
    tensorSize g node.outputName = node.sizeBytes := by
  simp [tensorSize, find?_nonzeroTensors hnode]

/-- The table has the known names, and there it is the other one. -/
private def AgreesOn (names : List ν) (known table : ν → Option ℤ) : Prop :=
  ∀ name, known name = (if name ∈ names then table name else none) ∧
    (name ∈ names → (table name).isSome)

private theorem AgreesOn.update {names : List ν} {known table : ν → Option ℤ}
    (h : AgreesOn names known table) (name : ν) (death : ℤ) :
    AgreesOn names (if (known name).isSome then update known name (some death) else known)
      (update table name (some death)) := by
  intro other
  obtain ⟨hname, hsome⟩ := h name
  obtain ⟨hother, hsome'⟩ := h other
  by_cases heq : other = name
  · obtain rfl := heq
    by_cases hmem : other ∈ names
    · rw [if_pos hmem] at hname
      simp [hname, hsome hmem, hmem]
    · rw [if_neg hmem] at hname
      simp [hname, hmem]
  · rw [update_of_ne heq]
    refine ⟨?_, hsome'⟩
    split
    · rw [update_of_ne heq, hother]
    · exact hother

/-- The check makes no difference for the names of the graph. -/
theorem knownDeaths_eq {name : ν} (hname : name ∈ g.names) :
    knownDeaths g name = deaths g name := by
  have hagrees : AgreesOn g.names (knownDeaths g) (deaths g) := by
    refine foldl_rel (fun name => ?_) fun entry _ known table h => ?_
    · by_cases hmem : name ∈ g.names <;> simp [hmem]
    · exact foldl_rel h fun name _ known table h => h.update name entry.2
  rw [(hagrees name).1, if_pos hname]

theorem ilpDeath_eq (hnode : node ∈ g.executionOrder) :
    ilpDeath g node.outputName = deathOf g node.outputName := by
  obtain ⟨_, hdeath⟩ := exists_deaths_eq hnode
  rw [ilpDeath, deathOf, knownDeaths_eq (mem_map_of_mem hnode), hdeath]
  rfl

/-- The pairs are the tensors whose lifetimes overlap. -/
theorem mem_ilpConflicts (hfirst : first ∈ nonzeroTensors g) (hsecond : second ∈ nonzeroTensors g) :
    ((first.outputName, second.outputName) ∈ ilpConflicts g ∨
      (second.outputName, first.outputName) ∈ ilpConflicts g) ↔ first ≠ second ∧
        (births g second.outputName : ℤ) ≤ deathOf g first.outputName ∧
        (births g first.outputName : ℤ) ≤ deathOf g second.outputName := by
  rw [ilpConflicts, mem_conflictPairs (nodup_nonzeroTensors g), overlaps_iff,
    ilpDeath_eq (mem_nonzeroTensors.mp hfirst).1, ilpDeath_eq (mem_nonzeroTensors.mp hsecond).1]
  constructor
  · rintro ⟨-, -, hne, hover⟩
    exact ⟨fun heq => hne (congrArg OpNode.outputName heq), hover⟩
  · rintro ⟨hne, hover⟩
    exact ⟨mem_map_of_mem hfirst, mem_map_of_mem hsecond,
      fun heq => hne (eq_of_name_eq hfirst hsecond heq), hover⟩

theorem mem_of_mem_ilpConflicts {i j : ν} (h : (i, j) ∈ ilpConflicts g) :
    i ∈ (nonzeroTensors g).map OpNode.outputName ∧
      j ∈ (nonzeroTensors g).map OpNode.outputName := by
  obtain ⟨hi, hj, -⟩ := (mem_conflictPairs (nodup_nonzeroTensors g)).mp (.inl h)
  exact ⟨hi, hj⟩

end Conflicts

/-! ### Solutions -/

section Solutions

variable {g : CustomGraph ν} {x : LpVar ν → ℚ} {first second node : OpNode ν}

/-- The first tensor ends where the second one starts, or the other way round. -/
def Separated (offset : ν → ℚ) (first second : OpNode ν) : Prop :=
  offset first.outputName + first.sizeBytes ≤ offset second.outputName ∨
    offset second.outputName + second.sizeBytes ≤ offset first.outputName

theorem holds_conflictConstraints_iff (hfirst : first ∈ nonzeroTensors g)
    (hsecond : second ∈ nonzeroTensors g) (idx : ℕ) :
    (∀ c ∈ conflictConstraints g ((first.outputName, second.outputName), idx), c.Holds x) ↔
      x (.offset first.outputName) + first.sizeBytes ≤
          x (.offset second.outputName) + bigM g * (1 - x (.order idx)) ∧
        x (.offset second.outputName) + second.sizeBytes ≤
          x (.offset first.outputName) + bigM g * x (.order idx) := by
  simp only [conflictConstraints, forall_mem_cons, Constraint.Holds, Expr.eval,
    tensorSize_eq hfirst, tensorSize_eq hsecond, map_cons, map_nil, sum_cons,
    sum_nil, not_mem_nil, false_implies, implies_true, and_true]
  constructor
  · rintro ⟨ha, hb⟩
    exact ⟨by linarith, by linarith⟩
  · rintro ⟨ha, hb⟩
    exact ⟨by linarith, by linarith⟩

/-- A solution keeps the tensors of a pair apart. -/
theorem separated_of_feasible (h : (ilpProblem g).Feasible x) (hfirst : first ∈ nonzeroTensors g)
    (hsecond : second ∈ nonzeroTensors g)
    (hpair : (first.outputName, second.outputName) ∈ ilpConflicts g) :
    Separated (fun name => x (.offset name)) first second := by
  obtain ⟨idx, hidx⟩ := mem_iff_getElem?.mp hpair
  have hentry : ((first.outputName, second.outputName), idx) ∈ (ilpConflicts g).zipIdx :=
    mk_mem_zipIdx_iff_getElem?.mpr hidx
  have hbinary : x (.order idx) = 0 ∨ x (.order idx) = 1 :=
    h.binary _ (mem_map_of_mem hentry)
  have hconstraints : ∀ c ∈ conflictConstraints g ((first.outputName, second.outputName), idx),
      c.Holds x := fun c hc => h.constraints c
    (mem_append_right _ (mem_flatMap.mpr ⟨_, hentry, hc⟩))
  obtain ⟨ha, hb⟩ := (holds_conflictConstraints_iff hfirst hsecond idx).mp hconstraints
  exact either_of_choice hbinary ha hb

/-- A solution has the tensors inside the buffer. -/
theorem bounds_of_feasible (h : (ilpProblem g).Feasible x) (hnode : node ∈ nonzeroTensors g) :
    0 ≤ x (.offset node.outputName) ∧
      x (.offset node.outputName) + node.sizeBytes ≤ x .totalMemory := by
  have hbound : (boundConstraint node).Holds x := h.constraints _ (mem_append_left _
    (mem_append_left _ (mem_map_of_mem hnode)))
  simp only [boundConstraint, Constraint.Holds, Expr.eval, map_cons, map_nil,
    sum_cons, sum_nil] at hbound
  have hnonneg := h.nonneg _ (mem_append_left _ (mem_map_of_mem hnode))
  exact ⟨hnonneg, by linarith⟩

/-- Offsets that keep the pairs apart, in a range as wide as all tensors together, are a
solution. -/
theorem exists_feasible (halias : g.aliases = []) {offset : ν → ℚ} {lo : ℚ} (hlo : 0 ≤ lo)
    (range : ∀ node ∈ nonzeroTensors g, lo ≤ offset node.outputName ∧
      offset node.outputName + node.sizeBytes ≤ lo + bigM g)
    (separated : ∀ first ∈ nonzeroTensors g, ∀ second ∈ nonzeroTensors g,
      (first.outputName, second.outputName) ∈ ilpConflicts g → Separated offset first second) :
    ∃ x, (ilpProblem g).Feasible x ∧ ∀ name, x (.offset name) = offset name := by
  -- the order of a pair is the one of its offsets
  have hchoice (idx : ℕ) : ∃ choice : ℚ, (choice = 0 ∨ choice = 1) ∧
      ∀ first ∈ nonzeroTensors g, ∀ second ∈ nonzeroTensors g,
        (ilpConflicts g)[idx]? = some (first.outputName, second.outputName) →
        offset first.outputName + first.sizeBytes ≤
            offset second.outputName + bigM g * (1 - choice) ∧
          offset second.outputName + second.sizeBytes ≤
            offset first.outputName + bigM g * choice := by
    by_cases hpair : ∃ first ∈ nonzeroTensors g, ∃ second ∈ nonzeroTensors g,
        (ilpConflicts g)[idx]? = some (first.outputName, second.outputName)
    · obtain ⟨first, hfirst, second, hsecond, hidx⟩ := hpair
      obtain ⟨hloFirst, hhiFirst⟩ := range first hfirst
      obtain ⟨hloSecond, hhiSecond⟩ := range second hsecond
      obtain ⟨choice, hbinary, ha, hb⟩ := @exists_choice _ _ _ _ (bigM g)
        (hhiFirst.trans (by linarith)) (hhiSecond.trans (by linarith))
        (separated first hfirst second hsecond (mem_of_getElem? hidx))
      refine ⟨choice, hbinary, fun first' hfirst' second' hsecond' hidx' => ?_⟩
      obtain ⟨hname, hname'⟩ := Prod.mk.inj (Option.some.inj (hidx.symm.trans hidx'))
      obtain rfl := eq_of_name_eq hfirst hfirst' hname
      obtain rfl := eq_of_name_eq hsecond hsecond' hname'
      exact ⟨ha, hb⟩
    · refine ⟨0, .inl rfl, fun first hfirst second hsecond hidx => ?_⟩
      exact absurd ⟨first, hfirst, second, hsecond, hidx⟩ hpair
  choose order hbinary horder using hchoice
  let x : LpVar ν → ℚ
    | .offset name => offset name
    | .totalMemory => lo + bigM g
    | .order idx => order idx
  refine ⟨x, ⟨fun v hv => ?_, fun v hv => ?_, fun c hc => ?_⟩, fun _ => rfl⟩
  · rcases mem_append.mp hv with hv | hv
    · obtain ⟨node, hnode, rfl⟩ := mem_map.mp hv
      exact hlo.trans (range node hnode).1
    · obtain rfl := mem_singleton.mp hv
      exact add_nonneg hlo (Nat.cast_nonneg _)
  · obtain ⟨entry, -, rfl⟩ := mem_map.mp hv
    exact hbinary entry.2
  · rcases mem_append.mp hc with hc | hc
    · rcases mem_append.mp hc with hc | hc
      · obtain ⟨node, hnode, rfl⟩ := mem_map.mp hc
        have hrange := (range node hnode).2
        simp only [boundConstraint, Constraint.Holds, Expr.eval, map_cons, map_nil,
          sum_cons, sum_nil, x]
        linarith
      · rw [halias] at hc
        exact nomatch hc
    · obtain ⟨⟨⟨_, _⟩, idx⟩, hentry, hc⟩ := mem_flatMap.mp hc
      have hidx := mk_mem_zipIdx_iff_getElem?.mp hentry
      obtain ⟨hi, hj⟩ := mem_of_mem_ilpConflicts (mem_of_getElem? hidx)
      obtain ⟨first, hfirst, rfl⟩ := mem_map.mp hi
      obtain ⟨second, hsecond, rfl⟩ := mem_map.mp hj
      exact (holds_conflictConstraints_iff hfirst hsecond idx).mpr
        (horder idx first hfirst second hsecond hidx) c hc

end Solutions

end Graph
