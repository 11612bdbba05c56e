import Mathlib.Data.Set.Basic
import Mathlib.Logic.Function.Basic

/-!
# Threads between barriers

Some threads share a memory and run in phases that a barrier separates. Inside a phase they make
their loads and stores in any order. When no thread stores where another one loads or stores, every
order has the result that each thread has alone.
-/

namespace Threads

open List Function Option

variable {A : Type} {V : A → Type} {α : Type}

/-- The memory that the threads share. -/
abbrev Memory (V : A → Type) :=
  ∀ a, V a

/-- The loads and stores of a thread up to the next barrier. -/
inductive Code (V : A → Type) (α : Type) where
  | done (x : α)
  | load (a : A) (next : V a → Code V α)
  | store (a : A) (v : V a) (next : Code V α)

namespace Code

def result : Code V α → Option α
  | done x => some x
  | load _ _ => none
  | store _ _ _ => none

variable [DecidableEq A]

/-- The next load or store. -/
def step : Code V α → Memory V → Code V α × Memory V
  | done x, m => (done x, m)
  | load a next, m => (next (m a), m)
  | store a v next, m => (next, update m a v)

/-- What a thread does alone. -/
def run : Code V α → Memory V → α × Memory V
  | done x, m => (x, m)
  | load a next, m => (next (m a)).run m
  | store a v next, m => next.run (update m a v)

@[simp] theorem run_step (c : Code V α) (m : Memory V) :
    (c.step m).1.run (c.step m).2 = c.run m := by
  cases c <;> rfl

omit [DecidableEq A] in
theorem eq_done_of_result {c : Code V α} {x : α} (h : c.result = some x) : c = done x := by
  cases c with
  | done y => rw [some.inj h]
  | load a next => cases h
  | store a v next => cases h

/-- Whatever it loads, the code returns something with a property. -/
def Returns (Q : α → Prop) : Code V α → Prop
  | done x => Q x
  | load _ next => ∀ v, (next v).Returns Q
  | store _ _ next => next.Returns Q

theorem Returns.step {Q : α → Prop} {c : Code V α} (h : c.Returns Q) (m : Memory V) :
    (c.step m).1.Returns Q := by
  cases c with
  | done x => exact h
  | load a next => exact h _
  | store a v next => exact h

/-- The code loads from `touched` and stores to `writes` only. -/
def Within (touched writes : Set A) : Code V α → Prop
  | done _ => True
  | load a next => a ∈ touched ∧ ∀ v, (next v).Within touched writes
  | store a _ next => a ∈ writes ∧ next.Within touched writes

variable {touched writes : Set A} {c : Code V α} {m m' : Memory V}

theorem Within.step (h : c.Within touched writes) (m : Memory V) :
    (c.step m).1.Within touched writes := by
  cases c with
  | done x => exact h
  | load a next => exact h.2 _
  | store a v next => exact h.2

/-- A step changes the memory where the code may store only. -/
theorem Within.step_frame (h : c.Within touched writes) (m : Memory V) {a : A} (ha : a ∉ writes) :
    (c.step m).2 a = m a := by
  cases c with
  | done x => rfl
  | load b next => rfl
  | store b v next =>
    refine update_of_ne ?_ _ _
    rintro rfl
    exact ha h.1

/-- What the code does depends on the memory that it touches. -/
theorem Within.run_congr (h : c.Within touched writes)
    (same : ∀ a ∈ touched, m a = m' a) :
    (c.run m).1 = (c.run m').1 ∧ ∀ a ∈ touched, (c.run m).2 a = (c.run m').2 a := by
  induction c generalizing m m' with
  | done x => exact ⟨rfl, same⟩
  | load a next ih =>
    rw [run, run, same a h.1]
    exact ih _ (h.2 _) same
  | store a v next ih =>
    refine ih h.2 fun b hb => ?_
    by_cases hba : b = a
    · subst hba
      rw [update_self, update_self]
    · rw [update_of_ne hba, update_of_ne hba, same b hb]

end Code

/-! ### Schedules -/

/-- The threads inside a phase. -/
structure Running (V : A → Type) (α : Type) where
  mem : Memory V
  code : ℕ → Code V α

variable [DecidableEq A]

/-- A step of one thread. -/
def step (s : Running V α) (t : ℕ) : Running V α :=
  ⟨((s.code t).step s.mem).2, update s.code t ((s.code t).step s.mem).1⟩

/-- The steps of the threads in the order of a schedule. -/
def execute (schedule : List ℕ) (s : Running V α) : Running V α :=
  schedule.foldl step s

theorem execute_append (first second : List ℕ) (s : Running V α) :
    execute (first ++ second) s = execute second (execute first s) :=
  foldl_append ..

theorem step_code_self (s : Running V α) (t : ℕ) :
    (step s t).code t = ((s.code t).step s.mem).1 :=
  update_self ..

theorem step_code_of_ne {t u : ℕ} (s : Running V α) (h : u ≠ t) : (step s t).code u = s.code u :=
  update_of_ne h _ _

/-- A thread that runs on its own arrives at the barrier, and the others stay where they are. -/
theorem exists_finish_one (t : ℕ) (c : Code V α) (s : Running V α) (h : s.code t = c) :
    ∃ n, ((execute (List.replicate n t) s).code t).result.isSome ∧
      ∀ u ≠ t, (execute (List.replicate n t) s).code u = s.code u := by
  induction c generalizing s with
  | done x => exact ⟨0, by rw [replicate_zero]; exact h ▸ rfl, fun u _ => rfl⟩
  | load a next ih =>
    obtain ⟨n, hdone, hothers⟩ := ih (s.mem a) (step s t) (by rw [step_code_self, h]; rfl)
    exact ⟨n + 1, hdone, fun u hu => (hothers u hu).trans (step_code_of_ne s hu)⟩
  | store a v next ih =>
    obtain ⟨n, hdone, hothers⟩ := ih (step s t) (by rw [step_code_self, h]; rfl)
    exact ⟨n + 1, hdone, fun u hu => (hothers u hu).trans (step_code_of_ne s hu)⟩

theorem exists_finish (count : ℕ) (s : Running V α) :
    ∃ schedule, ∀ t < count, ((execute schedule s).code t).result.isSome := by
  induction count with
  | zero => exact ⟨[], fun t ht => absurd ht (Nat.not_lt_zero t)⟩
  | succ count ih =>
    obtain ⟨schedule, hdone⟩ := ih
    obtain ⟨n, hlast, hothers⟩ := exists_finish_one count _ (execute schedule s) rfl
    refine ⟨schedule ++ List.replicate n count, fun t ht => ?_⟩
    rw [execute_append]
    rcases Nat.lt_succ_iff_lt_or_eq.mp ht with ht | rfl
    · rw [hothers t ht.ne]
      exact hdone t ht
    · exact hlast

/-- No thread stores where another one loads or stores. -/
structure RaceFree (code : ℕ → Code V α) (touched writes : ℕ → Set A) : Prop where
  within : ∀ t, (code t).Within (touched t) (writes t)
  separate : ∀ t u, t ≠ u → ∀ a ∈ writes t, a ∉ touched u

/-- What a thread still has to do leads where it would have come to alone. -/
structure Alone (code : ℕ → Code V α) (m : Memory V) (touched writes : ℕ → Set A)
    (s : Running V α) : Prop where
  within : ∀ t, (s.code t).Within (touched t) (writes t)
  value : ∀ t, ((s.code t).run s.mem).1 = ((code t).run m).1
  memory : ∀ t, ∀ a ∈ touched t, ((s.code t).run s.mem).2 a = ((code t).run m).2 a
  frame : ∀ a, (∀ t, a ∉ writes t) → s.mem a = m a

section Race

variable {code : ℕ → Code V α} {touched writes : ℕ → Set A} {m : Memory V} {s : Running V α}

theorem RaceFree.alone (h : RaceFree code touched writes) (m : Memory V) :
    Alone code m touched writes ⟨m, code⟩ :=
  ⟨h.within, fun _ => rfl, fun _ _ _ => rfl, fun _ _ => rfl⟩

theorem Alone.step (hfree : RaceFree code touched writes) (h : Alone code m touched writes s)
    (t : ℕ) : Alone code m touched writes (step s t) := by
  -- the other threads do not see the step
  have hothers (u : ℕ) (hu : u ≠ t) : ∀ a ∈ touched u, (Threads.step s t).mem a = s.mem a :=
    fun a ha => (h.within t).step_frame s.mem fun hw => hfree.separate t u hu.symm a hw ha
  have hrun (u : ℕ) : (((Threads.step s t).code u).run (Threads.step s t).mem).1 =
        ((s.code u).run s.mem).1 ∧
      ∀ a ∈ touched u, (((Threads.step s t).code u).run (Threads.step s t).mem).2 a =
        ((s.code u).run s.mem).2 a := by
    by_cases hu : u = t
    · subst hu
      rw [step_code_self]
      exact ⟨congrArg Prod.fst (Code.run_step _ _),
        fun a _ => congrFun (congrArg Prod.snd (Code.run_step _ _)) a⟩
    · rw [step_code_of_ne s hu]
      exact (h.within u).run_congr (hothers u hu)
  refine ⟨fun u => ?_, fun u => (hrun u).1.trans (h.value u),
    fun u a ha => ((hrun u).2 a ha).trans (h.memory u a ha), fun a ha => ?_⟩
  · by_cases hu : u = t
    · subst hu
      rw [step_code_self]
      exact (h.within u).step s.mem
    · rw [step_code_of_ne s hu]
      exact h.within u
  · exact ((h.within t).step_frame s.mem (ha t)).trans (h.frame a ha)

theorem Alone.execute (hfree : RaceFree code touched writes) (schedule : List ℕ)
    (h : Alone code m touched writes s) :
    Alone code m touched writes (execute schedule s) := by
  induction schedule generalizing s with
  | nil => exact h
  | cons t rest ih => exact ih (h.step hfree t)

end Race

/-! ### Phases -/

/-- The threads of a block between two phases. -/
structure Block (V : A → Type) (α : Type) where
  mem : Memory V
  regs : ℕ → α

/-- The code of the threads in a phase. -/
abbrev Phase (V : A → Type) (α : Type) :=
  ℕ → α → Code V α

/-- The first `count` threads run a phase. -/
def start (count : ℕ) (phase : Phase V α) (b : Block V α) : Running V α :=
  ⟨b.mem, fun t => if t < count then phase t (b.regs t) else .done (b.regs t)⟩

/-- A phase in the order of a schedule, if every thread arrives at the barrier. -/
def runPhase (count : ℕ) (phase : Phase V α) (schedule : List ℕ) (b : Block V α) :
    Option (Block V α) :=
  let s := execute schedule (start count phase b)
  if ∀ t < count, (s.code t).result.isSome then
    some ⟨s.mem, fun t => (s.code t).result.getD (b.regs t)⟩
  else none

/-- Some phases, each with a schedule. -/
def runPhases (count : ℕ) : List (Phase V α) → List (List ℕ) → Block V α → Option (Block V α)
  | [], [], b => some b
  | phase :: phases, schedule :: schedules, b =>
    (runPhase count phase schedule b).bind (runPhases count phases schedules)
  | _, _, _ => none

section Phases

omit [DecidableEq A] in
theorem start_code_of_lt {count t : ℕ} {phase : Phase V α} {b : Block V α} (h : t < count) :
    (start count phase b).code t = phase t (b.regs t) :=
  if_pos h

variable {count : ℕ} {phase : Phase V α} {schedule : List ℕ} {b b' : Block V α}

theorem runPhase_eq_some (h : runPhase count phase schedule b = some b') :
    b'.mem = (execute schedule (start count phase b)).mem ∧
      ∀ t < count, ((execute schedule (start count phase b)).code t).result = some (b'.regs t) := by
  rw [runPhase] at h
  split at h
  · rename_i hdone
    cases h
    refine ⟨rfl, fun t ht => ?_⟩
    obtain ⟨_, hx⟩ := isSome_iff_exists.mp (hdone t ht)
    change _ = some (Option.getD _ _)
    rw [hx, getD_some]
  · cases h

omit [DecidableEq A] in
/-- A phase has no races if the code of its threads has none. -/
theorem RaceFree.of_phase {touched writes : ℕ → Set A}
    (within : ∀ t < count, (phase t (b.regs t)).Within (touched t) (writes t))
    (separate : ∀ t u, t ≠ u → ∀ a ∈ writes t, a ∉ touched u) :
    RaceFree (start count phase b).code touched writes := by
  refine ⟨fun t => ?_, separate⟩
  by_cases ht : t < count
  · rw [start_code_of_lt ht]
    exact within t ht
  · have hcode : (start count phase b).code t = .done (b.regs t) := if_neg ht
    rw [hcode]
    exact trivial

/-- The result of a phase without races. -/
theorem RaceFree.runPhase {touched writes : ℕ → Set A}
    (hfree : RaceFree (start count phase b).code touched writes)
    (h : runPhase count phase schedule b = some b') :
    (∀ t < count, b'.regs t = ((phase t (b.regs t)).run b.mem).1 ∧
      ∀ a ∈ touched t, b'.mem a = ((phase t (b.regs t)).run b.mem).2 a) ∧
    ∀ a, (∀ t, a ∉ writes t) → b'.mem a = b.mem a := by
  obtain ⟨hmem, hregs⟩ := runPhase_eq_some h
  have halone := (hfree.alone b.mem).execute hfree schedule
  refine ⟨fun t ht => ?_, fun a ha => hmem ▸ halone.frame a ha⟩
  have hvalue := halone.value t
  have hmemory := halone.memory t
  rw [start_code_of_lt ht] at hvalue hmemory
  change (((execute schedule (start count phase b)).code t).run _).1 = _ at hvalue
  change ∀ a ∈ touched t, (((execute schedule (start count phase b)).code t).run _).2 a = _
    at hmemory
  rw [Code.eq_done_of_result (hregs t ht)] at hvalue hmemory
  exact ⟨hvalue, fun a ha => hmem ▸ hmemory a ha⟩

/-- What every thread returns in whatever order. -/
theorem runPhase_returns {Q : ℕ → α → Prop}
    (hphase : ∀ t < count, (phase t (b.regs t)).Returns (Q t))
    (h : runPhase count phase schedule b = some b') : ∀ t < count, Q t (b'.regs t) := by
  have hkept (s : Running V α) (hs : ∀ t < count, (s.code t).Returns (Q t)) (schedule : List ℕ) :
      ∀ t < count, ((execute schedule s).code t).Returns (Q t) := by
    induction schedule generalizing s with
    | nil => exact hs
    | cons u rest ih =>
      refine ih (step s u) fun t ht => ?_
      by_cases htu : t = u
      · subst htu
        rw [step_code_self]
        exact (hs t ht).step s.mem
      · rw [step_code_of_ne s htu]
        exact hs t ht
  intro t ht
  have hreturns := hkept (start count phase b)
    (fun t ht => by rw [start_code_of_lt ht]; exact hphase t ht) schedule t ht
  rw [Code.eq_done_of_result ((runPhase_eq_some h).2 t ht)] at hreturns
  exact hreturns

/-- Every phase can be finished, whatever the threads have done already. -/
theorem exists_runPhase (count : ℕ) (phase : Phase V α) (before : List ℕ) (b : Block V α) :
    ∃ schedule b', runPhase count phase (before ++ schedule) b = some b' := by
  obtain ⟨schedule, hdone⟩ := exists_finish count (execute before (start count phase b))
  rw [← execute_append] at hdone
  exact ⟨schedule, _, if_pos hdone⟩

theorem exists_runPhases (count : ℕ) (phases : List (Phase V α)) (b : Block V α) :
    ∃ schedules b', runPhases count phases schedules b = some b' := by
  induction phases generalizing b with
  | nil => exact ⟨[], b, rfl⟩
  | cons phase phases ih =>
    obtain ⟨schedule, b₁, hfirst⟩ := exists_runPhase count phase [] b
    obtain ⟨schedules, b', hrest⟩ := ih b₁
    exact ⟨schedule :: schedules, b', (congrArg (Option.bind · _) hfirst).trans hrest⟩

variable {schedules : List (List ℕ)} {phases : List (Phase V α)}

theorem runPhases_cons (h : runPhases count (phase :: phases) schedules b = some b') :
    ∃ schedule rest b₁, schedules = schedule :: rest ∧
      runPhase count phase schedule b = some b₁ ∧ runPhases count phases rest b₁ = some b' := by
  cases schedules with
  | nil => cases h
  | cons schedule rest =>
    obtain ⟨b₁, hfirst, hrest⟩ := bind_eq_some_iff.mp h
    exact ⟨schedule, rest, b₁, rfl, hfirst, hrest⟩

/-- What no phase changes is the same in the end. -/
theorem runPhases_keeps {β : Type} (f : α → β)
    (hphases : ∀ phase ∈ phases, ∀ t x, (phase t x).Returns fun y => f y = f x)
    (h : runPhases count phases schedules b = some b') :
    ∀ t < count, f (b'.regs t) = f (b.regs t) := by
  induction phases generalizing b schedules with
  | nil =>
    cases schedules with
    | nil => exact fun t _ => some.inj h ▸ rfl
    | cons schedule rest => cases h
  | cons phase phases ih =>
    obtain ⟨schedule, rest, _, rfl, hfirst, hrest⟩ := runPhases_cons h
    have hkept := runPhase_returns (Q := fun t y => f y = f (b.regs t))
      (fun t _ => hphases phase mem_cons_self t _) hfirst
    exact fun t ht => (ih (fun phase hphase => hphases phase (mem_cons_of_mem _ hphase))
      hrest t ht).trans (hkept t ht)

theorem runPhases_append {first second : List (Phase V α)}
    (h : runPhases count (first ++ second) schedules b = some b') :
    ∃ b₁, runPhases count first (schedules.take first.length) b = some b₁ ∧
      runPhases count second (schedules.drop first.length) b₁ = some b' := by
  induction first generalizing schedules b with
  | nil => exact ⟨b, by rw [length_nil, take_zero]; rfl, h⟩
  | cons phase first ih =>
    obtain ⟨_, _, b₁, rfl, hfirst, hrest⟩ := runPhases_cons h
    obtain ⟨b₂, hinit, hlast⟩ := ih hrest
    refine ⟨b₂, ?_, hlast⟩
    exact (congrArg (Option.bind · _) hfirst).trans hinit

theorem length_of_runPhases
    (h : runPhases count phases schedules b = some b') : schedules.length = phases.length := by
  induction phases generalizing schedules b with
  | nil =>
    cases schedules with
    | nil => rfl
    | cons schedule rest => cases h
  | cons phase phases ih =>
    obtain ⟨schedule, rest, _, rfl, -, hrest⟩ := runPhases_cons h
    rw [length_cons, length_cons, ih hrest]

theorem runPhases_of_append {b₁ : Block V α} {first second : List (Phase V α)}
    {schedules more : List (List ℕ)} (h : runPhases count first schedules b = some b₁)
    (h' : runPhases count second more b₁ = some b') :
    runPhases count (first ++ second) (schedules ++ more) b = some b' := by
  induction first generalizing schedules b with
  | nil =>
    cases schedules with
    | nil => exact some.inj h ▸ h'
    | cons schedule rest => cases h
  | cons phase first ih =>
    obtain ⟨schedule, rest, _, rfl, hfirst, hrest⟩ := runPhases_cons h
    exact (congrArg (Option.bind · _) hfirst).trans (ih hrest)

end Phases

end Threads
