import Mathlib.Data.List.Basic

/-!
# Computations that may fail

Rules for taking apart a successful computation in `Except` and for running one whose steps are
known to succeed.
-/

namespace Fallible

open List Except

variable {α β σ ε : Type} {f : α → Except ε β} {x : Except ε α}

theorem bind_eq_ok {b : β} : (x >>= f) = .ok b ↔ ∃ a, x = .ok a ∧ f a = .ok b := by
  cases x with
  | error e => exact ⟨nofun, nofun⟩
  | ok a =>
    constructor
    · intro h
      exact ⟨a, rfl, h⟩
    · rintro ⟨_, ⟨⟩, h⟩
      exact h

theorem bind_eq_error {e : ε} :
    (x >>= f) = .error e ↔ x = .error e ∨ ∃ a, x = .ok a ∧ f a = .error e := by
  cases x with
  | error e' =>
    constructor
    · intro h
      exact .inl (congrArg Except.error (error.inj h))
    · rintro (h | ⟨_, ⟨⟩, _⟩)
      exact congrArg Except.error (error.inj h)
  | ok a =>
    constructor
    · intro h
      exact .inr ⟨a, rfl, h⟩
    · rintro (h | ⟨_, ⟨⟩, h⟩)
      · cases h
      · exact h

theorem toOption_eq_some {a : α} : x.toOption = some a ↔ x = .ok a := by
  cases x with
  | error e => exact ⟨nofun, nofun⟩
  | ok b => exact ⟨fun h => congrArg Except.ok (Option.some.inj h), fun h => congrArg some
      (ok.inj h)⟩

/-- The value that there is, or an error if there is none. -/
def orError (e : ε) : Option α → Except ε α
  | some a => .ok a
  | none => .error e

theorem orError_eq_ok {e : ε} {o : Option α} {a : α} : orError e o = .ok a ↔ o = some a := by
  cases o with
  | none => exact ⟨nofun, nofun⟩
  | some b =>
    exact ⟨fun h => congrArg some (ok.inj h), fun h => congrArg Except.ok (Option.some.inj h)⟩

variable {xs : List α}

theorem foldlM_cons_eq_ok {f : σ → α → Except ε σ} {x : α} {s t : σ} :
    (x :: xs).foldlM f s = .ok t ↔ ∃ u, f s x = .ok u ∧ xs.foldlM f u = .ok t := by
  rw [foldlM_cons, bind_eq_ok]

theorem foldlM_append_eq_ok {f : σ → α → Except ε σ} {xs ys : List α} {s t : σ} :
    (xs ++ ys).foldlM f s = .ok t ↔ ∃ u, xs.foldlM f s = .ok u ∧ ys.foldlM f u = .ok t := by
  rw [foldlM_append, bind_eq_ok]

/-- A fold over numbers, by what holds before each of them. -/
theorem foldlM_range {f : σ → ℕ → Except ε σ} {P : ℕ → σ → Prop} {n : ℕ} {s t : σ}
    (hok : (List.range n).foldlM f s = .ok t) (start : P 0 s)
    (step : ∀ k < n, ∀ s t, P k s → f s k = .ok t → P (k + 1) t) : P n t := by
  induction n generalizing t with
  | zero =>
    obtain rfl := ok.inj hok
    exact start
  | succ n ih =>
    rw [range_succ, foldlM_append_eq_ok] at hok
    obtain ⟨u, hu, hok⟩ := hok
    obtain ⟨v, hv, hlast⟩ := foldlM_cons_eq_ok.mp hok
    obtain rfl := ok.inj hlast
    exact step n (Nat.lt_succ_self n) u v
      (ih hu fun k hk => step k (Nat.lt_succ_of_lt hk)) hv

/-- What every step preserves holds after a fold. -/
theorem foldlM_preserves {f : σ → α → Except ε σ} {P : σ → Prop} {s t : σ}
    (hok : xs.foldlM f s = .ok t) (start : P s)
    (step : ∀ x ∈ xs, ∀ s t, P s → f s x = .ok t → P t) : P t := by
  induction xs generalizing s with
  | nil =>
    cases hok
    exact start
  | cons x rest ih =>
    obtain ⟨u, hu, hok⟩ := foldlM_cons_eq_ok.mp hok
    exact ih hok (step x mem_cons_self s u start hu) fun y hy =>
      step y (mem_cons_of_mem _ hy)

/-- A fold returns if every step does, by what holds when certain elements are left. -/
theorem foldlM_isOk {f : σ → α → Except ε σ} {P : List α → σ → Prop} {s : σ}
    (start : P xs s) (step : ∀ x rest s, P (x :: rest) s → ∃ t, f s x = .ok t ∧ P rest t) :
    ∃ t, xs.foldlM f s = .ok t ∧ P [] t := by
  induction xs generalizing s with
  | nil => exact ⟨s, rfl, start⟩
  | cons x rest ih =>
    obtain ⟨u, hu, hrest⟩ := step x rest s start
    obtain ⟨t, ht, hend⟩ := ih hrest
    exact ⟨t, foldlM_cons_eq_ok.mpr ⟨u, hu, ht⟩, hend⟩

/-- A fold whose steps all succeed is a pure fold. -/
theorem foldlM_eq_ok {f : σ → α → Except ε σ} {step : σ → α → σ} (xs : List α)
    (h : ∀ x ∈ xs, ∀ s, f s x = .ok (step s x)) (s : σ) :
    xs.foldlM f s = .ok (xs.foldl step s) := by
  induction xs generalizing s with
  | nil => rfl
  | cons x rest ih =>
    rw [foldlM_cons_eq_ok]
    exact ⟨step s x, h x mem_cons_self s, ih (fun y hy => h y (mem_cons_of_mem _ hy)) _⟩

/-- A map whose steps all succeed is a pure map. -/
theorem mapM_eq_ok {value : α → β} (xs : List α)
    (h : ∀ x ∈ xs, f x = .ok (value x)) : xs.mapM f = .ok (xs.map value) := by
  induction xs with
  | nil => rfl
  | cons x rest ih =>
    rw [mapM_cons, h x mem_cons_self, ih fun y hy => h y (mem_cons_of_mem _ hy)]
    rfl

/-- A map whose steps all return returns. -/
theorem mapM_isOk (h : ∀ x ∈ xs, ∃ y, f x = .ok y) : ∃ ys, xs.mapM f = .ok ys := by
  induction xs with
  | nil => exact ⟨[], rfl⟩
  | cons x rest ih =>
    obtain ⟨y, hy⟩ := h x mem_cons_self
    obtain ⟨ys, hys⟩ := ih fun z hz => h z (mem_cons_of_mem _ hz)
    refine ⟨y :: ys, ?_⟩
    rw [mapM_cons, hy, hys]
    rfl

/-- A map whose steps all return something good returns a list of good things. -/
theorem mapM_isOk_forall₂ {R : α → β → Prop}
    (h : ∀ x ∈ xs, ∃ y, f x = .ok y ∧ R x y) : ∃ ys, xs.mapM f = .ok ys ∧ List.Forall₂ R xs ys := by
  induction xs with
  | nil => exact ⟨[], rfl, .nil⟩
  | cons x rest ih =>
    obtain ⟨y, hy, hgood⟩ := h x mem_cons_self
    obtain ⟨ys, hys, hrest⟩ := ih fun z hz => h z (mem_cons_of_mem _ hz)
    refine ⟨y :: ys, ?_, .cons hgood hrest⟩
    rw [mapM_cons, hy, hys]
    rfl

theorem exists_of_mem_forall₂ {R : α → β → Prop} {ys : List β} (h : List.Forall₂ R xs ys) {y : β}
    (hy : y ∈ ys) : ∃ x ∈ xs, R x y := by
  induction h with
  | nil => cases hy
  | cons hxy _ ih =>
    rcases mem_cons.mp hy with rfl | hy
    · exact ⟨_, mem_cons_self, hxy⟩
    · obtain ⟨x, hx, hrel⟩ := ih hy
      exact ⟨x, mem_cons_of_mem _ hx, hrel⟩

/-- A map whose steps can fail in one way only, and one of which does. -/
theorem mapM_eq_error {e : ε}
    (h : ∀ x ∈ xs, (∃ y, f x = .ok y) ∨ f x = .error e) (hfails : ∃ x ∈ xs, f x = .error e) :
    xs.mapM f = .error e := by
  induction xs with
  | nil =>
    obtain ⟨_, hx, -⟩ := hfails
    cases hx
  | cons x rest ih =>
    rw [mapM_cons]
    rcases h x mem_cons_self with ⟨y, hy⟩ | hx
    · obtain ⟨z, hz, hfail⟩ := hfails
      have hrest : rest.mapM f = .error e := by
        refine ih (fun z hz => h z (mem_cons_of_mem _ hz)) ?_
        rcases mem_cons.mp hz with rfl | hz
        · rw [hy] at hfail
          cases hfail
        · exact ⟨z, hz, hfail⟩
      rw [hy, hrest]
      rfl
    · rw [hx]
      rfl

end Fallible
