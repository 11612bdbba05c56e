import Mathlib.Algebra.Order.Ring.Rat
import Mathlib.Algebra.BigOperators.Group.List.Basic
import Mathlib.Tactic.Linarith

/-!
# Linear programs with a choice of constraints

A linear program asks for values of its variables that satisfy linear constraints. Of two
constraints one can be chosen by a variable that is zero or one, with a bound that is large enough
to make the other one void.
-/

namespace LinearProgram

variable {V : Type}

/-- A constant and multiples of variables. -/
structure Expr (V : Type) where
  constant : ℚ
  terms : List (ℚ × V)

/-- The value of an expression. -/
def Expr.eval (x : V → ℚ) (e : Expr V) : ℚ :=
  e.constant + (e.terms.map fun term => term.1 * x term.2).sum

/-- A linear constraint. -/
inductive Constraint (V : Type) where
  | le (lhs rhs : Expr V)
  | eq (lhs rhs : Expr V)

/-- The values satisfy the constraint. -/
def Constraint.Holds (x : V → ℚ) : Constraint V → Prop
  | .le lhs rhs => lhs.eval x ≤ rhs.eval x
  | .eq lhs rhs => lhs.eval x = rhs.eval x

instance (x : V → ℚ) : (c : Constraint V) → Decidable (c.Holds x)
  | .le lhs rhs => inferInstanceAs (Decidable (lhs.eval x ≤ rhs.eval x))
  | .eq lhs rhs => inferInstanceAs (Decidable (lhs.eval x = rhs.eval x))

/-- Minimize the objective subject to the constraints. The continuous variables are at least
zero. -/
structure Problem (V : Type) where
  continuous : List V
  binary : List V
  objective : Expr V
  constraints : List (Constraint V)

/-- The variables of a problem. -/
def Problem.variables (p : Problem V) : List V :=
  p.continuous ++ p.binary

/-- The values are a solution, optimal or not. -/
structure Problem.Feasible (p : Problem V) (x : V → ℚ) : Prop where
  nonneg : ∀ v ∈ p.continuous, 0 ≤ x v
  binary : ∀ v ∈ p.binary, x v = 0 ∨ x v = 1
  constraints : ∀ c ∈ p.constraints, c.Holds x

variable {a a' b b' bound choice : ℚ}

/-- The constraint that is not chosen is void, and the other one holds. -/
theorem either_of_choice (hchoice : choice = 0 ∨ choice = 1)
    (hfirst : a ≤ b + bound * (1 - choice)) (hsecond : b' ≤ a' + bound * choice) :
    a ≤ b ∨ b' ≤ a' := by
  rcases hchoice with rfl | rfl
  · exact .inr (by linarith)
  · exact .inl (by linarith)

theorem exists_choice (hfirst : a ≤ b + bound) (hsecond : b' ≤ a' + bound) (h : a ≤ b ∨ b' ≤ a') :
    ∃ choice : ℚ, (choice = 0 ∨ choice = 1) ∧ a ≤ b + bound * (1 - choice) ∧
      b' ≤ a' + bound * choice := by
  rcases h with h | h
  · exact ⟨1, .inr rfl, by linarith, by linarith⟩
  · exact ⟨0, .inl rfl, by linarith, by linarith⟩

end LinearProgram
