import Mathlib.Data.Nat.Basic

/-!
# While loops

A loop body turns a state into the next state or leaves the loop with a result. The loop is
followed for a number of rounds, so a loop that never ends has no result. A measure that every
round lowers gives a number of rounds that is enough, and an invariant says what then holds.
-/

namespace Loop

variable {σ ρ : Type*}

/-- The loop from a state. There is no result when it has not been left after these rounds. -/
def run (body : σ → σ ⊕ ρ) : ℕ → σ → Option ρ
  | 0, _ => none
  | rounds + 1, s =>
    match body s with
    | .inl next => run body rounds next
    | .inr result => some result

variable {body : σ → σ ⊕ ρ} {s next : σ} {result : ρ} {rounds more : ℕ}

theorem run_succ_inl (h : body s = .inl next) : run body (rounds + 1) s = run body rounds next := by
  simp only [run, h]

theorem run_succ_inr (h : body s = .inr result) : run body (rounds + 1) s = some result := by
  simp only [run, h]

/-- A result is kept when the loop is followed further. -/
theorem run_mono (enough : rounds ≤ more) (h : run body rounds s = some result) :
    run body more s = some result := by
  induction rounds generalizing more s with
  | zero => cases h
  | succ rounds ih =>
    obtain ⟨more, rfl⟩ := Nat.exists_eq_add_of_le' (lt_of_lt_of_le (Nat.succ_pos _) enough)
    rcases hbody : body s with next | left
    · rw [run_succ_inl hbody] at h ⊢
      exact ih (Nat.le_of_succ_le_succ enough) h
    · rw [run_succ_inr hbody] at h ⊢
      exact h

/-- The rule of a loop with an invariant and a measure: rounds keep the invariant and lower the
measure, so the loop is left, in a state of the invariant. -/
theorem exists_run {Inv : σ → Prop} (size : σ → ℕ)
    (keeps : ∀ s next, Inv s → body s = .inl next → Inv next ∧ size next < size s) (h : Inv s) :
    ∃ rounds last result, Inv last ∧ body last = .inr result ∧
      run body rounds s = some result := by
  -- by strong induction on the measure
  induction hsize : size s using Nat.strong_induction_on generalizing s with
  | h n ih =>
    rcases hbody : body s with next | left
    · obtain ⟨hnext, hlower⟩ := keeps s next h hbody
      obtain ⟨rounds, last, result, hlast, hleft, hrun⟩ := ih _ (hsize ▸ hlower) hnext rfl
      exact ⟨rounds + 1, last, result, hlast, hleft, (run_succ_inl hbody).trans hrun⟩
    · exact ⟨1, s, left, h, hbody, run_succ_inr hbody⟩

end Loop
