import Mathlib.Order.Bounds.Basic

/-!
# Searching for a run from the right

A scan goes over positions from the last one down and counts how many marked positions it has just
passed. The first time the count reaches a given length, the scan has found the rightmost end of a
run of that length. When it reaches the start of the positions before, what it has counted is a run
that is cut off by the start.
-/

namespace RunSearch

/-- The `c` positions before `n`, or all of them if there are fewer, are marked. -/
def EndsAt (Marked : ℕ → Prop) (c n : ℕ) : Prop :=
  ∀ i, n ≤ i + c → i < n → Marked i

/-- The scan of `n` positions is at position `i` and has just passed `k` marked ones, which are too
few. Behind them no run ends. -/
structure Searched (Marked : ℕ → Prop) (c n i k : ℕ) : Prop where
  run : ∀ j, i ≤ j → j < i + k → Marked j
  short : k < c
  bounded : i + k ≤ n
  beyond : ∀ m, i + k < m → m ≤ n → ¬ EndsAt Marked c m

variable {Marked : ℕ → Prop} {c n i k : ℕ}

theorem Searched.start (hc : 0 < c) : Searched Marked c n n 0 where
  run j hle hlt := absurd hlt (by omega)
  short := hc
  bounded := le_rfl
  beyond m hlt hle := absurd hle (by omega)

section

variable (h : Searched Marked c n (i + 1) k)
include h

/-- A marked position extends the run. -/
theorem Searched.hit (hi : Marked i) (hshort : k + 1 < c) : Searched Marked c n i (k + 1) where
  run j hle hlt := by
    rcases hle.eq_or_lt with rfl | hlt'
    · exact hi
    · exact h.run j hlt' (by omega)
  short := hshort
  bounded := by
    have := h.bounded
    omega
  beyond m hlt := h.beyond m (by omega)

/-- A position that is not marked is in every run that ends at most `c` positions behind it. -/
theorem Searched.miss (hi : ¬ Marked i) : Searched Marked c n i 0 where
  run j hle hlt := absurd hlt (by omega)
  short := by
    have := h.short
    omega
  bounded := by
    have := h.bounded
    omega
  beyond m hlt hle hends := by
    by_cases hbehind : i + 1 + k < m
    · exact h.beyond m hbehind hle hends
    · have hshort := h.short
      exact hi (hends i (by omega) (by omega))

/-- The run has the length that is asked for. -/
theorem Searched.found (hi : Marked i) (hlong : c ≤ k + 1) :
    IsGreatest {m | m ≤ n ∧ EndsAt Marked c m} (i + (k + 1)) := by
  have hbounded := h.bounded
  refine ⟨⟨by omega, fun j hle hlt => ?_⟩, fun m hm => ?_⟩
  · have hshort := h.short
    rcases (show i ≤ j by omega).eq_or_lt with rfl | hlt'
    · exact hi
    · exact h.run j hlt' (by omega)
  · by_contra hlt
    exact h.beyond m (by omega) hm.1 hm.2

end

/-- The scan reaches the start. -/
theorem Searched.cutOff (h : Searched Marked c n 0 k) :
    IsGreatest {m | m ≤ n ∧ EndsAt Marked c m} k := by
  have hbounded := h.bounded
  refine ⟨⟨by omega, fun j _ hlt => h.run j (Nat.zero_le j) (by omega)⟩, fun m hm => ?_⟩
  by_contra hlt
  exact h.beyond m (by omega) hm.1 hm.2

end RunSearch
