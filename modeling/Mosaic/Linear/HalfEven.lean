import Mathlib.Algebra.Order.Floor.Ring
import Mathlib.Algebra.Ring.Int.Parity
import Mathlib.Data.Rat.Floor
import Mathlib.Tactic.Linarith

/-!
# Rounding half to even

Rounding to the nearest whole number, where a number half way between two goes to the even one.
Rounding is monotone and commutes with adding an even number. It does not commute with adding an
odd one: the sum of a half and one is rounded up when the half is rounded down, and the other way
round.
-/

/-- The nearest whole number, and the even one of two that are as near. -/
def roundHalfEven (x : ℚ) : ℤ :=
  if Int.fract x < 1 / 2 then ⌊x⌋
  else if 1 / 2 < Int.fract x then ⌊x⌋ + 1
  else if Even ⌊x⌋ then ⌊x⌋
  else ⌊x⌋ + 1

theorem floor_le_roundHalfEven (x : ℚ) : ⌊x⌋ ≤ roundHalfEven x := by
  unfold roundHalfEven
  split_ifs <;> omega

theorem roundHalfEven_le_floor_add_one (x : ℚ) : roundHalfEven x ≤ ⌊x⌋ + 1 := by
  unfold roundHalfEven
  split_ifs <;> omega

@[simp] theorem roundHalfEven_intCast (n : ℤ) : roundHalfEven n = n := by
  simp [roundHalfEven]

@[simp] theorem roundHalfEven_zero : roundHalfEven 0 = 0 := by
  simpa using roundHalfEven_intCast 0

theorem roundHalfEven_mono {x y : ℚ} (h : x ≤ y) : roundHalfEven x ≤ roundHalfEven y := by
  rcases (Int.floor_mono h).lt_or_eq with hlt | heq
  · calc roundHalfEven x ≤ ⌊x⌋ + 1 := roundHalfEven_le_floor_add_one x
      _ ≤ ⌊y⌋ := hlt
      _ ≤ roundHalfEven y := floor_le_roundHalfEven y
  · -- between the same whole numbers the larger fraction is not rounded down alone
    have hfract : Int.fract x ≤ Int.fract y := by
      unfold Int.fract
      rw [heq]
      linarith
    unfold roundHalfEven
    rw [heq]
    split_ifs <;> first | omega | linarith

theorem roundHalfEven_add_even (x : ℚ) {n : ℤ} (hn : Even n) :
    roundHalfEven (x + n) = roundHalfEven x + n := by
  have hparity : Even (⌊x⌋ + n) ↔ Even ⌊x⌋ := by
    rw [Int.even_add]
    exact iff_true_right hn
  unfold roundHalfEven
  rw [Int.fract_add_intCast, Int.floor_add_intCast]
  simp only [hparity]
  split_ifs <;> omega

theorem roundHalfEven_nonneg {x : ℚ} (h : 0 ≤ x) : 0 ≤ roundHalfEven x := by
  have h := roundHalfEven_mono h
  rwa [roundHalfEven_zero] at h

/-- One and a half goes up. -/
theorem roundHalfEven_three_halves : roundHalfEven (3 / 2) = 2 := by
  decide +kernel

/-- One and a half with an odd number goes down. -/
theorem roundHalfEven_three_halves_add_odd {n : ℤ} (hn : Odd n) :
    roundHalfEven (3 / 2 + n) = 1 + n := by
  have hfract : Int.fract (3 / 2 : ℚ) = 1 / 2 := by decide +kernel
  have hfloor : ⌊(3 / 2 : ℚ)⌋ = 1 := by decide +kernel
  have hparity : Even (1 + n) := by
    rw [add_comm]
    exact hn.add_one
  unfold roundHalfEven
  rw [Int.fract_add_intCast, Int.floor_add_intCast, hfract, hfloor, if_neg (lt_irrefl _),
    if_neg (lt_irrefl _), if_pos hparity]
