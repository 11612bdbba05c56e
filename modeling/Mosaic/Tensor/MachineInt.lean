import Mathlib.Algebra.Order.Ring.Int

/-!
# Integers of 32 and 64 bits

An integer of a kernel language takes 32 bits when it fits and 64 bits otherwise. An operation on
two integers is made with 64 bits as soon as one of them has 64, and wraps around when it is made
with 32. Results of 64 bits are taken to be exact.
-/

/-- An integer with its width. -/
structure MachineInt where
  wide : Bool
  value : ℤ
  deriving DecidableEq, Repr

namespace MachineInt

/-- The signed value of the lowest 32 bits. -/
def narrow (n : ℤ) : ℤ :=
  (n + 2147483648) % 4294967296 - 2147483648

def Fits (n : ℤ) : Prop :=
  -2147483648 ≤ n ∧ n < 2147483648

instance (n : ℤ) : Decidable (Fits n) :=
  inferInstanceAs (Decidable (_ ∧ _))

theorem fits_natCast {n : ℕ} (h : n < 2 ^ 31) : Fits n := by
  unfold Fits
  omega

theorem fits_neg_natCast {n : ℕ} (h : n ≤ 2 ^ 31) : Fits (-n) := by
  unfold Fits
  omega

variable {n : ℤ}

theorem narrow_of_fits (h : Fits n) : narrow n = n := by
  obtain ⟨hlo, hhi⟩ := h
  unfold narrow
  omega

theorem fits_narrow (n : ℤ) : Fits (narrow n) := by
  unfold narrow Fits
  omega

theorem narrow_lt (h : 2147483648 ≤ n) : narrow n < n := by
  unfold narrow
  omega

/-- An argument or a constant. -/
def ofInt (n : ℤ) : MachineInt :=
  ⟨!decide (Fits n), n⟩

/-- A result of the given width. -/
def result (wide : Bool) (n : ℤ) : ℤ :=
  if wide then n else narrow n

def binary (f : ℤ → ℤ → ℤ) (a b : MachineInt) : MachineInt :=
  ⟨a.wide || b.wide, result (a.wide || b.wide) (f a.value b.value)⟩

theorem result_of_fits (wide : Bool) (h : Fits n) : result wide n = n := by
  cases wide with
  | true => rfl
  | false => exact narrow_of_fits h

@[simp] theorem wide_binary (f : ℤ → ℤ → ℤ) (a b : MachineInt) :
    (binary f a b).wide = (a.wide || b.wide) := rfl

@[simp] theorem value_ofInt (n : ℤ) : (ofInt n).value = n := rfl

theorem wide_ofInt_of_fits (h : Fits n) : (ofInt n).wide = false := by
  rw [ofInt, decide_eq_true h, Bool.not_true]

theorem wide_ofInt_natCast (n : ℕ) : (ofInt n).wide = decide (2 ^ 31 ≤ n) := by
  have hiff : ¬Fits n ↔ 2 ^ 31 ≤ n := by
    unfold Fits
    omega
  simp only [ofInt, ← decide_not, hiff]

variable {f : ℤ → ℤ → ℤ} {a b : MachineInt}

/-- An operation is exact when one of the operands is wide or the result fits. -/
theorem value_binary (h : a.wide = true ∨ b.wide = true ∨ Fits (f a.value b.value)) :
    (binary f a b).value = f a.value b.value := by
  change result _ _ = _
  rcases h with h | h | h
  · rw [h, Bool.true_or]
    rfl
  · rw [h, Bool.or_true]
    rfl
  · exact result_of_fits _ h

theorem value_binary_of_fits
    (h : f a.value b.value = n) (hn : Fits n) : (binary f a b).value = n := by
  rw [value_binary (.inr (.inr (h ▸ hn))), h]

/-- An operation on narrow operands. -/
theorem value_binary_of_narrow (ha : a.wide = false)
    (hb : b.wide = false) : (binary f a b).value = narrow (f a.value b.value) := by
  simp only [binary, ha, hb, Bool.or_false, result, Bool.false_eq_true, if_false]

/-- An operation on narrow operands whose result is too large loses a part of it. -/
theorem value_binary_lt (ha : a.wide = false)
    (hb : b.wide = false) (h : 2147483648 ≤ f a.value b.value) :
    (binary f a b).value < f a.value b.value := by
  rw [value_binary_of_narrow ha hb]
  exact narrow_lt h

/-! ### Rounding up -/

/-- The quotient, rounded up. -/
def cdiv (x size : MachineInt) : MachineInt :=
  binary Int.tdiv (binary (· - ·) (binary (· + ·) x size) (ofInt 1)) size

/-- The subtraction undoes a wrap of the sum by one. -/
theorem value_roundUp (x : ℕ) {size : ℕ} (hsize : size < 2 ^ 31) :
    (binary (· - ·) (binary (· + ·) (ofInt x) (ofInt size)) (ofInt 1)).value =
      if 2 ^ 31 ≤ x then (x : ℤ) + size - 1 else narrow ((x : ℤ) + size - 1) := by
  have hnarrow : (ofInt (size : ℤ)).wide = false := wide_ofInt_of_fits (fits_natCast hsize)
  have hone : (ofInt 1).wide = false := wide_ofInt_of_fits (by decide)
  by_cases h : 2 ^ 31 ≤ x
  · have hwide : (ofInt (x : ℤ)).wide = true := by
      rw [wide_ofInt_natCast, decide_eq_true h]
    rw [value_binary (.inl (by rw [wide_binary, hwide, Bool.true_or])), value_binary (.inl hwide),
      if_pos h]
    rfl
  · have hx : (ofInt (x : ℤ)).wide = false := by
      rw [wide_ofInt_natCast, decide_eq_false h]
    rw [value_binary_of_narrow (by rw [wide_binary, hx, hnarrow, Bool.or_false]) hone,
      value_binary_of_narrow hx hnarrow, if_neg h, value_ofInt, value_ofInt, value_ofInt]
    unfold narrow
    omega

theorem value_cdiv {x size : ℕ} (hpos : 0 < size) (h : x + size ≤ 2 ^ 31 ∨ 2 ^ 31 ≤ x) :
    (cdiv (ofInt x) (ofInt size)).value = ((x + size - 1) / size : ℕ) := by
  have hround : (binary (· - ·) (binary (· + ·) (ofInt x) (ofInt size)) (ofInt 1)).value =
      ((x + size - 1 : ℕ) : ℤ) := by
    by_cases hsize : size < 2 ^ 31
    · rw [value_roundUp x hsize]
      split
      · omega
      · rw [narrow_of_fits (by unfold Fits; omega)]
        omega
    · have hwide : (ofInt (size : ℤ)).wide = true := by
        rw [wide_ofInt_natCast, decide_eq_true (not_lt.mp hsize)]
      rw [value_binary (.inl (by rw [wide_binary, hwide, Bool.or_true])),
        value_binary (.inr (.inl hwide)), value_ofInt, value_ofInt, value_ofInt]
      omega
  have hle : (x + size - 1) / size ≤ x + size - 1 := Nat.div_le_self _ _
  rw [cdiv, value_binary, hround, value_ofInt, ← Int.ofNat_tdiv]
  rw [hround, value_ofInt, ← Int.ofNat_tdiv]
  rcases h with h | h
  · exact .inr (.inr (fits_natCast (by omega)))
  · refine .inl ?_
    rw [wide_binary, wide_binary, wide_ofInt_natCast, decide_eq_true h, Bool.true_or, Bool.true_or]

/-! ### Products -/

theorem value_mul_ofInt_iff {x y : ℕ} (hx : x < 2 ^ 31) :
    (binary (· * ·) (ofInt x) (ofInt y)).value = x * y ↔ 2 ^ 31 ≤ y ∨ x * y < 2 ^ 31 := by
  constructor
  · intro exact
    by_contra h
    rw [not_or, not_le, not_lt] at h
    obtain ⟨hy, hlarge⟩ := h
    refine absurd exact (ne_of_lt (value_binary_lt ?_ ?_ ?_))
    · exact wide_ofInt_of_fits (by unfold Fits; omega)
    · exact wide_ofInt_of_fits (by unfold Fits; omega)
    · change (2147483648 : ℤ) ≤ x * y
      exact_mod_cast hlarge
  · rintro (hy | hsmall)
    · refine value_binary (.inr (.inl ?_))
      rw [wide_ofInt_natCast, decide_eq_true hy]
    · refine value_binary (.inr (.inr ?_))
      change Fits ((x : ℤ) * y)
      rw [← Int.natCast_mul]
      unfold Fits
      omega

end MachineInt
