import Mathlib.Data.Int.Order.Basic
import Mathlib.Data.List.Basic

/-!
# Stores in slices

The bounds of a slice are those of the Python language: a negative one counts from the end, and one
past an end is cut there. What is stored has the length of the slice, or it is a single value, which
is stored all over it.
-/

namespace Tensor

open List

variable {α : Type*}

/-- The position that a bound of a slice stands for. -/
def sliceBound (size : ℕ) (i : ℤ) : ℕ :=
  min (if i < 0 then i + size else i).toNat size

/-- The store `dst[i:j] = src`. -/
def storeSlice (dst : List α) (i j : ℤ) (src : List α) : Option (List α) :=
  let lo := sliceBound dst.length i
  let width := sliceBound dst.length j - lo
  match src with
  | [v] => some (dst.take lo ++ List.replicate width v ++ dst.drop (lo + width))
  | src => if src.length = width then some (dst.take lo ++ src ++ dst.drop (lo + width)) else none

theorem sliceBound_natCast {size i : ℕ} (h : i ≤ size) : sliceBound size i = i := by
  unfold sliceBound
  omega

theorem sliceBound_le (size : ℕ) (i : ℤ) : sliceBound size i ≤ size := by
  unfold sliceBound
  omega

variable {dst src out : List α} {i j : ℤ}

/-- A store succeeds when the lengths agree or there is a single value. -/
theorem storeSlice_isSome_iff : (∃ out, storeSlice dst i j src = some out) ↔
    src.length = 1 ∨ src.length = sliceBound dst.length j - sliceBound dst.length i := by
  match src with
  | [] => simp [storeSlice]
  | [v] => simp [storeSlice]
  | v :: w :: rest => simp [storeSlice]

/-- What is stored lies in the slice, and the rest of the vector is left alone. -/
theorem storeSlice_cases (h : storeSlice dst i j src = some out) :
    ∃ stored, (∀ v ∈ stored, v ∈ src) ∧
      stored.length = sliceBound dst.length j - sliceBound dst.length i ∧
      out = dst.take (sliceBound dst.length i) ++ stored ++
        dst.drop (sliceBound dst.length i + stored.length) := by
  match src with
  | [v] =>
    cases h
    exact ⟨_, fun w hw => by simpa using eq_of_mem_replicate hw, length_replicate,
      by rw [length_replicate]⟩
  | [] =>
    simp only [storeSlice, Option.ite_none_right_eq_some, Option.some.injEq] at h
    exact ⟨[], fun _ hw => hw, h.1, by rw [h.1, ← h.2]⟩
  | v :: w :: rest =>
    simp only [storeSlice, Option.ite_none_right_eq_some, Option.some.injEq] at h
    exact ⟨v :: w :: rest, fun _ hw => hw, h.1, by rw [h.1, ← h.2]⟩

theorem length_of_storeSlice (h : storeSlice dst i j src = some out) : out.length = dst.length := by
  obtain ⟨stored, -, hlength, rfl⟩ := storeSlice_cases h
  have hlo := sliceBound_le dst.length i
  have hhi := sliceBound_le dst.length j
  rw [length_append, length_append, length_take, length_drop]
  omega

theorem mem_of_storeSlice (h : storeSlice dst i j src = some out) {v : α} (hv : v ∈ out) :
    v ∈ dst ∨ v ∈ src := by
  obtain ⟨stored, hstored, -, rfl⟩ := storeSlice_cases h
  rcases mem_append.mp hv with hv | hv
  · rcases mem_append.mp hv with hv | hv
    · exact .inl (mem_of_mem_take hv)
    · exact .inr (hstored v hv)
  · exact .inl (mem_of_mem_drop hv)

/-- A vector that fits behind the first `k` entries. -/
theorem storeSlice_of_le (dst src : List α) {k : ℕ} (h : k + src.length ≤ dst.length) :
    storeSlice dst k (k + src.length : ℕ) src =
      some (dst.take k ++ src ++ dst.drop (k + src.length)) := by
  have hlo : sliceBound dst.length (k : ℤ) = k := sliceBound_natCast (by omega)
  have hhi : sliceBound dst.length ((k + src.length : ℕ) : ℤ) = k + src.length :=
    sliceBound_natCast h
  have hwidth : sliceBound dst.length ((k + src.length : ℕ) : ℤ) - k = src.length := by
    rw [hhi, Nat.add_sub_cancel_left]
  match src with
  | [v] =>
    rw [length_singleton] at hwidth
    simp only [storeSlice, hlo, length_singleton, hwidth, replicate_one]
  | [] => simp only [storeSlice, hlo, hwidth, if_true]
  | v :: w :: rest => simp only [storeSlice, hlo, hwidth, if_true]

end Tensor
