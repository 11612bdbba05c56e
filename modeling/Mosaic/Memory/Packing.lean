import Mathlib.Algebra.BigOperators.Group.Finset.Basic
import Mathlib.Algebra.Order.BigOperators.Group.Finset
import Mathlib.Order.Interval.Finset.Nat

/-!
# Ranges that share no cell

Ranges of cells that are pairwise separate fill at most the cells that enclose them.
-/

namespace Packing

open Finset

variable {ι : Type*} {offset size : ι → ℕ} {total : ℕ}

/-- The cells of a range. -/
def cells (offset size : ι → ℕ) (i : ι) : Finset ℕ :=
  Finset.Ico (offset i) (offset i + size i)

theorem card_cells (i : ι) : (cells offset size i).card = size i := by
  rw [cells, Nat.card_Ico, Nat.add_sub_cancel_left]

theorem disjoint_cells {i j : ι} (h : offset i + size i ≤ offset j ∨ offset j + size j ≤ offset i) :
    Disjoint (cells offset size i) (cells offset size j) := by
  rcases h with h | h
  · exact Finset.Ico_disjoint_Ico_consecutive .. |>.mono_right (Finset.Ico_subset_Ico_left h)
  · exact (Finset.Ico_disjoint_Ico_consecutive .. |>.mono_right (Finset.Ico_subset_Ico_left h)).symm

/-- Separate ranges inside `total` cells have at most `total` cells together. An empty range may
lie anywhere. -/
theorem sum_le_of_separate (s : Finset ι) (inside : ∀ i ∈ s, 0 < size i → offset i + size i ≤ total)
    (separate : ∀ i ∈ s, ∀ j ∈ s, i ≠ j → 0 < size i → 0 < size j →
      offset i + size i ≤ offset j ∨ offset j + size j ≤ offset i) :
    ∑ i ∈ s, size i ≤ total := by
  classical
  have pos (i : ι) (a : ℕ) (ha : a ∈ cells offset size i) : 0 < size i := by
    have hcard : (cells offset size i).card = size i := card_cells i
    rw [← hcard]
    exact card_pos.mpr ⟨a, ha⟩
  calc ∑ i ∈ s, size i = ∑ i ∈ s, (cells offset size i).card :=
        sum_congr rfl fun i _ => (card_cells i).symm
    _ = (s.biUnion (cells offset size)).card := by
        refine (card_biUnion fun i hi j hj hne => ?_).symm
        rw [Function.onFun, disjoint_left]
        intro a ha hb
        exact disjoint_left.mp
          (disjoint_cells (separate i hi j hj hne (pos i a ha) (pos j a hb))) ha hb
    _ ≤ (Finset.range total).card := by
        refine card_le_card (biUnion_subset.mpr fun i hi a ha => ?_)
        exact mem_range.mpr ((mem_Ico.mp ha).2.trans_le (inside i hi (pos i a ha)))
    _ = total := card_range total

end Packing
