import Mathlib.Algebra.Order.Ring.Nat
import Mathlib.Data.Finset.Prod
import Mathlib.Data.Nat.ModEq

/-!
# Tiles in groups of rows

The tiles of a grid are numbered group by group, where a group takes some rows of tiles, and
column by column inside a group. The last group may have fewer rows. The coordinates are computed
from the number itself and not from its position in the group, so the columns of the last group
may be rotated; every tile still has exactly one number.
-/

namespace GroupedOrder

open Finset

variable {rows cols group number other : ℕ}

/-- The number of rows of the group that starts at a row. -/
def groupRows (rows group first : ℕ) : ℕ :=
  min (rows - first) group

/-- The first row of the group of a number. -/
def firstRow (cols group number : ℕ) : ℕ :=
  number / (group * cols) * group

/-- The row and the column of the tile with this number. -/
def tile (rows cols group number : ℕ) : ℕ × ℕ :=
  let first := firstRow cols group number
  let size := groupRows rows group first
  (first + number % size, number / size % cols)

theorem firstRow_lt (group : ℕ) (h : number < rows * cols) :
    firstRow cols group number < rows := by
  have hle : firstRow cols group number * cols ≤ number := by
    rw [firstRow, mul_assoc]
    exact Nat.div_mul_le_self _ _
  exact Nat.lt_of_mul_lt_mul_right (hle.trans_lt h)

theorem groupRows_pos {first : ℕ} (hgroup : 0 < group) (h : first < rows) :
    0 < groupRows rows group first :=
  Nat.lt_min.mpr ⟨Nat.sub_pos_of_lt h, hgroup⟩

theorem tile_mem (hcols : 0 < cols) (hgroup : 0 < group) (h : number < rows * cols) :
    (tile rows cols group number).1 < rows ∧ (tile rows cols group number).2 < cols := by
  have hfirst := firstRow_lt group h
  have hrow := Nat.mod_lt number (groupRows_pos hgroup hfirst)
  have hsize : groupRows rows group (firstRow cols group number) ≤
      rows - firstRow cols group number := min_le_left _ _
  constructor
  · rw [tile]
    omega
  · exact Nat.mod_lt _ hcols

/-- The numbers of a group are consecutive, as many as the group has tiles. -/
theorem number_mem_group (hcols : 0 < cols) (hgroup : 0 < group) (h : number < rows * cols) :
    firstRow cols group number * cols ≤ number ∧
      number < firstRow cols group number * cols +
        groupRows rows group (firstRow cols group number) * cols := by
  have hpos : 0 < group * cols := mul_pos hgroup hcols
  have hstart : firstRow cols group number * cols = number / (group * cols) * (group * cols) := by
    rw [firstRow, mul_assoc]
  refine ⟨hstart ▸ Nat.div_mul_le_self _ _, ?_⟩
  rcases le_total (rows - firstRow cols group number) group with hlast | hfull
  · -- the last group ends with the grid
    rw [groupRows, min_eq_left hlast, ← add_mul,
      Nat.add_sub_cancel' (firstRow_lt group h).le]
    exact h
  · rw [groupRows, min_eq_right hfull, hstart]
    exact Nat.lt_div_mul_add hpos

/-- The row of a tile tells its group. -/
theorem tile_row_div (hgroup : 0 < group) (h : number < rows * cols) :
    (tile rows cols group number).1 / group * group = firstRow cols group number := by
  have hlt := (Nat.mod_lt number (groupRows_pos hgroup (firstRow_lt group h))).trans_le
    (min_le_right _ group)
  rw [tile]
  generalize number % groupRows rows group (firstRow cols group number) = offset at hlt
  rw [firstRow, add_comm, Nat.add_mul_div_right _ _ hgroup, Nat.div_eq_of_lt hlt, zero_add]

theorem tile_injective (hcols : 0 < cols) (hgroup : 0 < group) (hnumber : number < rows * cols)
    (hother : other < rows * cols)
    (same : tile rows cols group number = tile rows cols group other) : number = other := by
  obtain ⟨hrow, hcol⟩ := Prod.mk.inj same
  have hfirst : firstRow cols group number = firstRow cols group other := by
    rw [← tile_row_div hgroup hnumber, ← tile_row_div hgroup hother, same]
  rw [hfirst] at hrow hcol
  have hnumber := number_mem_group hcols hgroup hnumber
  have hother := number_mem_group hcols hgroup hother
  rw [hfirst] at hnumber
  generalize groupRows rows group (firstRow cols group other) = size at *
  have hmod : number ≡ other [MOD size * cols] := by
    rw [Nat.ModEq, Nat.mod_mul, Nat.mod_mul, hcol, Nat.add_left_cancel hrow]
  -- two congruent numbers that lie less than the modulus apart are equal
  rcases le_total number other with hle | hle
  · have hdvd := (Nat.modEq_iff_dvd' hle).mp hmod
    have := Nat.eq_zero_of_dvd_of_lt hdvd (by omega)
    omega
  · have hdvd := (Nat.modEq_iff_dvd' hle).mp hmod.symm
    have := Nat.eq_zero_of_dvd_of_lt hdvd (by omega)
    omega

/-- As many numbers as tiles, and no two of one tile: every tile has a number. -/
theorem tile_surjective (hcols : 0 < cols) (hgroup : 0 < group) {row col : ℕ} (hrow : row < rows)
    (hcol : col < cols) : ∃ number < rows * cols, tile rows cols group number = (row, col) := by
  have hmaps : ∀ number ∈ Finset.range (rows * cols),
      tile rows cols group number ∈ Finset.range rows ×ˢ Finset.range cols := by
    intro number h
    obtain ⟨hr, hc⟩ := tile_mem hcols hgroup (mem_range.mp h)
    exact mem_product.mpr ⟨mem_range.mpr hr, mem_range.mpr hc⟩
  have hinj : Set.InjOn (tile rows cols group) (Finset.range (rows * cols)) := by
    intro number h other h' same
    exact tile_injective hcols hgroup (mem_range.mp h) (mem_range.mp h') same
  have hcard : (Finset.range rows ×ˢ Finset.range cols).card ≤
      (Finset.range (rows * cols)).card := by
    rw [card_product, card_range, card_range, card_range]
  have hmem : (row, col) ∈ Finset.range rows ×ˢ Finset.range cols :=
    mem_product.mpr ⟨mem_range.mpr hrow, mem_range.mpr hcol⟩
  obtain ⟨number, h, htile⟩ := surjOn_of_injOn_of_card_le _ hmaps hinj hcard hmem
  exact ⟨number, mem_range.mp h, htile⟩

end GroupedOrder
