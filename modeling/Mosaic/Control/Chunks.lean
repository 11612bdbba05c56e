import Mosaic.Control.Fallible
import Mathlib.Algebra.Order.Ring.Nat

/-!
# Loops over the chunks of a range

A loop over `count` rows in steps of `tile` visits the ranges from a multiple of `tile` up to
the next one, the last of them cut off at `count`. Lists stand for tensors by rows, and a range of
rows is a piece of the list.
-/

namespace Chunks

open List

variable {α β σ ε : Type}

/-- The ranges of `tile` rows each, from the first row on. -/
def bounds (count tile : ℕ) : List (ℕ × ℕ) :=
  (List.range ((count + tile - 1) / tile)).map fun i => (i * tile, min (i * tile + tile) count)

/-- The rows from `lo` up to `hi`, as far as there are any. -/
def piece (rows : List α) (lo hi : ℕ) : List α :=
  (rows.drop lo).take (hi - lo)

/-! ### The ranges -/

theorem lt_of_lt_chunks {count tile i : ℕ} (htile : 0 < tile)
    (hi : i < (count + tile - 1) / tile) : i * tile < count := by
  have : (i + 1) * tile ≤ count + tile - 1 := (Nat.le_div_iff_mul_le htile).mp hi
  rw [Nat.add_one_mul] at this
  omega

theorem le_chunks_mul (count tile : ℕ) (htile : 0 < tile) :
    count ≤ (count + tile - 1) / tile * tile := by
  have := Nat.div_add_mod (count + tile - 1) tile
  have := Nat.mod_lt (count + tile - 1) htile
  rw [mul_comm]
  omega

/-- Every range has a row, none has more than `tile`, and all lie among the rows. -/
theorem bounds_spec {count tile lo hi : ℕ} (htile : 0 < tile) (h : (lo, hi) ∈ bounds count tile) :
    lo < hi ∧ hi ≤ count ∧ hi - lo ≤ tile := by
  obtain ⟨_, hi, heq⟩ := mem_map.mp h
  have hlt := lt_of_lt_chunks htile (mem_range.mp hi)
  obtain ⟨rfl, rfl⟩ := Prod.mk.inj heq
  omega

/-- A loop whose rounds lead from the rows done so far to the next ones. -/
theorem foldlM_bounds {count tile : ℕ} (htile : 0 < tile) {body : σ → ℕ × ℕ → Except ε σ}
    {P : ℕ → σ → Prop} {s : σ} (start : P 0 s)
    (round : ∀ lo hi s, lo < hi → hi ≤ count → hi - lo ≤ tile → P lo s →
      ∃ t, body s (lo, hi) = .ok t ∧ P hi t) :
    ∃ t, (bounds count tile).foldlM body s = .ok t ∧ P count t := by
  -- after `n` rounds the rows up to the `n`-th multiple of the tile are done
  have rounds : ∀ n ≤ (count + tile - 1) / tile,
      ∃ t, ((List.range n).map fun i => (i * tile, min (i * tile + tile) count)).foldlM body s =
        .ok t ∧ P (min (n * tile) count) t := by
    intro n hn
    induction n with
    | zero => exact ⟨s, rfl, by simpa using start⟩
    | succ n ih =>
      obtain ⟨t, hrun, hP⟩ := ih (Nat.le_of_succ_le hn)
      have hlt := lt_of_lt_chunks htile hn
      rw [min_eq_left hlt.le] at hP
      obtain ⟨u, hbody, hQ⟩ := round (n * tile) (min (n * tile + tile) count) t (by omega)
        (by omega) (by omega) hP
      refine ⟨u, ?_, by rwa [Nat.add_one_mul]⟩
      rw [range_succ, map_append, Fallible.foldlM_append_eq_ok]
      exact ⟨t, hrun, Fallible.foldlM_cons_eq_ok.mpr ⟨u, hbody, rfl⟩⟩
  obtain ⟨t, hrun, hP⟩ := rounds _ le_rfl
  exact ⟨t, hrun, by rwa [min_eq_right (le_chunks_mul count tile htile)] at hP⟩

/-- The ranges, one after the other, are all rows in order. -/
theorem bounds_cover {count tile : ℕ} (htile : 0 < tile) :
    (bounds count tile).flatMap (fun b => List.range' b.1 (b.2 - b.1)) = List.range count := by
  have rounds : ∀ n ≤ (count + tile - 1) / tile,
      ((List.range n).map fun i => (i * tile, min (i * tile + tile) count)).flatMap
        (fun b => List.range' b.1 (b.2 - b.1)) = List.range (min (n * tile) count) := by
    intro n hn
    induction n with
    | zero => simp
    | succ n ih =>
      have hlt := lt_of_lt_chunks htile hn
      rw [range_succ, map_append, flatMap_append, ih (Nat.le_of_succ_le hn),
        min_eq_left hlt.le, range_eq_range', range_eq_range']
      simp only [map_cons, map_nil, flatMap_cons, flatMap_nil, append_nil]
      -- a range starts where the rows so far end
      have joined : List.range' 0 (n * tile) ++
          List.range' (0 + n * tile) (min (n * tile + tile) count - n * tile) = _ :=
        range'_append_1
      rw [zero_add] at joined
      rw [joined, Nat.add_one_mul]
      congr 1
      omega
  refine (rounds _ le_rfl).trans ?_
  rw [min_eq_right (le_chunks_mul count tile htile)]

/-! ### Segments -/

theorem length_piece {rows : List α} {lo hi : ℕ} (h : hi ≤ rows.length) :
    (piece rows lo hi).length = hi - lo := by
  rw [piece, List.length_take, length_drop]
  omega

theorem take_append_piece (rows : List α) {lo hi : ℕ} (h : lo ≤ hi) :
    rows.take lo ++ piece rows lo hi = rows.take hi := by
  rw [piece, ← take_add, Nat.add_sub_cancel' h]

theorem piece_map (f : α → β) (rows : List α) (lo hi : ℕ) :
    piece (rows.map f) lo hi = (piece rows lo hi).map f := by
  rw [piece, piece, List.map_take, map_drop]

theorem piece_all (rows : List α) : piece rows 0 rows.length = rows := by
  rw [piece, drop_zero, Nat.sub_zero, take_length]

/-- The pieces of the ranges, one after the other, are all rows. -/
theorem flatMap_piece (rows : List α) {tile : ℕ} (htile : 0 < tile) :
    (bounds rows.length tile).flatMap (fun b => piece rows b.1 b.2) = rows := by
  have rounds : ∀ n ≤ (rows.length + tile - 1) / tile,
      ((List.range n).map fun i => (i * tile, min (i * tile + tile) rows.length)).flatMap
        (fun b => piece rows b.1 b.2) = rows.take (min (n * tile) rows.length) := by
    intro n hn
    induction n with
    | zero => simp
    | succ n ih =>
      have hlt := lt_of_lt_chunks htile hn
      rw [range_succ, map_append, flatMap_append, ih (Nat.le_of_succ_le hn),
        min_eq_left hlt.le, Nat.add_one_mul]
      simp only [map_cons, map_nil, flatMap_cons, flatMap_nil, append_nil]
      exact take_append_piece rows (by omega)
  refine (rounds _ le_rfl).trans ?_
  rw [min_eq_right (le_chunks_mul rows.length tile htile), take_length]

/-- What is in a piece is at a position of the range. -/
theorem exists_of_mem_piece {rows : List α} {lo hi : ℕ} {row : α} (h : row ∈ piece rows lo hi) :
    ∃ i, lo ≤ i ∧ i < hi ∧ rows[i]? = some row := by
  obtain ⟨k, hk⟩ := mem_iff_getElem?.mp h
  rw [piece, getElem?_take, getElem?_drop] at hk
  split at hk
  · exact ⟨lo + k, by omega, by omega, hk⟩
  · cases hk

end Chunks
