import Mathlib.Data.List.Flatten
import Mathlib.Data.List.Induction
import Mathlib.Data.List.Nodup
import Mathlib.Data.List.Pairwise
import Mathlib.Data.List.Perm.Basic

/-!
# Ragged tables

Items are put into rows: by a key, by cutting a list into pieces of one length the last of which may
be shorter, and by reading a table whose rows differ in length column by column. Each way keeps all
items, and none of them twice.
-/

namespace Ragged

open List

variable {α κ : Type}

/-! ### Rows by key -/

section Keys

variable [DecidableEq κ]

/-- Put an item at the end of the row of its key. -/
def addTo (k : κ) (x : α) : List (κ × List α) → List (κ × List α)
  | [] => [(k, [x])]
  | row :: rows => if row.1 = k then (k, row.2 ++ [x]) :: rows else row :: addTo k x rows

/-- The rows stand in the order of the first item of each key. -/
def groupBy (items : List (α × κ)) : List (κ × List α) :=
  items.foldl (fun rows item => addTo item.2 item.1 rows) []

theorem perm_addTo (k : κ) (x : α) (rows : List (κ × List α)) :
    ((addTo k x rows).flatMap Prod.snd).Perm (rows.flatMap Prod.snd ++ [x]) := by
  induction rows with
  | nil => exact .refl _
  | cons row rows ih =>
    rw [addTo, flatMap_cons, append_assoc]
    split
    · rw [flatMap_cons, append_assoc]
      exact perm_append_comm.append_left _
    · rw [flatMap_cons]
      exact ih.append_left _

theorem mem_addTo {k : κ} {x : α} {rows : List (κ × List α)} {row : κ × List α}
    (h : row ∈ addTo k x rows) :
    row ∈ rows ∨ row.1 = k ∧ x ∈ row.2 ∧
      ∀ y ∈ row.2, y = x ∨ ∃ row' ∈ rows, row'.1 = k ∧ y ∈ row'.2 := by
  induction rows with
  | nil =>
    obtain rfl := mem_singleton.mp h
    exact .inr ⟨rfl, mem_cons_self, fun y hy => .inl (mem_singleton.mp hy)⟩
  | cons first rows ih =>
    rw [addTo] at h
    split at h
    · rename_i hkey
      rcases mem_cons.mp h with rfl | hrest
      · refine .inr ⟨rfl, mem_append_right _ mem_cons_self, fun y hy => ?_⟩
        rcases mem_append.mp hy with hold | hnew
        · exact .inr ⟨first, mem_cons_self, hkey, hold⟩
        · exact .inl (mem_singleton.mp hnew)
      · exact .inl (mem_cons_of_mem _ hrest)
    · rcases mem_cons.mp h with rfl | hrest
      · exact .inl mem_cons_self
      · rcases ih hrest with hold | ⟨hk, hx, hitems⟩
        · exact .inl (mem_cons_of_mem _ hold)
        · refine .inr ⟨hk, hx, fun y hy => (hitems y hy).imp_right ?_⟩
          rintro ⟨row', hrow', hfacts⟩
          exact ⟨row', mem_cons_of_mem _ hrow', hfacts⟩

theorem groupBy_append (items : List (α × κ)) (item : α × κ) :
    groupBy (items ++ [item]) = addTo item.2 item.1 (groupBy items) := by
  rw [groupBy, foldl_append]
  rfl

theorem perm_groupBy (items : List (α × κ)) :
    ((groupBy items).flatMap Prod.snd).Perm (items.map Prod.fst) := by
  induction items using List.reverseRecOn with
  | nil => exact .refl _
  | append_singleton items item ih =>
    rw [groupBy_append, map_append]
    exact (perm_addTo _ _ _).trans (ih.append_right _)

/-- No row is empty, and the items of a row have its key. -/
theorem mem_groupBy {items : List (α × κ)} {row : κ × List α} (h : row ∈ groupBy items) :
    row.2 ≠ [] ∧ ∀ x ∈ row.2, (x, row.1) ∈ items := by
  induction items using List.reverseRecOn generalizing row with
  | nil => cases h
  | append_singleton items item ih =>
    rw [groupBy_append] at h
    rcases mem_addTo h with hold | ⟨hk, hx, hitems⟩
    · exact ⟨(ih hold).1, fun x hx => mem_append_left _ ((ih hold).2 x hx)⟩
    · refine ⟨ne_nil_of_mem hx, fun y hy => ?_⟩
      rcases hitems y hy with rfl | ⟨row', hrow', hk', hy'⟩
      · rw [hk]
        exact mem_append_right _ mem_cons_self
      · rw [hk, ← hk']
        exact mem_append_left _ ((ih hrow').2 y hy')

end Keys

/-! ### Pieces of a list -/

/-- The piece at every multiple of the size. -/
def chunks (size : ℕ) (l : List α) : List (List α) :=
  (List.range ((l.length + size - 1) / size)).map fun k => (l.drop (k * size)).take size

theorem mem_chunks {size : ℕ} (hsize : 0 < size) {l piece : List α} (h : piece ∈ chunks size l) :
    piece ≠ [] ∧ piece.length ≤ size := by
  obtain ⟨_, hk, rfl⟩ := mem_map.mp h
  rw [mem_range, Nat.lt_div_iff_mul_lt hsize] at hk
  refine ⟨?_, length_take_le _ _⟩
  rw [← length_pos_iff, List.length_take, length_drop]
  omega

/-- The first pieces are a prefix of the list. -/
theorem flatten_pieces (size n : ℕ) (l : List α) :
    ((List.range n).map fun k => (l.drop (k * size)).take size).flatten = l.take (n * size) := by
  induction n with
  | zero => simp
  | succ n ih =>
    rw [range_succ, map_append, flatten_append, ih, Nat.succ_mul, take_add]
    simp

theorem flatten_chunks {size : ℕ} (hsize : 0 < size) (l : List α) :
    (chunks size l).flatten = l := by
  rw [chunks, flatten_pieces]
  refine take_of_length_le ?_
  have hmod := Nat.mod_lt (l.length + size - 1) hsize
  have hdiv := Nat.div_add_mod (l.length + size - 1) size
  rw [Nat.mul_comm]
  omega

/-! ### Columns -/

/-- The entries at one position, of the rows that are long enough. -/
def column (rows : List (List α)) (i : ℕ) : List α :=
  rows.filterMap fun row => row[i]?

def columns (n : ℕ) (rows : List (List α)) : List (List α) :=
  (List.range n).map (column rows)

variable {rows : List (List α)}

theorem mem_column {i : ℕ} {x : α} : x ∈ column rows i ↔ ∃ row ∈ rows, row[i]? = some x :=
  mem_filterMap

theorem filterMap_range_getElem? {n : ℕ} {row : List α} (h : row.length ≤ n) :
    (List.range n).filterMap (fun i => row[i]?) = row := by
  induction row generalizing n with
  | nil => simp
  | cons x row ih =>
    obtain ⟨m, rfl⟩ : ∃ m, n = m + 1 := ⟨n - 1, by
      rw [length_cons] at h
      omega⟩
    have hfirst : (x :: row)[0]? = some x := rfl
    rw [range_succ_eq_map, filterMap_cons_some hfirst, filterMap_map]
    exact congrArg _ (ih (Nat.le_of_succ_le_succ h))

/-- Enough columns have all entries of the rows. -/
theorem perm_columns {n : ℕ} (h : ∀ row ∈ rows, row.length ≤ n) :
    (columns n rows).flatten.Perm rows.flatten := by
  induction rows with
  | nil => simp [columns, column]
  | cons row rows ih =>
    have hcol : ∀ i, column (row :: rows) i = (row[i]?).toList ++ column rows i := by
      intro i
      cases hget : row[i]? with
      | none => exact filterMap_cons_none hget
      | some x => exact filterMap_cons_some hget
    have hrow : (List.range n).flatMap (fun i => (row[i]?).toList) = row := by
      rw [← filterMap_eq_flatMap_toList]
      exact filterMap_range_getElem? (h row mem_cons_self)
    have hrest := ih fun row' hrow' => h row' (mem_cons_of_mem _ hrow')
    rw [columns, ← flatMap_def] at hrest ⊢
    rw [funext hcol]
    refine (flatMap_append_perm _ _ _).symm.trans ?_
    rw [hrow, flatten_cons]
    exact hrest.append_left _

/-- A column has at most one entry of a row, if no entry occurs twice. -/
theorem eq_of_mem_column (hnodup : rows.flatten.Nodup) {i : ℕ} {x y : α}
    (hx : x ∈ column rows i) (hy : y ∈ column rows i) {row : List α} (hrow : row ∈ rows)
    (hxrow : x ∈ row) (hyrow : y ∈ row) : x = y := by
  have hdisj := (nodup_flatten.mp hnodup).2
  have hsame : ∀ z ∈ column rows i, z ∈ row → row[i]? = some z := by
    intro z hz hzrow
    obtain ⟨row', hrow', hget⟩ := mem_column.mp hz
    by_contra hne
    have hdiff : row ≠ row' := fun h => hne (h ▸ hget)
    have : Std.Symm (List.Disjoint (α := α)) := ⟨fun _ _ h => disjoint_symm h⟩
    exact hdisj.forall hrow hrow' hdiff hzrow (mem_of_getElem? hget)
  exact Option.some.inj ((hsame x hx hxrow).symm.trans (hsame y hy hyrow))

end Ragged
