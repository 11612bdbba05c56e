import Mathlib.Data.List.Nodup
import Mosaic.Table.Segments

/-!
# Stores into one buffer

Programs that run side by side store into one buffer. The buffer at the end does not depend on the
order of the stores if no address is stored to twice. Where every program stores the first entries
of its own row, the buffer is the table of the rows.
-/

namespace Buffer

open List

variable {α : Type}

def write (out : List α) (store : ℕ × α) : List α :=
  out.set store.1 store.2

def writeAll (out : List α) (stores : List (ℕ × α)) : List α :=
  stores.foldl write out

theorem writeAll_append (out : List α) (xs ys : List (ℕ × α)) :
    writeAll out (xs ++ ys) = writeAll (writeAll out xs) ys :=
  foldl_append

theorem length_writeAll (out : List α) (stores : List (ℕ × α)) :
    (writeAll out stores).length = out.length := by
  induction stores generalizing out with
  | nil => rfl
  | cons store stores ih => exact (ih _).trans length_set

theorem writeAll_perm {xs ys : List (ℕ × α)} (h : xs.Perm ys) (hnodup : (xs.map Prod.fst).Nodup)
    (out : List α) : writeAll out xs = writeAll out ys := by
  refine h.foldl_eq' (fun x hx y hy out => ?_) out
  by_cases hsame : x = y
  · rw [hsame]
  · have haddress : x.1 ≠ y.1 := fun heq => hsame (inj_on_of_nodup_map hnodup hx hy heq)
    exact set_comm _ _ haddress

/-! ### Rows -/

/-- The stores of a row, from its first address on. -/
def rowStores (base : ℕ) : List α → List (ℕ × α)
  | [] => []
  | v :: row => (base, v) :: rowStores (base + 1) row

/-- The stores of rows whose first addresses have one distance. -/
def tableStores (width base : ℕ) (rows : List (List α)) : List (ℕ × α) :=
  Ragged.placed (fun _ => width) rowStores base rows

theorem tableStores_cons (width base : ℕ) (row : List α) (rows : List (List α)) :
    tableStores width base (row :: rows) =
      rowStores base row ++ tableStores width (base + width) rows :=
  rfl

theorem length_rowStores (base : ℕ) (row : List α) : (rowStores base row).length = row.length := by
  induction row generalizing base with
  | nil => rfl
  | cons v row ih => rw [rowStores, length_cons, length_cons, ih]

theorem rowStores_append (base : ℕ) (xs ys : List α) :
    rowStores base (xs ++ ys) = rowStores base xs ++ rowStores (base + xs.length) ys := by
  induction xs generalizing base with
  | nil => rfl
  | cons x xs ih =>
    rw [cons_append, rowStores, rowStores, ih, cons_append, length_cons, add_right_comm, add_assoc]

/-- Rows that stand behind each other are one row. -/
theorem placed_rowStores {ρ : Type} {row : ρ → List α} {len : ρ → ℕ} {rs : List ρ}
    (h : ∀ r ∈ rs, (row r).length = len r) (base : ℕ) :
    Ragged.placed len (fun s r => rowStores s (row r)) base rs =
      rowStores base (rs.flatMap row) := by
  induction rs generalizing base with
  | nil => rfl
  | cons r rs ih =>
    rw [Ragged.placed, ih (fun r' hr' => h r' (mem_cons_of_mem _ hr')), flatMap_cons,
      rowStores_append, h r mem_cons_self]

/-- The stores of the positions inside a row, from programs for more positions. -/
theorem flatMap_range_eq_rowStores {n m base : ℕ} (h : n ≤ m) (f : ℕ → α) :
    ((List.range m).flatMap fun pos => if n ≤ pos then [] else [(base + pos, f pos)]) =
      rowStores base ((List.range n).map f) := by
  obtain ⟨extra, rfl⟩ := Nat.exists_eq_add_of_le h
  have hbehind : (List.map (n + ·) (List.range extra)).flatMap
      (fun pos => if n ≤ pos then [] else [(base + pos, f pos)]) = [] := by
    rw [flatMap_eq_nil_iff]
    intro pos hpos
    obtain ⟨j, -, rfl⟩ := mem_map.mp hpos
    exact if_pos (Nat.le_add_right _ _)
  rw [range_add, flatMap_append, hbehind, append_nil]
  have hgo : ∀ k ≤ n, ((List.range k).flatMap fun pos =>
      if n ≤ pos then [] else [(base + pos, f pos)]) = rowStores base ((List.range k).map f) := by
    intro k
    induction k with
    | zero => exact fun _ => rfl
    | succ k ih =>
      intro hk
      rw [range_succ, flatMap_append, ih (Nat.le_of_succ_le hk), flatMap_singleton,
        if_neg (Nat.not_le.mpr hk), map_append, rowStores_append, length_map,
        length_range]
      rfl
  exact hgo n (Nat.le_refl _)

variable {row : List α}

theorem mem_rowStores {base : ℕ} {store : ℕ × α} (h : store ∈ rowStores base row) :
    base ≤ store.1 ∧ store.1 < base + row.length := by
  induction row generalizing base with
  | nil => cases h
  | cons v row ih =>
    rw [length_cons]
    rcases mem_cons.mp h with rfl | hrest
    · exact ⟨Nat.le_refl _, by omega⟩
    · have := ih hrest
      omega

variable {rows : List (List α)}

theorem mem_tableStores {width base : ℕ} {store : ℕ × α}
    (h : store ∈ tableStores width base rows) : base ≤ store.1 := by
  induction rows generalizing base with
  | nil => cases h
  | cons row rows ih =>
    rw [tableStores_cons] at h
    rcases mem_append.mp h with hrow | hrest
    · exact (mem_rowStores hrow).1
    · exact Nat.le_trans (Nat.le_add_right _ _) (ih hrest)

theorem nodup_rowStores (base : ℕ) (row : List α) : ((rowStores base row).map Prod.fst).Nodup := by
  induction row generalizing base with
  | nil => exact .nil
  | cons v row ih =>
    refine nodup_cons.mpr ⟨fun hmem => ?_, ih (base + 1)⟩
    obtain ⟨_, hstore, heq⟩ := mem_map.mp hmem
    have := (mem_rowStores hstore).1
    omega

variable {width : ℕ}

/-- No address is stored to twice if the rows are not longer than the table is wide. -/
theorem nodup_tableStores (h : ∀ row ∈ rows, row.length ≤ width)
    (base : ℕ) : ((tableStores width base rows).map Prod.fst).Nodup := by
  induction rows generalizing base with
  | nil => exact .nil
  | cons row rows ih =>
    rw [tableStores_cons, map_append]
    refine (nodup_rowStores base row).append (ih (fun r hr => h r (mem_cons_of_mem _ hr)) _) ?_
    intro address hrow hrest
    obtain ⟨_, hs, rfl⟩ := mem_map.mp hrow
    obtain ⟨_, ht, heq⟩ := mem_map.mp hrest
    have hbefore := (mem_rowStores hs).2
    have hbehind := mem_tableStores ht
    have hwidth := h row mem_cons_self
    omega

/-- A row of the table is stored to by its own stores only. -/
theorem exists_mem_tableStores {i : ℕ}
    (hpos : 0 < width) (h : ∀ row ∈ rows, row.length ≤ width) (hrow : rows[i]? = some row) (k : ℕ) :
    (∃ store ∈ tableStores width (k * width) rows, store.1 / width = k + i) ↔ row ≠ [] := by
  induction rows generalizing i k with
  | nil => cases hrow
  | cons first rows ih =>
    have hwidth := h first mem_cons_self
    have hnext : k * width + width = (k + 1) * width := (Nat.succ_mul k width).symm
    -- the stores of the first row have its number
    have hnumber : ∀ store ∈ rowStores (k * width) first, store.1 / width = k := by
      intro store hstore
      have hbounds := mem_rowStores hstore
      exact Nat.div_eq_of_lt_le hbounds.1 (by rw [← hnext]; omega)
    rw [tableStores_cons, hnext]
    cases i with
    | zero =>
      obtain rfl := Option.some.inj hrow
      constructor
      · rintro ⟨store, hstore, heq⟩ rfl
        have hlater := mem_tableStores ((mem_append.mp hstore).resolve_left nofun)
        have := (Nat.le_div_iff_mul_le hpos).mpr hlater
        omega
      · intro hne
        cases first with
        | nil => exact absurd rfl hne
        | cons v first =>
          have hmem : (k * width, v) ∈ rowStores (k * width) (v :: first) := mem_cons_self
          exact ⟨_, mem_append_left _ hmem, hnumber _ hmem⟩
    | succ i =>
      rw [← ih (fun row hr => h row (mem_cons_of_mem _ hr)) hrow (k + 1)]
      constructor
      · rintro ⟨store, hstore, heq⟩
        rcases mem_append.mp hstore with hfirst | hrest
        · have := hnumber store hfirst
          omega
        · exact ⟨store, hrest, by omega⟩
      · rintro ⟨store, hstore, heq⟩
        exact ⟨store, mem_append_right _ hstore, by omega⟩

theorem writeAll_rowStores (before after : List α) (h : row.length ≤ after.length) :
    writeAll (before ++ after) (rowStores before.length row) =
      before ++ (row ++ after.drop row.length) := by
  induction row generalizing before after with
  | nil => rfl
  | cons v row ih =>
    cases after with
    | nil => simp at h
    | cons w after =>
      have hstep : write (before ++ w :: after) (before.length, v) = (before ++ [v]) ++ after := by
        rw [write, set_append_right _ _ (Nat.le_refl _), Nat.sub_self, set_cons_zero, append_assoc]
        rfl
      have hrest := ih (before ++ [v]) after (Nat.le_of_succ_le_succ h)
      rw [length_append, length_singleton] at hrest
      rw [rowStores, writeAll, foldl_cons, hstep, ← writeAll, hrest, append_assoc]
      rfl

/-- A buffer that is stored to everywhere. -/
theorem writeAll_perm_rowStores {stores : List (ℕ × α)} {row out : List α}
    (h : stores.Perm (rowStores 0 row)) (hlength : out.length = row.length) :
    writeAll out stores = row := by
  have hnodup : (stores.map Prod.fst).Nodup := (h.map _).nodup_iff.mpr (nodup_rowStores 0 row)
  have hwrite := writeAll_rowStores [] out (Nat.le_of_eq hlength.symm)
  rw [nil_append, length_nil, nil_append, ← hlength, drop_length, append_nil] at hwrite
  rw [writeAll_perm h hnodup, hwrite]

/-- Behind the entries of a row, the buffer keeps what it was filled with. -/
def padRow (width : ℕ) (fill : α) (row : List α) : List α :=
  row ++ List.replicate (width - row.length) fill

theorem length_padRow {fill : α} (h : row.length ≤ width) :
    (padRow width fill row).length = width := by
  rw [padRow, length_append, length_replicate]
  omega

theorem writeAll_tableStores (h : ∀ row ∈ rows, row.length ≤ width) (before : List α) (fill : α) :
    writeAll (before ++ List.replicate (rows.length * width) fill)
        (tableStores width before.length rows) =
      before ++ rows.flatMap (padRow width fill) := by
  induction rows generalizing before with
  | nil => simp [tableStores, Ragged.placed, writeAll]
  | cons row rows ih =>
    have hrow := h row mem_cons_self
    have hrest := ih (fun r hr => h r (mem_cons_of_mem _ hr)) (before ++ padRow width fill row)
    rw [length_append, length_padRow hrow] at hrest
    have hfirst : writeAll (before ++ List.replicate ((row :: rows).length * width) fill)
        (rowStores before.length row) =
        (before ++ padRow width fill row) ++ List.replicate (rows.length * width) fill := by
      have hlen : (row :: rows).length * width = width + rows.length * width := by
        rw [length_cons, Nat.succ_mul, add_comm]
      rw [writeAll_rowStores _ _ (by rw [length_replicate, hlen]; omega), hlen,
        drop_replicate, padRow, append_assoc, append_assoc,
        replicate_append_replicate]
      congr 3
      omega
    rw [tableStores_cons, writeAll_append, hfirst, hrest, flatMap_cons, append_assoc]

/-! ### The buffer as a table -/

def rowsOf (width : ℕ) : ℕ → List α → List (List α)
  | 0, _ => []
  | n + 1, out => out.take width :: rowsOf width n (out.drop width)

theorem rowsOf_flatMap {β : Type} {f : β → List α} {rows : List β}
    (h : ∀ r ∈ rows, (f r).length = width) :
    rowsOf width rows.length (rows.flatMap f) = rows.map f := by
  induction rows with
  | nil => rfl
  | cons row rows ih =>
    have hrow := h row mem_cons_self
    rw [length_cons, rowsOf, flatMap_cons, take_left' hrow, drop_left' hrow,
      ih fun r hr => h r (mem_cons_of_mem _ hr), map_cons]

end Buffer
