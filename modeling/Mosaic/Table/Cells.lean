import Mosaic.Control.Fallible
import Mosaic.Table.Segments

/-!
# Arrays over the cells of ragged rows

Each row has a number of cells. The cells of all rows stand in one list, row by row, and an array
that has one entry for each of them is a map over this list. So arithmetic on such arrays is done
cell by cell, and the operations that lead from one value for each row to one for each cell, that
assign under a mask or at computed indices, or that cut a list into rows of one length, are maps
over cells too.
-/

namespace Ragged

open List Function

variable {α β ρ : Type}

/-- The cells of the rows: a row, and a position in it. -/
def cells (count : ρ → ℕ) (rs : List ρ) : List (ρ × ℕ) :=
  rs.flatMap fun r => (List.range (count r)).map (r, ·)

variable {count : ρ → ℕ} {rs : List ρ}

theorem cells_cons (count : ρ → ℕ) (r : ρ) (rs : List ρ) :
    cells count (r :: rs) = (List.range (count r)).map (r, ·) ++ cells count rs :=
  flatMap_cons

theorem mem_cells {e : ρ × ℕ} : e ∈ cells count rs ↔ e.1 ∈ rs ∧ e.2 < count e.1 := by
  unfold cells
  rw [mem_flatMap]
  constructor
  · rintro ⟨_, hr, he⟩
    obtain ⟨_, hj, rfl⟩ := mem_map.mp he
    exact ⟨hr, mem_range.mp hj⟩
  · rintro ⟨hr, hlt⟩
    exact ⟨e.1, hr, mem_map.mpr ⟨e.2, mem_range.mpr hlt, rfl⟩⟩

theorem length_cells (count : ρ → ℕ) (rs : List ρ) :
    (cells count rs).length = (rs.map count).sum := by
  induction rs with
  | nil => rfl
  | cons r rs ih =>
    rw [cells_cons, length_append, length_map, length_range, ih, map_cons, sum_cons]

/-! ### From rows to cells -/

theorem repeatEach_map (value : ρ → α) (count : ρ → ℕ) (rs : List ρ) :
    repeatEach (rs.map value) (rs.map count) = (cells count rs).map fun e => value e.1 := by
  induction rs with
  | nil => rfl
  | cons r rs ih =>
    rw [map_cons, map_cons, repeatEach_cons, ih, cells_cons, map_append, map_map]
    congr 1
    simp [comp_def]

theorem aranges_map (count : ρ → ℕ) (rs : List ρ) :
    aranges (rs.map count) = (cells count rs).map Prod.snd := by
  induction rs with
  | nil => rfl
  | cons r rs ih =>
    rw [map_cons, aranges, flatMap_cons, ← aranges, ih, cells_cons, map_append, map_map]
    congr 1
    exact (map_id _).symm

/-- Each cell repeated, from the rows with as many repetitions. -/
theorem cells_mul (value : ρ → α) (count : ρ → ℕ) (width : ℕ) (rs : List ρ) :
    (cells (fun r => count r * width) rs).map (fun e => value e.1) =
      (cells count rs).flatMap fun e => List.replicate width (value e.1) := by
  have hrow : ∀ (x : α) (n : ℕ),
      (List.range n).flatMap (fun _ => List.replicate width x) = List.replicate (n * width) x := by
    intro x n
    induction n with
    | zero => rw [Nat.zero_mul]; rfl
    | succ n ih =>
      rw [range_succ, flatMap_append, ih, flatMap_singleton,
        replicate_append_replicate, Nat.succ_mul]
  induction rs with
  | nil => rfl
  | cons r rs ih =>
    rw [cells_cons, cells_cons, map_append, flatMap_append, ih, map_map, flatMap_map]
    congr 1
    exact (by simp [comp_def] : _ = List.replicate (count r * width) (value r)).trans
      (hrow _ _).symm

/-- Ranges that follow each other, from the bound `g 0` on, are one range. -/
theorem flatMap_range' {first len : ℕ → ℕ} (g : ℕ → ℕ) {n : ℕ}
    (h : ∀ j < n, first j = g j ∧ first j + len j = g (j + 1)) :
    g 0 ≤ g n ∧ (List.range n).flatMap (fun j => List.range' (first j) (len j)) =
      List.range' (g 0) (g n - g 0) := by
  induction n with
  | zero =>
    refine ⟨Nat.le_refl _, ?_⟩
    rw [Nat.sub_self]
    rfl
  | succ n ih =>
    obtain ⟨hle, hflat⟩ := ih fun j hj => h j (Nat.lt_succ_of_lt hj)
    obtain ⟨hfirst, hnext⟩ := h n (Nat.lt_succ_self n)
    refine ⟨by omega, ?_⟩
    have hjoin : List.range' (g 0) (g n - g 0) ++ List.range' (g 0 + (g n - g 0)) (len n) = _ :=
      range'_append_1
    rw [range_succ, flatMap_append, hflat, flatMap_singleton, hfirst]
    rw [show g 0 + (g n - g 0) = g n from by omega] at hjoin
    rw [hjoin]
    congr 1
    omega

/-- A number of repetitions, which may not be negative. -/
def repetitions (n : ℤ) : Option ℕ :=
  if n < 0 then none else some n.toNat

theorem mapM_repetitions_natCast (ns : List ℕ) :
    (ns.map ((↑) : ℕ → ℤ)).mapM repetitions = some ns := by
  induction ns with
  | nil => rfl
  | cons n ns ih =>
    rw [map_cons, mapM_cons, ih, repetitions, if_neg (Int.not_lt.mpr (Int.natCast_nonneg n))]
    rfl

/-! ### Masks -/

/-- `xs[mask]` -/
def selectWhere : List Bool → List α → List α
  | true :: mask, x :: xs => x :: selectWhere mask xs
  | false :: mask, _ :: xs => selectWhere mask xs
  | _, _ => []

/-- `xs[mask] = ys`, with one new value for each entry that is set in the mask. -/
def assignWhere : List Bool → List α → List α → Option (List α)
  | true :: mask, _ :: xs, y :: ys => (assignWhere mask xs ys).map (y :: ·)
  | false :: mask, x :: xs, ys => (assignWhere mask xs ys).map (x :: ·)
  | [], [], [] => some []
  | _, _, _ => none

theorem assignWhere_selectWhere (p : β → Bool) (f g : β → α) (es : List β) :
    assignWhere (es.map p) (es.map f) (selectWhere (es.map p) (es.map g)) =
      some (es.map fun e => if p e then g e else f e) := by
  induction es with
  | nil => rfl
  | cons e es ih =>
    rw [map_cons, map_cons, map_cons, map_cons]
    cases p e with
    | true => rw [selectWhere, assignWhere, ih]; rfl
    | false => rw [selectWhere, assignWhere, ih]; rfl

theorem assignWhere_append_false {mask : List Bool} {xs ys : List α} (before : List β)
    (p : β → Bool) (f : β → α) (hp : ∀ e ∈ before, p e = false) :
    assignWhere (before.map p ++ mask) (before.map f ++ xs) ys =
      (assignWhere mask xs ys).map (before.map f ++ ·) := by
  induction before with
  | nil => exact Option.map_id'.symm
  | cons e before ih =>
    rw [map_cons, map_cons, cons_append, cons_append,
      hp e mem_cons_self, assignWhere, ih fun e' he' => hp e' (mem_cons_of_mem _ he'),
      Option.map_map]
    rfl

/-- One new value for each row, put into its first cell. -/
theorem assignWhere_first (count : ρ → ℕ) (rs : List ρ) (value : ρ → α) (f : ρ × ℕ → α)
    (hpos : ∀ r ∈ rs, 0 < count r) :
    assignWhere ((cells count rs).map fun e => e.2 == 0) ((cells count rs).map f)
        (rs.map value) =
      some ((cells count rs).map fun e => if e.2 = 0 then value e.1 else f e) := by
  induction rs with
  | nil => rfl
  | cons r rs ih =>
    obtain ⟨_, hn⟩ := Nat.exists_eq_add_of_lt (hpos r mem_cons_self)
    rw [zero_add] at hn
    rw [cells_cons, hn, range_succ_eq_map, map_cons, map_map, cons_append,
      map_cons, map_cons, map_cons, map_append, map_append,
      beq_self_eq_true,
      assignWhere, assignWhere_append_false _ _ _ (by simp),
      ih fun r' hr' => hpos r' (mem_cons_of_mem _ hr')]
    simp [comp_def]

/-! ### Computed indices -/

/-- Where an index points, which counts from the end when it is negative. -/
def position (len : ℕ) (i : ℤ) : Option ℕ :=
  if 0 ≤ i ∧ i < len then some i.toNat
  else if -(len : ℤ) ≤ i ∧ i < 0 then some (i + len).toNat
  else none

theorem position_natCast {len i : ℕ} (h : i < len) : position len i = some i := by
  unfold position
  rw [if_pos ⟨Int.natCast_nonneg i, Int.ofNat_lt.mpr h⟩, Int.toNat_natCast]

/-- `xs[i]`, where a negative index counts from the end -/
def itemAt (xs : List α) (i : ℤ) : Option α :=
  (position xs.length i).bind (xs[·]?)

theorem itemAt_natCast {xs : List α} {i : ℕ} {x : α} (h : xs[i]? = some x) :
    itemAt xs i = some x := by
  obtain ⟨hlt, -⟩ := List.getElem?_eq_some_iff.mp h
  unfold itemAt
  rw [position_natCast hlt, Option.bind_some, h]

theorem mapM_itemAt_natCast {xs ys : List α} {indices : List ℕ}
    (h : indices.map (fun i => xs[i]?) = ys.map some) :
    (indices.map Nat.cast).mapM (itemAt xs) = some ys := by
  induction indices generalizing ys with
  | nil =>
    obtain rfl := map_eq_nil_iff.mp h.symm
    rfl
  | cons i indices ih =>
    cases ys with
    | nil => cases h
    | cons y ys =>
      obtain ⟨hfirst, hrest⟩ := List.cons.inj h
      rw [map_cons, mapM_cons, itemAt_natCast hfirst, ih hrest]
      rfl

/-- `xs[indices] = ys` -/
def scatter (xs : List α) : List ℤ → List α → Option (List α)
  | i :: indices, y :: ys => (position xs.length i).bind fun k => scatter (xs.set k y) indices ys
  | [], [] => some xs
  | _, _ => none

theorem set_append_last {xs ys : List α} {x : α} (y : α) {k : ℕ} (hk : k = xs.length) :
    (xs ++ x :: ys).set k y = xs ++ y :: ys := by
  rw [hk, set_append_right _ _ (Nat.le_refl _), Nat.sub_self, set_cons_zero]

/-- The last cell of a row stands between the others of the row and the rows that follow. -/
theorem map_cells_cons_last (f : ρ × ℕ → α) {r : ρ} {n : ℕ} (hn : count r = n + 1) :
    (cells count (r :: rs)).map f =
      (List.range n).map (fun j => f (r, j)) ++ f (r, n) :: (cells count rs).map f := by
  rw [cells_cons, hn, range_succ, map_append, map_append, map_append, map_map, append_assoc]
  rfl

theorem scatter_last_append (value : ρ → α) (f : ρ × ℕ → α) (hpos : ∀ r ∈ rs, 0 < count r)
    (before : List α) :
    scatter (before ++ (cells count rs).map f)
        ((cumsumFrom before.length (rs.map count)).map fun n : ℕ => (n : ℤ) - 1) (rs.map value) =
      some (before ++ (cells count rs).map fun e =>
        if e.2 + 1 = count e.1 then value e.1 else f e) := by
  induction rs generalizing before with
  | nil => rfl
  | cons r rs ih =>
    obtain ⟨n, hn⟩ := Nat.exists_eq_add_of_lt (hpos r mem_cons_self)
    rw [zero_add] at hn
    -- the running sum of the row points behind its last cell
    have hidx : ((before.length + count r : ℕ) : ℤ) - 1 = ((before.length + n : ℕ) : ℤ) := by
      omega
    have hrow : (List.range n).map (fun j => if j + 1 = count r then value r else f (r, j)) =
        (List.range n).map fun j => f (r, j) := by
      apply map_congr_left
      intro j hj
      have := mem_range.mp hj
      rw [if_neg (by omega)]
    have hrest := ih (fun r' hr' => hpos r' (mem_cons_of_mem _ hr'))
      (before ++ (List.range n).map (fun j => f (r, j)) ++ [value r])
    have hlength : (before ++ (List.range n).map (fun j => f (r, j)) ++ [value r]).length =
        before.length + count r := by
      simp only [length_append, length_map, length_range, length_singleton]
      omega
    rw [hlength, append_assoc _ [value r]] at hrest
    rw [map_cells_cons_last _ hn, map_cells_cons_last _ hn, map_cons, map_cons,
      cumsumFrom, map_cons, scatter, hidx, ← append_assoc,
      position_natCast (by simp), Option.bind_some,
      set_append_last _ (by simp)]
    refine hrest.trans ?_
    rw [hrow, if_pos hn.symm, append_assoc, append_assoc]
    rfl

/-- One new value for each row, put into its last cell, which is where the running sum of the
numbers of cells points. -/
theorem scatter_last (count : ρ → ℕ) (rs : List ρ) (value : ρ → α) (f : ρ × ℕ → α)
    (hpos : ∀ r ∈ rs, 0 < count r) :
    scatter ((cells count rs).map f)
        ((cumsum (rs.map count)).map fun n : ℕ => (n : ℤ) - 1) (rs.map value) =
      some ((cells count rs).map fun e => if e.2 + 1 = count e.1 then value e.1 else f e) :=
  scatter_last_append value f hpos []

/-! ### Tables -/

/-- `xs.view(rows, -1)` -/
def view (rows : ℕ) (xs : List α) : List (List α) :=
  (List.range rows).map fun i => (xs.drop (i * (xs.length / rows))).take (xs.length / rows)

theorem zip_flatMap {γ : Type} {f : γ → List α} {g : γ → List β} {es : List γ}
    (h : ∀ e ∈ es, (f e).length = (g e).length) :
    (es.flatMap f).zip (es.flatMap g) = es.flatMap fun e => (f e).zip (g e) := by
  induction es with
  | nil => rfl
  | cons e es ih =>
    rw [flatMap_cons, flatMap_cons, flatMap_cons,
      zip_append (h e mem_cons_self), ih fun e' he' => h e' (mem_cons_of_mem _ he')]

/-- A table whose rows have one length is cut into its rows. -/
theorem view_flatMap (row : β → List α) {width : ℕ} {es : List β} (hes : es ≠ [])
    (hrow : ∀ e ∈ es, (row e).length = width) :
    view es.length (es.flatMap row) = es.map row := by
  have hlen : (es.flatMap row).length = es.length * width := by
    rw [length_flatMap, map_congr_left hrow, map_const', sum_replicate_nat]
  have hwidth : (es.flatMap row).length / es.length = width := by
    rw [hlen, Nat.mul_div_cancel_left _ (length_pos_iff.mpr hes)]
  unfold view
  rw [hwidth]
  apply ext_getElem
  · rw [length_map, length_range, length_map]
  · intro i hi hi'
    rw [length_map] at hi'
    rw [getElem_map, getElem_map, getElem_range, ← startOf_const (Nat.le_of_lt hi')]
    exact take_drop_flatMap hrow (getElem?_eq_getElem hi')

end Ragged
