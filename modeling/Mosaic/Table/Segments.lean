import Mathlib.Algebra.BigOperators.Group.List.Basic
import Mathlib.Algebra.Group.Action.Defs
import Mathlib.Algebra.GroupWithZero.Nat
import Mathlib.Data.List.Flatten
import Mathlib.Data.List.Perm.Basic

/-!
# Ragged tables in one list

The rows of a ragged table stand behind each other in one list. The index arithmetic of such a list
is done on whole arrays: running sums of the lengths, a value repeated once for each entry of a row,
and the positions inside the rows. Each array is the list of its pieces, one for each row, and a
piece is what the row and the place where it starts determine.
-/

namespace Ragged

open List

variable {α β γ ρ : Type}

/-! ### Arrays -/

def cumsumFrom (start : ℕ) : List ℕ → List ℕ
  | [] => []
  | n :: ns => (start + n) :: cumsumFrom (start + n) ns

/-- The sum of the numbers up to each. -/
def cumsum (ns : List ℕ) : List ℕ :=
  cumsumFrom 0 ns

/-- Each value as many times as its number says. -/
def repeatEach (xs : List α) (ns : List ℕ) : List α :=
  (List.zipWith (fun x n => List.replicate n x) xs ns).flatten

/-- The positions inside each row. -/
def aranges (ns : List ℕ) : List ℕ :=
  ns.flatMap List.range

/-- One piece for each row. A piece knows where its row starts. -/
def placed (len : ρ → ℕ) (piece : ℕ → ρ → List β) : ℕ → List ρ → List β
  | _, [] => []
  | start, r :: rs => piece start r ++ placed len piece (start + len r) rs

variable {len : ρ → ℕ} {rs : List ρ}

theorem placed_congr {piece piece' : ℕ → ρ → List β} {start : ℕ}
    (h : ∀ s, ∀ r ∈ rs, piece s r = piece' s r) :
    placed len piece start rs = placed len piece' start rs := by
  induction rs generalizing start with
  | nil => rfl
  | cons r rs ih =>
    rw [placed, placed, h start r mem_cons_self, ih fun s r' hr' =>
      h s r' (mem_cons_of_mem _ hr')]

theorem map_placed (f : β → γ) (len : ρ → ℕ) (piece : ℕ → ρ → List β) (rs : List ρ) (start : ℕ) :
    (placed len piece start rs).map f = placed len (fun s r => (piece s r).map f) start rs := by
  induction rs generalizing start with
  | nil => rfl
  | cons r rs ih => rw [placed, placed, map_append, ih]

theorem placed_map {σ : Type} (f : σ → ρ) (len : ρ → ℕ) (piece : ℕ → ρ → List β) (rs : List σ)
    (start : ℕ) :
    placed len piece start (rs.map f) =
      placed (fun r => len (f r)) (fun s r => piece s (f r)) start rs := by
  induction rs generalizing start with
  | nil => rfl
  | cons r rs ih => rw [map_cons, placed, placed, ih]

/-- Two pieces for each row, those of one kind before the others. -/
theorem placed_append_perm (len : ρ → ℕ) (f g : ℕ → ρ → List β) (rs : List ρ) (start : ℕ) :
    (placed len f start rs ++ placed len g start rs).Perm
      (placed len (fun s r => f s r ++ g s r) start rs) := by
  induction rs generalizing start with
  | nil => exact .refl _
  | cons r rs ih =>
    rw [placed, placed, placed, append_assoc, append_assoc]
    refine .append_left _ ?_
    refine (perm_append_comm_assoc _ _ _).trans ?_
    exact .append_left _ (ih _)

theorem getLast?_cumsumFrom {ns : List ℕ} (hne : ns ≠ []) (start : ℕ) :
    (cumsumFrom start ns).getLast? = some (start + ns.sum) := by
  induction ns generalizing start with
  | nil => exact absurd rfl hne
  | cons n ns ih =>
    rw [cumsumFrom]
    cases ns with
    | nil => simp [cumsumFrom]
    | cons m ms =>
      have hrest := ih (cons_ne_nil m ms) (start + n)
      rw [cumsumFrom] at hrest ⊢
      rw [getLast?_cons_cons, hrest, sum_cons (a := n), add_assoc]

theorem length_repeatEach {xs : List α} {ns : List ℕ} (h : xs.length = ns.length) :
    (repeatEach xs ns).length = ns.sum := by
  induction ns generalizing xs with
  | nil =>
    obtain rfl := length_eq_zero_iff.mp h
    rfl
  | cons n ns ih =>
    obtain ⟨_, xs, rfl⟩ := exists_cons_of_length_eq_add_one h
    have hrest : (repeatEach xs ns).length = ns.sum := ih (Nat.succ.inj h)
    rw [repeatEach, zipWith_cons_cons, flatten_cons, length_append,
      length_replicate, sum_cons, ← hrest, repeatEach]

theorem length_cumsumFrom (ns : List ℕ) (start : ℕ) : (cumsumFrom start ns).length = ns.length := by
  induction ns generalizing start with
  | nil => rfl
  | cons n ns ih => rw [cumsumFrom, length_cons, length_cons, ih]

theorem repeatEach_cons (x : α) (xs : List α) (n : ℕ) (ns : List ℕ) :
    repeatEach (x :: xs) (n :: ns) = List.replicate n x ++ repeatEach xs ns :=
  rfl

theorem zipWith_replicate_range (f : α → ℕ → β) (x : α) (n : ℕ) :
    List.zipWith f (List.replicate n x) (List.range n) = (List.range n).map (f x) := by
  apply ext_getElem
  · simp
  · intro k hk hk'
    simp

theorem cumsumFrom_eq_placed (len : ρ → ℕ) (rs : List ρ) (start : ℕ) :
    cumsumFrom start (rs.map len) = placed len (fun s r => [s + len r]) start rs := by
  induction rs generalizing start with
  | nil => rfl
  | cons r rs ih => rw [map_cons, cumsumFrom, ih, placed, singleton_append]

/-- The running sums, each together with a number of its row. -/
theorem zipWith_cumsumFrom (value : ℕ → β → α) (len : ρ → ℕ) (datum : ρ → β) (rs : List ρ)
    (start : ℕ) :
    List.zipWith value (cumsumFrom start (rs.map len)) (rs.map datum) =
      placed len (fun s r => [value (s + len r) (datum r)]) start rs := by
  induction rs generalizing start with
  | nil => rfl
  | cons r rs ih =>
    rw [map_cons, map_cons, cumsumFrom, zipWith_cons_cons, ih, placed, singleton_append]

/-- From one value for each row and the positions inside the rows. -/
theorem zipWith_repeatEach_aranges (f : α → ℕ → β) (value : ℕ → ρ → α) (len count : ρ → ℕ)
    (rs : List ρ) (start : ℕ) :
    List.zipWith f (repeatEach (placed len (fun s r => [value s r]) start rs) (rs.map count))
        (aranges (rs.map count)) =
      placed len (fun s r => (List.range (count r)).map (f (value s r))) start rs := by
  induction rs generalizing start with
  | nil => rfl
  | cons r rs ih =>
    rw [map_cons, placed, singleton_append, repeatEach_cons, aranges,
      flatMap_cons, zipWith_append (by rw [length_replicate, length_range]),
      zipWith_replicate_range, placed, ← ih, aranges]

/-- The positions inside the rows, from the positions in the list of all rows. -/
theorem zipWith_range_repeatEach (ns : List ℕ) (start : ℕ) :
    List.zipWith (· - ·) (List.range' start ns.sum)
        (repeatEach (List.zipWith (· - ·) (cumsumFrom start ns) ns) ns) = aranges ns := by
  induction ns generalizing start with
  | nil => rfl
  | cons n ns ih =>
    have hfirst : List.zipWith (· - ·) (List.range' start n) (List.replicate n (start + n - n)) =
        List.range n := by
      apply ext_getElem
      · simp
      · intro k hk hk'
        simp
    rw [sum_cons, ← range'_append_1, cumsumFrom, zipWith_cons_cons, repeatEach_cons,
      zipWith_append (by rw [length_range', length_replicate]), hfirst, ih, aranges,
      aranges, flatMap_cons]

/-! ### Reading -/

variable {row : ρ → List α}

/-- A piece of every row is read at indices that count from the start of the row. -/
theorem map_getElem?_placed (from_ count : ρ → ℕ)
    (hlen : ∀ r ∈ rs, (row r).length = len r) (hfits : ∀ r ∈ rs, from_ r + count r ≤ len r)
    (before after : List α) :
    (placed len (fun s r => (List.range (count r)).map fun j => s + from_ r + j)
        before.length rs).map (fun i => (before ++ (rs.flatMap row ++ after))[i]?) =
      (rs.flatMap fun r => ((row r).drop (from_ r)).take (count r)).map some := by
  induction rs generalizing before with
  | nil => rfl
  | cons r rs ih =>
    have hr := hlen r mem_cons_self
    have hcount := hfits r mem_cons_self
    have hrest := ih (fun r' hr' => hlen r' (mem_cons_of_mem _ hr'))
      (fun r' hr' => hfits r' (mem_cons_of_mem _ hr')) (before ++ row r)
    rw [length_append, hr, append_assoc, ← append_assoc (row r), ← flatMap_cons] at hrest
    have hpieces : (r :: rs).flatMap (fun r => ((row r).drop (from_ r)).take (count r)) =
        ((row r).drop (from_ r)).take (count r) ++
          rs.flatMap fun r => ((row r).drop (from_ r)).take (count r) := flatMap_cons
    rw [placed, map_append, hrest, hpieces, map_append, map_map]
    congr 1
    apply ext_getElem
    · simp only [length_map, length_range, List.length_take, length_drop]
      omega
    · intro k hk hk'
      rw [length_map, length_range] at hk
      have hidx : from_ r + k < (row r).length := by omega
      rw [getElem_map, getElem_map, getElem_range, Function.comp_apply,
        add_assoc, getElem?_append_right (Nat.le_add_right _ _), Nat.add_sub_cancel_left,
        flatMap_cons, append_assoc, getElem?_append_left hidx,
        getElem?_eq_getElem hidx, getElem_take, getElem_drop]

/-- Where a row of the list starts. -/
def startOf (len : ρ → ℕ) (rs : List ρ) (i : ℕ) : ℕ :=
  ((rs.take i).map len).sum

/-- An entry of a row. -/
theorem getElem?_flatMap {i k : ℕ} {r : ρ}
    (hlen : ∀ r ∈ rs, (row r).length = len r) (hr : rs[i]? = some r) (hk : k < len r) :
    (rs.flatMap row)[startOf len rs i + k]? = (row r)[k]? := by
  induction rs generalizing i with
  | nil => cases hr
  | cons r' rs ih =>
    have hfirst := hlen r' mem_cons_self
    cases i with
    | zero =>
      cases hr
      rw [startOf, take_zero, map_nil, sum_nil, zero_add, flatMap_cons,
        getElem?_append_left (hfirst ▸ hk)]
    | succ i =>
      have hrest := ih (fun r hr => hlen r (mem_cons_of_mem _ hr)) hr
      rw [startOf, take_succ_cons, map_cons, sum_cons, flatMap_cons,
        add_assoc, ← hfirst, getElem?_append_right (Nat.le_add_right _ _),
        Nat.add_sub_cancel_left, ← startOf, hrest]

/-- The running sum at a row is the end of the row. -/
theorem getElem?_cumsumFrom {i : ℕ} {r : ρ} (hr : rs[i]? = some r) (start : ℕ) :
    (cumsumFrom start (rs.map len))[i]? = some (start + startOf len rs i + len r) := by
  induction rs generalizing i start with
  | nil => cases hr
  | cons r' rs ih =>
    rw [map_cons, cumsumFrom]
    cases i with
    | zero =>
      cases hr
      rfl
    | succ i =>
      rw [getElem?_cons_succ, ih hr, startOf, startOf, take_succ_cons, map_cons,
        sum_cons, add_assoc start]

theorem startOf_succ {i : ℕ} {r : ρ} (hr : rs[i]? = some r) :
    startOf len rs (i + 1) = startOf len rs i + len r := by
  rw [startOf, startOf, take_add_one, hr, Option.toList_some, map_append,
    sum_append, map_singleton, sum_singleton]

/-- One piece for each row, by the numbers of the rows. -/
theorem flatMap_range_eq_placed {piece : ℕ → ρ → List β} {F : ℕ → List β} (start : ℕ)
    (h : ∀ i r, rs[i]? = some r → F i = piece (start + startOf len rs i) r) :
    (List.range rs.length).flatMap F = placed len piece start rs := by
  induction rs generalizing F start with
  | nil => rfl
  | cons r rs ih =>
    have hfirst : F 0 = piece start r := h 0 r rfl
    have hrest := ih (F := F ∘ Nat.succ) (start + len r) fun i r' hr' => by
      have hpiece := h (i + 1) r' hr'
      rw [startOf, take_succ_cons, map_cons, sum_cons, ← add_assoc] at hpiece
      exact hpiece
    rw [length_cons, range_succ_eq_map, flatMap_cons, hfirst, flatMap_map, placed, ← hrest]
    rfl

theorem startOf_const {width i : ℕ} (h : i ≤ rs.length) :
    startOf (fun _ => width) rs i = i * width := by
  rw [startOf, map_const', sum_replicate, List.length_take, Nat.min_eq_left h, smul_eq_mul]

/-- A row of the list. -/
theorem take_drop_flatMap {i : ℕ} {r : ρ}
    (hlen : ∀ r ∈ rs, (row r).length = len r) (hr : rs[i]? = some r) :
    ((rs.flatMap row).drop (startOf len rs i)).take (len r) = row r := by
  induction rs generalizing i with
  | nil => cases hr
  | cons r' rs ih =>
    have hfirst := hlen r' mem_cons_self
    cases i with
    | zero =>
      cases hr
      rw [startOf, take_zero, map_nil, sum_nil, drop_zero, flatMap_cons, take_left' hfirst]
    | succ i =>
      rw [startOf, take_succ_cons, map_cons, sum_cons, flatMap_cons, ← drop_drop, drop_left' hfirst]
      exact ih (fun r hr => hlen r (mem_cons_of_mem _ hr)) hr

end Ragged
