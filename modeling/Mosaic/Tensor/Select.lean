import Mathlib.Data.List.Induction
import Mathlib.Data.List.Nodup
import Mathlib.Data.List.Sort
import Mathlib.Data.List.Perm.Subperm
import Mathlib.Order.WithBot

/-!
# Scattered stores and selection of the largest entries

Two operations on vectors: storing values at a list of positions, and selecting the positions
of the `k` largest entries. How ties are broken in a selection is left open.
-/

namespace Tensor

open List

variable {α : Type*}

/-! ### Scattered stores -/

/-- Store `values` at `positions`, one after the other. -/
def scatter (base : List α) (positions : List ℕ) (values : List α) : List α :=
  (positions.zip values).foldl (fun acc entry => acc.set entry.1 entry.2) base

@[simp] theorem scatter_cons (base : List α) (p : ℕ) (positions : List ℕ) (v : α)
    (values : List α) :
    scatter base (p :: positions) (v :: values) = scatter (base.set p v) positions values := rfl

@[simp] theorem length_scatter (base : List α) (positions : List ℕ) (values : List α) :
    (scatter base positions values).length = base.length := by
  induction positions generalizing base values with
  | nil => rfl
  | cons p positions ih =>
    cases values with
    | nil => rfl
    | cons v values => simp [ih]

theorem mem_of_mem_scatter {base : List α} {positions : List ℕ} {values : List α} {v : α}
    (h : v ∈ scatter base positions values) : v ∈ base ∨ v ∈ values := by
  induction positions generalizing base values with
  | nil => exact .inl h
  | cons p positions ih =>
    cases values with
    | nil => exact .inl h
    | cons w values =>
      rcases ih h with hbase | hvalues
      · rcases mem_or_eq_of_mem_set hbase with hbase | rfl
        · exact .inl hbase
        · exact .inr mem_cons_self
      · exact .inr (mem_cons_of_mem _ hvalues)

theorem scatter_getElem?_of_notMem {base : List α} {positions : List ℕ} (values : List α) {j : ℕ}
    (hj : j ∉ positions) : (scatter base positions values)[j]? = base[j]? := by
  induction positions generalizing base values with
  | nil => rfl
  | cons p positions ih =>
    cases values with
    | nil => rfl
    | cons v values =>
      rw [mem_cons, not_or] at hj
      rw [scatter_cons, ih values hj.2, getElem?_set_ne (Ne.symm hj.1)]

theorem scatter_getElem? {base : List α} {positions : List ℕ} {values : List α} {i : ℕ}
    (distinct : positions.Nodup) (hi : i < positions.length)
    (hlen : positions.length = values.length) (inside : ∀ p ∈ positions, p < base.length) :
    (scatter base positions values)[positions[i]]? = values[i]? := by
  induction positions generalizing base values i with
  | nil => simp at hi
  | cons p positions ih =>
    cases values with
    | nil => simp at hlen
    | cons v values =>
      rw [nodup_cons] at distinct
      rw [scatter_cons]
      cases i with
      | zero =>
        rw [getElem_cons_zero, scatter_getElem?_of_notMem values distinct.1,
          getElem?_set_self (inside p (by simp))]
        rfl
      | succ i =>
        apply ih distinct.2
        · simpa using hlen
        · intro q hq
          rw [length_set]
          exact inside q (by simp [hq])

/-! ### The largest entries -/

theorem length_filter_range (xs : List α) (p : α → Bool) :
    ((List.range xs.length).filter fun i => xs[i]?.any p).length = xs.countP p := by
  induction xs using List.reverseRecOn with
  | nil => rfl
  | append_singleton xs x ih =>
    have hold : (List.range xs.length).filter (fun i => (xs ++ [x])[i]?.any p) =
        (List.range xs.length).filter fun i => xs[i]?.any p := by
      apply filter_congr
      intro i hi
      rw [getElem?_append_left (mem_range.mp hi)]
    rw [length_append, length_singleton, range_succ, filter_append,
      length_append, hold, ih, countP_append]
    congr 1
    cases hx : p x <;> simp [hx]

/-- A way to select the positions of the `k` largest entries. -/
structure TopK (α : Type*) [LinearOrder α] where
  select : List α → ℕ → List ℕ
  length_select : ∀ {xs k}, k ≤ xs.length → (select xs k).length = k
  nodup_select : ∀ {xs k}, k ≤ xs.length → (select xs k).Nodup
  lt_length : ∀ {xs k i}, k ≤ xs.length → i ∈ select xs k → i < xs.length
  largest : ∀ {xs k i j a b}, k ≤ xs.length → i ∈ select xs k → j ∉ select xs k →
    xs[i]? = some a → xs[j]? = some b → b ≤ a

namespace TopK

variable [LinearOrder α]

/-- When at least `k` entries exceed the threshold, the `k` largest do. -/
theorem above (topk : TopK α) {xs : List α} {k i : ℕ} {threshold a : α}
    (enough : k ≤ xs.countP (threshold < ·)) (hi : i ∈ topk.select xs k) (ha : xs[i]? = some a) :
    threshold < a := by
  have hk : k ≤ xs.length := enough.trans countP_le_length
  by_contra hle
  -- every entry above the threshold is selected, and so is `i`
  have hsub : (List.range xs.length).filter (fun j => xs[j]?.any (threshold < ·)) ⊆
      (topk.select xs k).erase i := by
    intro j hj
    rw [mem_filter, Option.any_eq_true] at hj
    obtain ⟨_, b, hb, hlt⟩ := hj
    rw [decide_eq_true_eq] at hlt
    have hmem : j ∈ topk.select xs k := by
      by_contra hnot
      exact hle (hlt.trans_le (topk.largest hk hi hnot ha hb))
    rw [(topk.nodup_select hk).mem_erase_iff]
    refine ⟨?_, hmem⟩
    rintro rfl
    rw [ha] at hb
    cases hb
    exact hle hlt
  have hlen := ((nodup_range).filter _).subperm hsub |>.length_le
  rw [length_filter_range, length_erase_of_mem hi, topk.length_select hk] at hlen
  have hpos : 0 < k := by
    rw [← topk.length_select hk]
    exact length_pos_of_mem hi
  omega

/-- The order that puts the positions of larger entries first. -/
def before (xs : List α) (i j : ℕ) : Prop := ∀ b ∈ xs[j]?, ∃ a ∈ xs[i]?, b ≤ a

instance (xs : List α) : DecidableRel (before xs) := fun i j =>
  match hj : xs[j]?, hi : xs[i]? with
  | none, _ => isTrue (by simp [before, hj])
  | some _, none => isFalse (by simp [before, hj, hi])
  | some b, some a => decidable_of_iff (b ≤ a) (by simp [before, hj, hi])

instance (xs : List α) : Std.Total (before xs) where
  total i j := by
    unfold before
    cases hi : xs[i]? with
    | none => simp
    | some a =>
      cases hj : xs[j]? with
      | none => simp
      | some b => simpa using le_total b a

instance (xs : List α) : IsTrans ℕ (before xs) where
  trans i j l hij hjl := by
    intro c hc
    obtain ⟨b, hb, hcb⟩ := hjl c hc
    obtain ⟨a, ha, hba⟩ := hij b hb
    exact ⟨a, ha, hcb.trans hba⟩

/-- Sort the positions by their entries and take the first ones. -/
def ofSort : TopK α where
  select xs k := ((List.range xs.length).insertionSort (before xs)).take k
  length_select := by
    intro xs k hk
    simpa using hk
  nodup_select := by
    intro xs k _
    have hperm := perm_insertionSort (before xs) (List.range xs.length)
    exact (hperm.nodup_iff.mpr nodup_range).sublist (take_sublist _ _)
  lt_length := by
    intro xs k i _ hi
    have hmem := mem_of_mem_take hi
    rw [(perm_insertionSort (before xs) (List.range xs.length)).mem_iff] at hmem
    exact mem_range.mp hmem
  largest := by
    intro xs k i j a b _ hi hj ha hb
    have hsorted := pairwise_insertionSort (before xs) (List.range xs.length)
    have hperm := perm_insertionSort (before xs) (List.range xs.length)
    rw [← take_append_drop k (List.insertionSort (before xs) _), pairwise_append]
      at hsorted
    have hdrop : j ∈ ((List.range xs.length).insertionSort (before xs)).drop k := by
      have hall : j ∈ (List.range xs.length).insertionSort (before xs) := by
        rw [hperm.mem_iff, mem_range]
        exact (List.getElem?_eq_some_iff.mp hb).1
      rw [← take_append_drop k (List.insertionSort (before xs) _), mem_append] at hall
      exact hall.resolve_left hj
    obtain ⟨a', ha', hle⟩ := hsorted.2.2 i hi j hdrop b hb
    rw [ha, Option.mem_some_iff] at ha'
    exact ha' ▸ hle

end TopK

end Tensor
