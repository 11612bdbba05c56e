import Mathlib.Data.Set.Card

/-!
# Holders of a shared item

Tables that share items. The holders of an item are the tables that contain it, and a reference
count is right if it is their number. Changing one table changes the number by what that table
loses and gains.
-/

namespace Tables

open List Function

variable {ι α : Type*}

/-- The tables that contain an item. -/
def holders (t : ι → List α) (a : α) : Set ι := {x | a ∈ t x}

/-- The number of tables that contain an item. -/
noncomputable def numHolders (t : ι → List α) (a : α) : ℕ := (holders t a).ncard

/-- Only finitely many tables are not empty. -/
def FinitelyMany (t : ι → List α) : Prop := {x | t x ≠ []}.Finite

/-! ### Positions -/

/-- Positions of the elements with a property are determined by the elements. -/
theorem nodup_filter_of_getElem? {P : α → Prop} [DecidablePred P] {l : List α}
    (h : ∀ (i j : ℕ) (a : α), l[i]? = some a → l[j]? = some a → P a → i = j) :
    (l.filter P).Nodup := by
  induction l with
  | nil => exact nodup_nil
  | cons a l ih =>
    have hrest : (l.filter P).Nodup := by
      refine ih fun i j b hi hj hb => ?_
      have := h (i + 1) (j + 1) b (by simpa using hi) (by simpa using hj) hb
      omega
    by_cases ha : P a
    · rw [filter_cons_of_pos (by simpa using ha), nodup_cons]
      refine ⟨?_, hrest⟩
      intro hmem
      obtain ⟨i, hi⟩ := mem_iff_getElem?.mp (mem_filter.mp hmem).1
      have := h 0 (i + 1) a rfl (by simpa using hi) ha
      omega
    · rwa [filter_cons_of_neg (by simpa using ha)]

theorem getElem?_inj_of_nodup_filter {P : α → Prop} [DecidablePred P] {l : List α}
    (h : (l.filter P).Nodup) {i j : ℕ} {a : α} (hi : l[i]? = some a) (hj : l[j]? = some a)
    (ha : P a) : i = j := by
  induction l generalizing i j with
  | nil => cases hi
  | cons b l ih =>
    have hrest : (l.filter P).Nodup := h.sublist ((sublist_cons_self b l).filter _)
    have hhead : b = a → a ∉ l := by
      rintro rfl hmem
      rw [filter_cons_of_pos (by simpa using ha), nodup_cons] at h
      exact h.1 (mem_filter.mpr ⟨hmem, by simpa using ha⟩)
    cases i with
    | zero =>
      cases j with
      | zero => rfl
      | succ j =>
        exact absurd (mem_of_getElem? (by simpa using hj)) (hhead (by simpa using hi))
    | succ i =>
      cases j with
      | zero => exact absurd (mem_of_getElem? (by simpa using hi)) (hhead (by simpa using hj))
      | succ j =>
        have := ih hrest (by simpa using hi) (by simpa using hj)
        omega

/-! ### Counting -/

variable {t : ι → List α} {a : α}

theorem mem_holders {x : ι} : x ∈ holders t a ↔ a ∈ t x := Iff.rfl

theorem FinitelyMany.holders (h : FinitelyMany t) (a : α) : (holders t a).Finite :=
  h.subset fun _ hx => ne_nil_of_mem hx

variable {t' : ι → List α}

theorem finitelyMany_of_subset (h : FinitelyMany t) {xs : Set ι}
    (hxs : xs.Finite) (hsub : ∀ x ∉ xs, t' x = t x) : FinitelyMany t' := by
  apply (h.union hxs).subset
  intro x hx
  by_cases hmem : x ∈ xs
  · exact .inr hmem
  · left
    rw [Set.mem_ofPred_eq, hsub x hmem] at hx
    exact hx

theorem numHolders_eq_zero_iff (h : FinitelyMany t) : numHolders t a = 0 ↔ ∀ x, a ∉ t x := by
  rw [numHolders, Set.ncard_eq_zero (h.holders a), Set.eq_empty_iff_forall_notMem]
  rfl

theorem numHolders_pos_iff (h : FinitelyMany t) : 0 < numHolders t a ↔ ∃ x, a ∈ t x := by
  rw [numHolders, Set.ncard_pos (h.holders a)]
  rfl

theorem numHolders_pos (h : FinitelyMany t) {x : ι} (hx : a ∈ t x) : 0 < numHolders t a :=
  (numHolders_pos_iff h).mpr ⟨x, hx⟩

/-- An item with at most one holder is in at most one table. -/
theorem eq_of_numHolders_le_one (h : FinitelyMany t) (hone : numHolders t a ≤ 1) {x y : ι}
    (hx : a ∈ t x) (hy : a ∈ t y) : x = y :=
  (Set.ncard_le_one (h.holders a)).mp hone x hx y hy

theorem numHolders_congr (h : ∀ x, a ∈ t' x ↔ a ∈ t x) : numHolders t' a = numHolders t a := by
  unfold numHolders
  congr 1
  ext x
  exact h x

/-- One table gains the item, and nothing else changes for it. -/
theorem numHolders_of_insert (h : FinitelyMany t) {x : ι} (hnew : a ∉ t x)
    (hmem : a ∈ t' x) (hothers : ∀ y, y ≠ x → (a ∈ t' y ↔ a ∈ t y)) :
    numHolders t' a = numHolders t a + 1 := by
  have hinsert : holders t' a = insert x (holders t a) := by
    ext y
    rw [Set.mem_insert_iff, mem_holders, mem_holders]
    by_cases hy : y = x
    · simp [hy, hmem]
    · simp [hy, hothers y hy]
  have hnotMem : x ∉ holders t a := hnew
  rw [numHolders, hinsert, Set.ncard_insert_of_notMem hnotMem (h.holders a)]
  rfl

/-- One table loses the item, and nothing else changes for it. -/
theorem numHolders_of_erase (h : FinitelyMany t) {x : ι} (hold : a ∈ t x)
    (hgone : a ∉ t' x) (hothers : ∀ y, y ≠ x → (a ∈ t' y ↔ a ∈ t y)) :
    numHolders t' a + 1 = numHolders t a := by
  have hdiff : holders t' a = holders t a \ {x} := by
    ext y
    rw [Set.mem_sdiff, Set.mem_singleton_iff, mem_holders, mem_holders]
    by_cases hy : y = x
    · simp [hy, hgone]
    · simp [hy, hothers y hy]
  rw [numHolders, hdiff]
  exact Set.ncard_sdiff_singleton_add_one hold (h.holders a)

variable [DecidableEq ι]

theorem FinitelyMany.update (h : FinitelyMany t) (x : ι) (l : List α) :
    FinitelyMany (update t x l) :=
  finitelyMany_of_subset h (Set.finite_singleton x) fun _ hy =>
    update_of_ne (Set.mem_singleton_iff.not.mp hy) l t

/-- The number of holders after one table has changed. -/
theorem numHolders_update [DecidableEq α] (h : FinitelyMany t) (x : ι) (l : List α) (a : α) :
    (numHolders (update t x l) a : ℤ) =
      numHolders t a - (if a ∈ t x then 1 else 0) + if a ∈ l then 1 else 0 := by
  have hothers : ∀ y, y ≠ x → (a ∈ update t x l y ↔ a ∈ t y) := by
    intro y hy
    rw [update_of_ne hy]
  have hsame : (a ∈ t x ↔ a ∈ l) → numHolders (update t x l) a = numHolders t a := by
    intro hiff
    apply numHolders_congr
    intro y
    by_cases hy : y = x
    · rw [hy, update_self, hiff]
    · exact hothers y hy
  by_cases hold : a ∈ t x <;> by_cases hnew : a ∈ l
  · rw [hsame (iff_of_true hold hnew)]
    simp [hold, hnew]
  · have := numHolders_of_erase h hold (by simpa using hnew) hothers
    simp only [hold, hnew, if_true, if_false]
    omega
  · have := numHolders_of_insert h hold (by simpa using hnew) hothers
    simp only [hold, hnew, if_true, if_false]
    omega
  · rw [hsame (iff_of_false hold hnew)]
    simp [hold, hnew]

end Tables
