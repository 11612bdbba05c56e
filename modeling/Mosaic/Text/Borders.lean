import Mathlib.Data.List.Basic
import Mathlib.Data.List.Infix

/-!
# Beginnings of a pattern that end a text

A search that goes over a text once keeps the longest beginning of the pattern that ends the part
of the text it has read. When the next symbol does not continue this beginning, the search falls
back to the next shorter one, which the pattern alone decides.
-/

namespace Borders

open List

variable {α : Type*} {p t : List α} {x : α} {j k n : ℕ}

/-- The first `j` symbols of the pattern end the text, and no more do. -/
structure Longest (p t : List α) (j : ℕ) : Prop where
  le : j ≤ p.length
  ends : p.take j <:+ t
  most : ∀ m ≤ p.length, p.take m <:+ t → m ≤ j

/-- The first `j` symbols of the pattern end the text, and the symbol `x` continues no more than
these. -/
structure Trial (p t : List α) (x : α) (j : ℕ) : Prop where
  le : j ≤ p.length
  ends : p.take j <:+ t
  most : ∀ m, p[m]? = some x → p.take m <:+ t → m ≤ j

/-- The entry of `j` is the longest proper beginning that ends the first `j + 1` symbols, for the
entries before `n`. -/
def IsTable (p : List α) (n : ℕ) (table : List ℕ) : Prop :=
  ∀ j < n, ∃ k, table[j]? = some k ∧ Longest p (p.take (j + 1)).tail k

/-- One more symbol of the pattern ends the text with one more symbol. -/
theorem take_succ_suffix_iff (hj : j < p.length) :
    p.take (j + 1) <:+ t ++ [x] ↔ p[j]? = some x ∧ p.take j <:+ t := by
  rw [take_succ_eq_append_getElem hj, getElem?_eq_getElem hj, Option.some_inj]
  constructor
  · rintro ⟨rest, hrest⟩
    rw [← append_assoc] at hrest
    obtain ⟨hinit, hlast⟩ := append_inj' hrest rfl
    exact ⟨(List.cons.inj hlast).1, rest, hinit⟩
  · rintro ⟨rfl, rest, rfl⟩
    exact ⟨rest, (append_assoc ..).symm⟩

theorem longest_nil (p : List α) : Longest p [] 0 where
  le := Nat.zero_le _
  ends := nil_suffix
  most m hm h := by
    have hlength := h.length_le
    rw [List.length_take, Nat.min_eq_left hm] at hlength
    exact hlength

/-- A beginning that ends the text is not longer than the text. -/
theorem Longest.le_length (h : Longest p t j) : j ≤ t.length := by
  have hlen := h.ends.length_le
  rwa [List.length_take, min_eq_left h.le] at hlen

theorem Longest.trial (h : Longest p t j) (x : α) : Trial p t x j where
  le := h.le
  ends := h.ends
  most m hx hm := h.most m (le_of_lt (List.getElem?_eq_some_iff.mp hx).1) hm

/-- The whole pattern ends the text exactly when the longest beginning is the whole pattern. -/
theorem Longest.suffix_iff (h : Longest p t j) : p <:+ t ↔ j = p.length := by
  constructor
  · intro hp
    rw [← take_length (l := p)] at hp
    exact le_antisymm h.le (h.most p.length le_rfl hp)
  · rintro rfl
    have hends := h.ends
    rwa [take_length] at hends

namespace Trial

/-- The symbol continues the beginning. -/
theorem advance (h : Trial p t x j) (hx : p[j]? = some x) : Longest p (t ++ [x]) (j + 1) where
  le := (List.getElem?_eq_some_iff.mp hx).1
  ends := (take_succ_suffix_iff (List.getElem?_eq_some_iff.mp hx).1).mpr ⟨hx, h.ends⟩
  most m hm hends := by
    cases m with
    | zero => exact Nat.zero_le _
    | succ m =>
      obtain ⟨hnext, hsuffix⟩ := (take_succ_suffix_iff hm).mp hends
      exact Nat.succ_le_succ (h.most m hnext hsuffix)

/-- The symbol continues no beginning. -/
theorem restart (h : Trial p t x 0) (hx : p[0]? ≠ some x) : Longest p (t ++ [x]) 0 where
  le := Nat.zero_le _
  ends := by
    rw [take_zero]
    exact nil_suffix
  most m hm hends := by
    cases m with
    | zero => exact le_rfl
    | succ m =>
      obtain ⟨hnext, hsuffix⟩ := (take_succ_suffix_iff hm).mp hends
      obtain rfl := Nat.le_zero.mp (h.most m hnext hsuffix)
      exact absurd hnext hx

/-- The symbol does not continue the beginning, but perhaps the longest that ends it. -/
theorem fallBack (h : Trial p t x j) (hx : p[j]? ≠ some x)
    (hk : Longest p (p.take j).tail k) : Trial p t x k where
  le := hk.le
  ends := (hk.ends.trans (tail_suffix _)).trans h.ends
  most m hnext hends := by
    have hm := (List.getElem?_eq_some_iff.mp hnext).1
    have hle := h.most m hnext hends
    have hne : m ≠ j := by
      rintro rfl
      exact hx hnext
    have hlen : (p.take m).length ≤ (p.take j).tail.length := by
      rw [length_tail, List.length_take, List.length_take]
      omega
    -- both end the text, and one is shorter
    refine hk.most m hm.le (suffix_of_suffix_length_le hends ?_ hlen)
    exact (tail_suffix _).trans h.ends

end Trial

/-- An entry of the table is below its position. -/
theorem Longest.le_of_tail (hk : Longest p (p.take (j + 1)).tail k) : k ≤ j := by
  have hle := hk.le_length
  rw [length_tail, List.length_take] at hle
  omega

/-- One more entry. -/
theorem IsTable.succ {table : List ℕ} (h : IsTable p n table)
    (hlen : n < table.length) (hk : Longest p (p.take (n + 1)).tail k) :
    IsTable p (n + 1) (table.set n k) := by
  intro j hj
  rcases Nat.lt_succ_iff_lt_or_eq.mp hj with hlt | rfl
  · obtain ⟨k', hk', hlongest⟩ := h j hlt
    refine ⟨k', ?_, hlongest⟩
    rw [getElem?_set_ne (ne_of_gt hlt)]
    exact hk'
  · exact ⟨k, getElem?_set_self hlen, hk⟩

end Borders
