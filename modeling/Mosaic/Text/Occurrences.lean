import Mathlib.Data.List.Basic
import Mathlib.Data.List.Infix

/-!
# First occurrences in a growing text

A word is looked for in a text to which symbols are added at the end. An occurrence stays where it
is, and a new one ends in the part that was added, so a search need not begin before the place where
such an occurrence can start.
-/

namespace Occurrences

open List

variable {α : Type*} {text more sub : List α} {start i : ℕ}

/-- An occurrence lies inside the text. -/
theorem add_length_le (hi : i ≤ text.length) (h : sub <+: text.drop i) :
    i + sub.length ≤ text.length := by
  have := h.length_le
  rw [length_drop] at this
  omega

/-- What was added does not change the occurrences before it. -/
theorem prefix_drop_append (h : i + sub.length ≤ text.length) :
    sub <+: (text ++ more).drop i ↔ sub <+: text.drop i := by
  rw [drop_append_of_le_length (by omega)]
  constructor
  · intro hpre
    exact prefix_of_prefix_length_le hpre (prefix_append _ _) (by
      rw [length_drop]
      omega)
  · exact fun hpre => hpre.trans (prefix_append _ _)

variable [DecidableEq α]

/-- Where the word first occurs in the text, from a place on. -/
def find (text sub : List α) (start : ℕ) : Option ℕ :=
  (List.range' start (text.length + 1 - start)).find? fun i => sub.isPrefixOf (text.drop i)

theorem find_eq_some : find text sub start = some i ↔ start ≤ i ∧ i ≤ text.length ∧
    sub <+: text.drop i ∧ ∀ j, start ≤ j → j < i → ¬ sub <+: text.drop j := by
  unfold find
  rw [find?_range'_eq_some, mem_range'_1]
  simp only [ isPrefixOf_iff_prefix, Bool.not_eq_true', Bool.eq_false_iff, ne_eq]
  constructor
  · rintro ⟨hpre, ⟨hle, hlt⟩, hfirst⟩
    exact ⟨hle, by omega, hpre, hfirst⟩
  · rintro ⟨hle, hlt, hpre, hfirst⟩
    exact ⟨hpre, ⟨hle, by omega⟩, hfirst⟩

theorem find_eq_none : find text sub start = none ↔
    ∀ i, start ≤ i → i ≤ text.length → ¬ sub <+: text.drop i := by
  unfold find
  rw [find?_eq_none]
  simp only [mem_range'_1, isPrefixOf_iff_prefix]
  constructor
  · intro h i hle hlt
    exact h i ⟨hle, by omega⟩
  · rintro h i ⟨hle, hlt⟩
    exact h i hle (by omega)

/-- The first occurrence in an earlier text is the first one in the whole text, if it ends in the
earlier one. -/
theorem find_append_eq_some (more : List α) : find text sub 0 = some i ↔
    find (text ++ more) sub 0 = some i ∧ i + sub.length ≤ text.length := by
  rw [find_eq_some, find_eq_some, length_append]
  constructor
  · rintro ⟨-, hle, hpre, hfirst⟩
    have hend := add_length_le hle hpre
    refine ⟨⟨Nat.zero_le _, by omega, (prefix_drop_append hend).mpr hpre, ?_⟩, hend⟩
    intro j _ hj hearlier
    exact hfirst j (Nat.zero_le _) hj ((prefix_drop_append (by omega)).mp hearlier)
  · rintro ⟨⟨-, -, hpre, hfirst⟩, hend⟩
    refine ⟨Nat.zero_le _, by omega, (prefix_drop_append hend).mp hpre, ?_⟩
    intro j _ hj hearlier
    exact hfirst j (Nat.zero_le _) hj ((prefix_drop_append (by omega)).mpr hearlier)

theorem find_eq_none_of_append (h : find (text ++ more) sub 0 = none) :
    find text sub 0 = none := by
  cases hfind : find text sub 0 with
  | none => rfl
  | some i =>
    rw [((find_append_eq_some more).mp hfind).1] at h
    cases h

/-- When the word did not occur before, an occurrence ends in what was added. -/
theorem find_append_of_none (hne : sub ≠ []) (h : find text sub 0 = none) :
    find (text ++ more) sub (text.length + 1 - sub.length) = find (text ++ more) sub 0 := by
  have hlate : ∀ j, j < text.length + 1 - sub.length → ¬ sub <+: (text ++ more).drop j := by
    intro j hj hpre
    have hpos := length_pos_iff.mpr hne
    exact find_eq_none.mp h j (Nat.zero_le _) (by omega)
      ((prefix_drop_append (by omega)).mp hpre)
  cases hfind : find (text ++ more) sub 0 with
  | none =>
    rw [find_eq_none] at hfind ⊢
    exact fun i _ => hfind i (Nat.zero_le _)
  | some i =>
    rw [find_eq_some] at hfind ⊢
    obtain ⟨-, hle, hpre, hfirst⟩ := hfind
    refine ⟨?_, hle, hpre, fun j _ => hfirst j (Nat.zero_le _)⟩
    by_contra hlt
    exact hlate i (Nat.lt_of_not_le hlt) hpre

end Occurrences
