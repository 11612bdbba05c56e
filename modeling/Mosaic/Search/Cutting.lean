import Mathlib.Order.Lattice
import Mathlib.Order.Defs.LinearOrder
import Mathlib.Tactic.Common

/-!
# Cutting bottlenecks

Two parts can be cut into pieces, a third part is fixed. As long as a part that can be cut costs
more than anything else, it gets one more piece. Costs may depend on the number of pieces in any
way; what is known about them decides whether the cutting comes to an end.
-/

namespace Cutting

/-- What the fixed part costs, and what the others cost in a number of pieces. -/
structure Costs (α : Type*) where
  fixed : α
  first : ℕ → α
  second : ℕ → α

namespace Costs

variable {α : Type*} [LinearOrder α] (c : Costs α)

/-- One more piece for the most expensive part, nothing if that is the fixed part. The second part
comes first where both cost the same. -/
def cut (counts : ℕ × ℕ) : Option (ℕ × ℕ) :=
  let bottleneck := max (max c.fixed (c.first counts.1)) (c.second counts.2)
  if bottleneck = c.second counts.2 ∧ c.fixed < c.second counts.2 then
    some (counts.1, counts.2 + 1)
  else if bottleneck = c.first counts.1 ∧ c.fixed < c.first counts.1 then
    some (counts.1 + 1, counts.2)
  else none

/-- The numbers of pieces after `n` cuts, from one piece each. -/
def path : ℕ → Option (ℕ × ℕ)
  | 0 => some (1, 1)
  | n + 1 => (path n).bind c.cut

variable {c} {a b n : ℕ} {counts counts' : ℕ × ℕ}

theorem path_succ : c.path (n + 1) = (c.path n).bind c.cut := rfl

/-- A cut is made where the cost exceeds that of the fixed part. -/
theorem cut_cases (h : c.cut (a, b) = some counts) :
    (counts = (a, b + 1) ∧ c.fixed < c.second b ∧ c.first a ≤ c.second b) ∨
      (counts = (a + 1, b) ∧ c.fixed < c.first a ∧ c.second b < c.first a) := by
  unfold cut at h
  dsimp only at h
  split at h
  · rename_i hsecond
    refine .inl ⟨(Option.some.inj h).symm, hsecond.2, ?_⟩
    rw [← hsecond.1]
    exact (le_max_right _ _).trans (le_max_left _ _)
  · rename_i hnot
    split at h
    · rename_i hfirst
      have hle : c.second b ≤ c.first a := by
        rw [← hfirst.1]
        exact le_max_right _ _
      refine .inr ⟨(Option.some.inj h).symm, hfirst.2, lt_of_le_of_ne hle fun heq => hnot ?_⟩
      exact ⟨hfirst.1.trans heq.symm, heq ▸ hfirst.2⟩
    · cases h

theorem cut_eq_second (hfixed : c.fixed < c.second b) (hle : c.first a ≤ c.second b) :
    c.cut (a, b) = some (a, b + 1) := by
  unfold cut
  rw [if_pos ⟨max_eq_right (max_le hfixed.le hle), hfixed⟩]

theorem cut_eq_first (hfixed : c.fixed < c.first a) (hlt : c.second b < c.first a) :
    c.cut (a, b) = some (a + 1, b) := by
  have hmax : max (max c.fixed (c.first a)) (c.second b) = c.first a := by
    rw [max_eq_right hfixed.le, max_eq_left hlt.le]
  unfold cut
  rw [hmax, if_neg fun h => hlt.ne h.1.symm, if_pos ⟨rfl, hfixed⟩]

/-- The cutting ends where the fixed part is the most expensive one. -/
theorem cut_eq_none_iff :
    c.cut (a, b) = none ↔ c.first a ≤ c.fixed ∧ c.second b ≤ c.fixed := by
  constructor
  · intro h
    by_contra hnot
    rw [not_and_or, not_le, not_le] at hnot
    rcases le_or_gt (c.first a) (c.second b) with hle | hlt
    · rw [cut_eq_second (hnot.elim (fun h => h.trans_le hle) id) hle] at h
      cases h
    · rw [cut_eq_first (hnot.elim id fun h => h.trans hlt) hlt] at h
      cases h
  · rintro ⟨hfirst, hsecond⟩
    cases h : c.cut (a, b) with
    | none => rfl
    | some counts =>
      rcases cut_cases h with ⟨-, hlt, -⟩ | ⟨-, hlt, -⟩
      · exact absurd hsecond hlt.not_ge
      · exact absurd hfirst hlt.not_ge

/-! ### Paths -/

/-- What one cut preserves holds along the path. -/
theorem path_induction {P : ℕ × ℕ → Prop} (start : P (1, 1))
    (preserved : ∀ counts counts', P counts → c.cut counts = some counts' → P counts')
    (h : c.path n = some counts) : P counts := by
  induction n generalizing counts with
  | zero =>
    cases h
    exact start
  | succ n ih =>
    obtain ⟨before, hbefore, hcut⟩ := Option.bind_eq_some_iff.mp h
    exact preserved before counts (ih hbefore) hcut

/-- Every cut adds a piece. -/
theorem path_counts (h : c.path n = some (a, b)) : 1 ≤ a ∧ 1 ≤ b ∧ a + b = n + 2 := by
  induction n generalizing a b with
  | zero =>
    cases h
    exact ⟨le_rfl, le_rfl, rfl⟩
  | succ n ih =>
    obtain ⟨⟨_, _⟩, hbefore, hcut⟩ := Option.bind_eq_some_iff.mp h
    obtain ⟨ha, hb, hsum⟩ := ih hbefore
    rcases cut_cases hcut with ⟨heq, -⟩ | ⟨heq, -⟩ <;> obtain ⟨rfl, rfl⟩ := Prod.mk.inj heq <;>
      exact ⟨by omega, by omega, by omega⟩

/-- Fewer pieces than a part has got were too expensive. -/
theorem path_history (h : c.path n = some (a, b)) :
    (∀ i, 1 ≤ i → i < a → c.fixed < c.first i) ∧
      ∀ i, 1 ≤ i → i < b → c.fixed < c.second i := by
  refine path_induction (P := fun counts => (∀ i, 1 ≤ i → i < counts.1 → c.fixed < c.first i) ∧
    ∀ i, 1 ≤ i → i < counts.2 → c.fixed < c.second i) ⟨fun i _ _ => ?_, fun i _ _ => ?_⟩ ?_ h
  · omega
  · omega
  · rintro ⟨a, b⟩ counts ⟨hfirst, hsecond⟩ hcut
    rcases cut_cases hcut with ⟨rfl, hlt, -⟩ | ⟨rfl, hlt, -⟩
    · refine ⟨hfirst, fun i hi hib => ?_⟩
      rcases Nat.lt_succ_iff_lt_or_eq.mp hib with hlater | rfl
      · exact hsecond i hi hlater
      · exact hlt
    · refine ⟨fun i hi hia => ?_, hsecond⟩
      rcases Nat.lt_succ_iff_lt_or_eq.mp hia with hlater | rfl
      · exact hfirst i hi hlater
      · exact hlt

/-- Parts that become cheap enough are not cut for ever. -/
theorem path_eq_none {K L : ℕ} (hK : 1 ≤ K) (hL : 1 ≤ L) (hfirst : c.first K ≤ c.fixed)
    (hsecond : c.second L ≤ c.fixed) : c.path (K + L) = none := by
  cases h : c.path (K + L) with
  | none => rfl
  | some counts =>
    obtain ⟨a, _⟩ := counts
    obtain ⟨-, -, hsum⟩ := path_counts h
    obtain ⟨ha, hb⟩ := path_history h
    rcases lt_or_ge K a with hlt | hle
    · exact absurd hfirst (ha K hK hlt).not_ge
    · exact absurd hsecond (hb L hL (by omega)).not_ge

/-- A path that ends has a last number of pieces. -/
theorem exists_last (h : c.path n = none) :
    ∃ m counts, c.path m = some counts ∧ c.cut counts = none := by
  induction n with
  | zero => cases h
  | succ n ih =>
    cases hn : c.path n with
    | none => exact ih hn
    | some counts =>
      rw [path_succ, hn, Option.bind_some] at h
      exact ⟨n, counts, hn, h⟩

theorem path_eq_none_of_le {m : ℕ} (hle : n ≤ m) (h : c.path n = none) : c.path m = none := by
  induction m, hle using Nat.le_induction with
  | base => exact h
  | succ m _ ih => rw [path_succ, ih, Option.bind_none]

theorem path_isSome (h : (∀ a, 1 ≤ a → c.fixed < c.first a) ∨
    ∀ b, 1 ≤ b → c.fixed < c.second b) (n : ℕ) : ∃ counts, c.path n = some counts := by
  induction n with
  | zero => exact ⟨_, rfl⟩
  | succ n ih =>
    obtain ⟨⟨a, b⟩, hn⟩ := ih
    obtain ⟨ha, hb, -⟩ := path_counts hn
    cases hcut : c.cut (a, b) with
    | none =>
      obtain ⟨hfirst, hsecond⟩ := cut_eq_none_iff.mp hcut
      rcases h with hall | hall
      · exact absurd hfirst (hall a ha).not_ge
      · exact absurd hsecond (hall b hb).not_ge
    | some counts => exact ⟨counts, by rw [path_succ, hn, Option.bind_some, hcut]⟩

/-- Costs that are ordered alike are cut alike. -/
theorem path_congr {β : Type*} [LinearOrder β] {c' : Costs β}
    (hfirst : ∀ a, c.fixed < c.first a ↔ c'.fixed < c'.first a)
    (hsecond : ∀ b, c.fixed < c.second b ↔ c'.fixed < c'.second b)
    (hlt : ∀ a b, c.second b < c.first a ↔ c'.second b < c'.first a) (n : ℕ) :
    c.path n = c'.path n := by
  have hcut : ∀ counts, c.cut counts = c'.cut counts := by
    rintro ⟨a, b⟩
    cases h : c.cut (a, b) with
    | none =>
      obtain ⟨hle, hle'⟩ := cut_eq_none_iff.mp h
      refine (cut_eq_none_iff.mpr ⟨?_, ?_⟩).symm
      · exact not_lt.mp fun hgt => hle.not_gt ((hfirst a).mpr hgt)
      · exact not_lt.mp fun hgt => hle'.not_gt ((hsecond b).mpr hgt)
    | some counts =>
      rcases cut_cases h with ⟨rfl, hfixed, hle⟩ | ⟨rfl, hfixed, hgt⟩
      · refine (cut_eq_second ((hsecond b).mp hfixed) ?_).symm
        exact not_lt.mp fun hgt => hle.not_gt ((hlt a b).mpr hgt)
      · exact (cut_eq_first ((hfirst a).mp hfixed) ((hlt a b).mp hgt)).symm
  induction n with
  | zero => rfl
  | succ n ih =>
    rw [path_succ, path_succ, ih]
    exact congrArg ((c'.path n).bind ·) (funext hcut)

/-! ### Where the cutting comes to rest -/

/-- When the second part can get cheaper than the first part ever is, it is cut no further than
that, and the first part is cut for ever. -/
theorem path_rest_second {K B : ℕ} (hK : 1 ≤ K) (hfixed : c.fixed < c.first K)
    (hleast : ∀ a, 1 ≤ a → c.first K ≤ c.first a) (hsame : ∀ a, K ≤ a → c.first a = c.first K)
    (hB : 1 ≤ B) (hcheap : c.second B < c.first K)
    (hdear : ∀ b, 1 ≤ b → b < B → c.first K ≤ c.second b) :
    (∀ n a b, c.path n = some (a, b) → b ≤ B) ∧ ∃ n, c.path n = some (K + 1, B) := by
  -- as long as the second part is not cut so far, the first has no more than `K` pieces
  have hbound : ∀ n a b, c.path n = some (a, b) → b ≤ B ∧ (b < B → a ≤ K) := by
    intro n a b h
    refine (path_induction (P := fun counts => 1 ≤ counts.1 ∧ 1 ≤ counts.2 ∧ counts.2 ≤ B ∧
      (counts.2 < B → counts.1 ≤ K)) ⟨le_rfl, le_rfl, hB, fun _ => hK⟩ ?_ h).2.2
    rintro ⟨a, b⟩ counts ⟨ha, hb, hle, hcounts⟩ hcut
    rcases cut_cases hcut with ⟨rfl, -, hsecond⟩ | ⟨rfl, -, hfirst⟩
    · have hlt : b < B := by
        refine lt_of_le_of_ne hle fun heq => ?_
        exact ((hleast a ha).trans hsecond).not_gt (heq ▸ hcheap)
      exact ⟨ha, by omega, hlt, fun _ => hcounts hlt⟩
    · refine ⟨by omega, hb, hle, fun hlt => ?_⟩
      by_contra hbeyond
      rw [hsame a (by omega)] at hfirst
      exact (hdear b hb hlt).not_gt hfirst
  refine ⟨fun n a b h => (hbound n a b h).1, K + B - 1, ?_⟩
  obtain ⟨⟨a, b⟩, h⟩ :=
    path_isSome (.inl fun a ha => hfixed.trans_le (hleast a ha)) (K + B - 1)
  obtain ⟨ha, hb, hsum⟩ := path_counts h
  obtain ⟨hle, hlt⟩ := hbound _ a b h
  obtain rfl : b = B := by
    refine le_antisymm hle (not_lt.mp fun hless => ?_)
    omega
  obtain rfl : a = K + 1 := by omega
  exact h

/-- When the first part can get as cheap as the second part is at least, it is cut no further than
that, and the second part is cut for ever. -/
theorem path_rest_first {L A : ℕ} (hL : 1 ≤ L) (hfixed : c.fixed < c.second L)
    (hleast : ∀ b, 1 ≤ b → c.second L ≤ c.second b) (hsame : ∀ b, L ≤ b → c.second b = c.second L)
    (hA : 1 ≤ A) (hcheap : c.first A ≤ c.second L)
    (hdear : ∀ a, 1 ≤ a → a < A → c.second L < c.first a) :
    (∀ n a b, c.path n = some (a, b) → a ≤ A) ∧ ∃ n, c.path n = some (A, L + 1) := by
  have hbound : ∀ n a b, c.path n = some (a, b) → a ≤ A ∧ (a < A → b ≤ L) := by
    intro n a b h
    refine (path_induction (P := fun counts => 1 ≤ counts.1 ∧ 1 ≤ counts.2 ∧ counts.1 ≤ A ∧
      (counts.1 < A → counts.2 ≤ L)) ⟨le_rfl, le_rfl, hA, fun _ => hL⟩ ?_ h).2.2
    rintro ⟨a, b⟩ counts ⟨ha, hb, hle, hcounts⟩ hcut
    rcases cut_cases hcut with ⟨rfl, -, hsecond⟩ | ⟨rfl, -, hfirst⟩
    · refine ⟨ha, by omega, hle, fun hlt => ?_⟩
      by_contra hbeyond
      rw [hsame b (by omega)] at hsecond
      exact (hdear a ha hlt).not_ge hsecond
    · have hlt : a < A := by
        refine lt_of_le_of_ne hle fun heq => ?_
        exact ((hleast b hb).trans_lt hfirst).not_ge (heq ▸ hcheap)
      exact ⟨by omega, hb, hlt, fun _ => hcounts hlt⟩
  refine ⟨fun n a b h => (hbound n a b h).1, L + A - 1, ?_⟩
  obtain ⟨⟨a, b⟩, h⟩ :=
    path_isSome (.inr fun b hb => hfixed.trans_le (hleast b hb)) (L + A - 1)
  obtain ⟨ha, hb, hsum⟩ := path_counts h
  obtain ⟨hle, hlt⟩ := hbound _ a b h
  obtain rfl : a = A := by
    refine le_antisymm hle (not_lt.mp fun hless => ?_)
    omega
  obtain rfl : b = L + 1 := by omega
  exact h

end Costs

/-! ### The least number of pieces -/

/-- The least number of pieces with a property, `bound` if no smaller number has it. -/
def leastCount (bound : ℕ) (p : ℕ → Bool) : ℕ :=
  ((List.range' 1 bound).find? p).getD bound

theorem leastCount_spec {bound : ℕ} {p : ℕ → Bool} (hbound : 1 ≤ bound) (h : p bound = true) :
    1 ≤ leastCount bound p ∧ leastCount bound p ≤ bound ∧ p (leastCount bound p) = true ∧
      ∀ i, 1 ≤ i → i < leastCount bound p → p i = false := by
  unfold leastCount
  cases hfind : (List.range' 1 bound).find? p with
  | none =>
    have hlast := List.find?_eq_none.mp hfind bound (List.mem_range'_1.mpr ⟨hbound, by omega⟩)
    exact absurd h hlast
  | some least =>
    obtain ⟨hp, i, hi, hget, hbefore⟩ := List.find?_eq_some_iff_getElem.mp hfind
    rw [List.length_range'] at hi
    rw [List.getElem_range'] at hget
    refine ⟨?_, ?_, hp, fun k hk hlt => ?_⟩
    · rw [Option.getD_some]
      omega
    · rw [Option.getD_some]
      omega
    · rw [Option.getD_some] at hlt
      have hk' := hbefore (k - 1) (by omega)
      rw [List.getElem_range', show 1 + 1 * (k - 1) = k by omega] at hk'
      simpa using hk'

end Cutting
