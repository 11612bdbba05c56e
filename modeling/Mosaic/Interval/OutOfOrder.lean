import Mosaic.Memory.BestFit
import Mathlib.Data.Set.Function

/-!
# Placing intervals in any order

Every interval of time needs a range of cells while it lasts. The intervals are ranked, and in the
order of their ranks each goes to the best gap between the ranges of the intervals placed before
that last until it begins or longer. In the order of the beginnings this is right: the ranges it
goes between belong to intervals that last at one moment. In another order an interval may be
placed before one that begins earlier, and then the ranges may share cells.

One kind of order is harmful. Let `p` be placed before `q`, without regard to each other because
`q` begins after `p` has ended, and then `y`, which begins before `p` ends. The scan for `y` meets
both. If `y` and `p` overlap in time, this may put `y` on top of `p`. Where it never happens, the
intervals that overlap in time share no cell.
-/

namespace OutOfOrder

variable {ι : Type*} (birth death : ι → ℤ)

/-- The interval `j` begins while `i` lasts. -/
def BeginsIn (i j : ι) : Prop :=
  birth i < birth j ∧ birth j ≤ death i

/-- One of the intervals begins while the other one lasts. -/
def Overlap (i j : ι) : Prop :=
  BeginsIn birth death i j ∨ BeginsIn birth death j i

/-- Every interval of the set is placed by best fit between those of lower rank that last until it
begins or longer. An interval may be empty, but then it has ended before any of them begins. -/
structure Placed (s : Set ι) (rank size offset : ι → ℕ) : Prop where
  pos : ∀ i ∈ s, 0 < size i
  rank_injOn : s.InjOn rank
  birth_injOn : s.InjOn birth
  proper : ∀ i ∈ s, ∀ j ∈ s, birth j ≤ death i → birth i ≤ death i
  bestFit : ∀ j ∈ s, ∃ blocks : List ι,
    (∀ i, i ∈ blocks ↔ i ∈ s ∧ rank i < rank j ∧ birth j ≤ death i) ∧
    offset j = BestFit.bestFit offset (fun i => offset i + size i) (size j) blocks

/-- An empty interval is placed after those during which it begins, and no interval is placed
after two others, one without regard to the other, where it overlaps the first of them. -/
structure Orderly (s : Set ι) (rank : ι → ℕ) : Prop where
  empty : ∀ i ∈ s, ∀ j ∈ s, BeginsIn birth death i j → death j < birth j → rank i < rank j
  regard : ∀ p ∈ s, ∀ q ∈ s, ∀ y ∈ s, rank p < rank q → rank q < rank y → birth y ≤ death p →
    death p < birth q → birth y ≤ death q → ¬ Overlap birth death p y

variable {birth death} {s : Set ι} {rank size offset : ι → ℕ} {i j : ι}

theorem Overlap.symm (h : Overlap birth death i j) : Overlap birth death j i :=
  Or.symm h

/-- Of two different intervals that do not overlap, one has ended before the other begins. -/
theorem lt_or_lt_of_not_overlap (h : ¬ Overlap birth death i j) (hne : birth i ≠ birth j) :
    death i < birth j ∨ death j < birth i := by
  unfold Overlap BeginsIn at h
  omega

namespace Placed

section

variable (h : Placed birth death s rank size offset) (hi : i ∈ s) (hj : j ∈ s)
  (hlt : rank i < rank j) (hle : birth j ≤ death i)
include h hi hj hlt hle

/-- No interval that was considered starts inside the range of the one placed after it. -/
theorem start_outside : offset i < offset j ∨ offset j + size j ≤ offset i := by
  obtain ⟨blocks, hmem, hoff⟩ := h.bestFit j hj
  have hproper : ∀ b ∈ blocks, offset b < offset b + size b := fun b hb =>
    Nat.lt_add_of_pos_right (h.pos b ((hmem b).mp hb).1)
  rw [hoff]
  exact BestFit.start_outside hproper ((hmem i).mpr ⟨hi, hlt, hle⟩)

/-- A considered interval misses the one placed after it, unless a third one starts inside its
range. -/
theorem separate_or_exists_inside : (offset j + size j ≤ offset i ∨ offset i + size i ≤ offset j) ∨
      ∃ k ∈ s, rank k < rank j ∧ birth j ≤ death k ∧ k ≠ i ∧
        offset i ≤ offset k ∧ offset k < offset i + size i := by
  obtain ⟨blocks, hmem, hoff⟩ := h.bestFit j hj
  have hproper : ∀ b ∈ blocks, offset b < offset b + size b := fun b hb =>
    Nat.lt_add_of_pos_right (h.pos b ((hmem b).mp hb).1)
  by_cases hinside : ∃ k ∈ blocks, k ≠ i ∧ offset i ≤ offset k ∧ offset k < offset i + size i
  · obtain ⟨k, hk, hne, hinside⟩ := hinside
    obtain ⟨hks, hrank, hbirth⟩ := (hmem k).mp hk
    exact .inr ⟨k, hks, hrank, hbirth, hne, hinside⟩
  · left
    rw [hoff]
    refine BestFit.bestFit_clear hproper ((hmem i).mpr ⟨hi, hlt, hle⟩) fun k hk hne hstart => ?_
    by_contra hlt
    exact hinside ⟨k, hk, hne, hstart, not_le.mp hlt⟩

end

variable {p y : ι}

/-- Let all intervals placed before `y` be separate where they overlap in time, and let `p` be one
that overlaps `y` and begins later. An interval `q` placed between them, which has ended before `p`
begins, does not start inside the range of `p`. -/
theorem not_inside_of_ended (h : Placed birth death s rank size offset)
    (ord : Orderly birth death s rank)
    (before : ∀ a ∈ s, ∀ b ∈ s, rank a < rank b → rank b < rank y → Overlap birth death a b →
      offset a + size a ≤ offset b ∨ offset b + size b ≤ offset a)
    (hp : p ∈ s) (hy : y ∈ s) (proper : birth p ≤ death p) (overlap : Overlap birth death p y)
    (late : birth y < birth p) {q : ι} (hq : q ∈ s) (hpq : rank p < rank q) (hqy : rank q < rank y)
    (properQ : birth q ≤ death q) (ended : death q < birth p)
    (regarded : ∀ z ∈ s, rank z < rank p → death z < birth p → death z < birth q) :
    ¬ (offset p ≤ offset q ∧ offset q < offset p + size p) := by
  -- by induction on the rank of `q`: what makes it start there starts there itself
  induction hn : rank q using Nat.strong_induction_on generalizing q with
  | h n ih =>
    rintro ⟨hstart, hstop⟩
    have hpos := h.pos q hq
    rcases h.separate_or_exists_inside hp hq hpq (by omega) with
      hseparate | ⟨z, hz, hzq, hbirth, hne, hinside⟩
    · omega
    have properZ := h.proper z hz q hq hbirth
    have hposZ := h.pos z hz
    have hrank : rank z ≠ rank p := fun heq => hne (h.rank_injOn hz hp heq)
    have hbirths : birth z ≠ birth p := fun heq => hne (h.birth_injOn hz hp heq)
    have hapart : ¬ Overlap birth death z p := by
      intro hoverlap
      rcases lt_or_gt_of_ne hrank with hlt | hgt
      · have := before z hz p hp hlt (by omega) hoverlap
        omega
      · have := before p hp z hz hgt (by omega) hoverlap.symm
        omega
    rcases lt_or_lt_of_not_overlap hapart hbirths with hended | hended <;>
      rcases lt_or_gt_of_ne hrank with hlt | hgt
    · -- `z` was placed before `p` and would have been passed over for `q`
      have := regarded z hz hlt hended
      omega
    · -- `z` was placed between `p` and `q`, and has ended too
      refine ih (rank z) (by omega) hz hgt (by omega) properZ hended (fun w hw hwp hwEnded => ?_)
        rfl hinside
      by_contra hle
      have hearly := regarded w hw hwp hwEnded
      refine ord.regard w hw p hp z hz hwp hgt (by omega) hwEnded (by omega) ?_
      have properW := h.proper w hw z hz (by omega)
      have hneBirth : birth w ≠ birth z := fun heq => by
        have := congrArg rank (h.birth_injOn hw hz heq)
        omega
      unfold Overlap BeginsIn
      omega
    · -- `p` took `z` into account
      have := h.start_outside hz hp hlt (by omega)
      omega
    · -- `p` and `z` were placed without regard to each other, then `y`
      exact ord.regard p hp z hz y hy hgt (by omega) (by omega) hended (by omega) overlap

/-- Intervals that overlap in time share no cell. -/
theorem separate_of_overlap (h : Placed birth death s rank size offset)
    (ord : Orderly birth death s rank) (hi : i ∈ s) (hj : j ∈ s) (overlap : Overlap birth death i j)
    (hlt : rank i < rank j) :
    offset i + size i ≤ offset j ∨ offset j + size j ≤ offset i := by
  -- by induction on the rank of the later one
  induction hn : rank j using Nat.strong_induction_on generalizing i j with
  | h n ih =>
    have before : ∀ a ∈ s, ∀ b ∈ s, rank a < rank b → rank b < rank j → Overlap birth death a b →
        offset a + size a ≤ offset b ∨ offset b + size b ≤ offset a :=
      fun a ha b hb hab hbj hover => ih (rank b) (by omega) ha hb hover hab rfl
    have considered : birth j ≤ death i := by
      rcases overlap with hbegins | hbegins
      · exact hbegins.2
      · -- an empty interval would have been placed after `j`
        by_contra hshort
        have := ord.empty j hj i hi hbegins (by have := hbegins.1; omega)
        omega
    rcases h.separate_or_exists_inside hi hj hlt considered with
      hseparate | ⟨z, hz, hzj, hbirth, hne, hinside⟩
    · omega
    exfalso
    have properI := h.proper i hi j hj considered
    have properZ := h.proper z hz j hj hbirth
    have hposZ := h.pos z hz
    have hrank : rank z ≠ rank i := fun heq => hne (h.rank_injOn hz hi heq)
    have hbirths : birth z ≠ birth i := fun heq => hne (h.birth_injOn hz hi heq)
    have birth_ne {k l : ι} (hk : k ∈ s) (hl : l ∈ s) (hranks : rank k ≠ rank l) :
        birth k ≠ birth l := fun heq => hranks (congrArg rank (h.birth_injOn hk hl heq))
    have hapart : ¬ Overlap birth death z i := by
      intro hoverlap
      rcases lt_or_gt_of_ne hrank with hlt' | hgt
      · have := before z hz i hi hlt' hlt hoverlap
        omega
      · have := before i hi z hz hgt hzj hoverlap.symm
        omega
    have hij := birth_ne hi hj (by omega)
    have hzjBirth := birth_ne hz hj (by omega)
    rcases lt_or_lt_of_not_overlap hapart hbirths with hended | hended <;>
      rcases lt_or_gt_of_ne hrank with hlt' | hgt
    · -- `z`, then `i`, then `j`: `j` overlaps `z` as well
      refine ord.regard z hz i hi j hj hlt' hlt hbirth hended considered ?_
      unfold Overlap BeginsIn at overlap ⊢
      omega
    · -- `i`, then `z`, which has ended before `i` begins
      have late : birth j < birth i := by omega
      refine h.not_inside_of_ended ord before hi hj properI overlap late hz hgt hzj properZ hended
        (fun w hw hwi hwEnded => ?_) hinside
      by_contra hle
      have properW := h.proper w hw z hz (by omega)
      have hwz := birth_ne hw hz (by omega)
      have hwj := birth_ne hw hj (by omega)
      -- `w` begins after `z` has ended, hence it lasts when `j` begins
      have hafter : death z < birth w := by
        by_contra hover
        refine ord.regard w hw i hi z hz hwi hgt (by omega) hwEnded (by omega) ?_
        unfold Overlap BeginsIn
        omega
      refine ord.regard w hw i hi j hj hwi hlt (by omega) hwEnded considered ?_
      unfold Overlap BeginsIn at overlap ⊢
      omega
    · -- `i` took `z` into account
      have := h.start_outside hz hi hlt' (by omega)
      omega
    · -- `i` and `z` without regard to each other, then `j`
      exact ord.regard i hi z hz j hj hgt hzj considered hended hbirth overlap

end Placed

end OutOfOrder
