import Mathlib.Data.List.MinMax
import Mathlib.Data.List.Sort
import Mathlib.Order.Bounds.Basic

/-!
# First fit among occupied blocks

A block occupies the cells from its start up to, but not including, its stop. First fit sorts
the blocks by start and takes the first gap that is wide enough, comparing each block only
with the end of the one before it. That comparison is sound because blocks that occupy no
common cell are ordered by their ends as soon as they are ordered by their starts.
-/

namespace FirstFit

open List

variable {β : Type*} (start stop : β → ℕ)

/-- The `size` cells from `offset` on miss the block `b`. -/
def Clear (size offset : ℕ) (b : β) : Prop :=
  offset + size ≤ start b ∨ stop b ≤ offset

/-- Two blocks occupy no common cell. -/
def Separate (a b : β) : Prop :=
  stop a ≤ start b ∨ stop b ≤ start a

/-- The offsets at which `size` cells miss every one of the blocks. -/
def Feasible (size : ℕ) (blocks : List β) : Set ℕ :=
  {offset | ∀ b ∈ blocks, Clear start stop size offset b}

/-- Walk over the blocks in order, remembering only where the last one ended, and stop at
the first gap of at least `size` cells. -/
def scan (size : ℕ) : ℕ → List β → ℕ
  | lastEnd, [] => lastEnd
  | lastEnd, b :: rest => if lastEnd + size ≤ start b then lastEnd else scan size (stop b) rest

/-- Sort the blocks by their start and scan from cell zero. -/
def firstFit (size : ℕ) (blocks : List β) : ℕ :=
  scan start stop size 0 (blocks.insertionSort fun a b => start a ≤ start b)

variable {start stop}

theorem Separate.symm {a b : β} (h : Separate start stop a b) : Separate start stop b a :=
  Or.symm h

@[simp] theorem mem_feasible_nil (size offset : ℕ) :
    offset ∈ Feasible start stop size [] := by
  simp [Feasible]

variable {size offset : ℕ}

@[simp] theorem mem_feasible_cons {b : β} {rest : List β} :
    offset ∈ Feasible start stop size (b :: rest) ↔
      (offset + size ≤ start b ∨ stop b ≤ offset) ∧ offset ∈ Feasible start stop size rest := by
  simp [Feasible, Clear]

/-- Over blocks in chronological order the scan returns the least feasible offset that does
not precede the end it started from. -/
theorem scan_isLeast (size : ℕ) (blocks : List β) (lastEnd : ℕ)
    (chronological : blocks.Pairwise fun a b => stop a ≤ start b)
    (proper : ∀ b ∈ blocks, start b < stop b)
    (after : ∀ b ∈ blocks, lastEnd ≤ start b) :
    IsLeast {offset | lastEnd ≤ offset ∧ offset ∈ Feasible start stop size blocks}
      (scan start stop size lastEnd blocks) := by
  induction blocks generalizing lastEnd with
  | nil => exact ⟨⟨le_rfl, mem_feasible_nil _ _⟩, fun _ h => h.1⟩
  | cons b rest ih =>
    obtain ⟨hb, hrest⟩ := pairwise_cons.mp chronological
    have hproper := proper b mem_cons_self
    by_cases hfit : lastEnd + size ≤ start b
    · rw [scan, if_pos hfit]
      refine ⟨⟨le_rfl, mem_feasible_cons.mpr ⟨.inl hfit, fun c hc => .inl ?_⟩⟩, fun _ h => h.1⟩
      have := hb c hc
      omega
    · rw [scan, if_neg hfit]
      obtain ⟨⟨hle, hfree⟩, hleast⟩ := ih (stop b) hrest
        (fun c hc => proper c (mem_cons_of_mem _ hc)) hb
      have hafter := after b mem_cons_self
      refine ⟨⟨by omega, mem_feasible_cons.mpr ⟨.inr hle, hfree⟩⟩, ?_⟩
      rintro offset ⟨hlast, hoff⟩
      obtain ⟨hclear, hothers⟩ := mem_feasible_cons.mp hoff
      -- the gap before `b` is too small, so a feasible offset lies behind `b`
      exact hleast ⟨by omega, hothers⟩

/-- Sorting separate blocks by their starts also orders each end before the next start. -/
theorem sort_chronological (blocks : List β) (proper : ∀ b ∈ blocks, start b < stop b)
    (separate : blocks.Pairwise (Separate start stop)) :
    (blocks.insertionSort fun a b => start a ≤ start b).Pairwise
      fun a b => stop a ≤ start b := by
  have hsorted := pairwise_insertionSort (fun a b : β => start a ≤ start b) blocks
  have hseparate : (blocks.insertionSort fun a b => start a ≤ start b).Pairwise
      (Separate start stop) :=
    ((perm_insertionSort _ blocks).pairwise_iff Separate.symm).mpr separate
  refine (hsorted.and hseparate).imp_of_mem ?_
  rintro a b - hb ⟨hstart, hends⟩
  -- `b` cannot end before `a` starts: it is not empty and starts no earlier
  have hproper := proper b ((mem_insertionSort _).mp hb)
  exact hends.resolve_right (by omega)

/-- First fit among pairwise separate blocks returns the least feasible offset. -/
theorem firstFit_isLeast (size : ℕ) (blocks : List β) (proper : ∀ b ∈ blocks, start b < stop b)
    (separate : blocks.Pairwise (Separate start stop)) :
    IsLeast (Feasible start stop size blocks) (firstFit start stop size blocks) := by
  have hmem : ∀ b, b ∈ blocks.insertionSort (fun a b => start a ≤ start b) ↔ b ∈ blocks :=
    fun b => mem_insertionSort _
  have hscan := scan_isLeast size _ 0 (sort_chronological blocks proper separate)
    (fun b hb => proper b ((hmem b).mp hb)) (fun b _ => Nat.zero_le _)
  constructor
  · exact fun b hb => hscan.1.2 b ((hmem b).mpr hb)
  · exact fun offset h => hscan.2 ⟨Nat.zero_le _, fun b hb => h b ((hmem b).mp hb)⟩

variable {blocks : List β}

/-- The least feasible offset of a range is zero or at least the range's own size, provided
no block stops short of that size. -/
theorem eq_zero_or_le_of_isLeast (least : IsLeast (Feasible start stop size blocks) offset)
    (long : ∀ b ∈ blocks, size ≤ stop b) : offset = 0 ∨ size ≤ offset := by
  by_contra hbetween
  push Not at hbetween
  have hzero : 0 ∈ Feasible start stop size blocks := by
    intro b hb
    have hlong := long b hb
    rcases least.1 b hb with hbefore | hbehind
    · exact .inl (by omega)
    · omega
  have := least.2 hzero
  omega

/-- The scan returns the end it started from or the end of a block. -/
theorem scan_eq_or_stop (size : ℕ) (blocks : List β) (lastEnd : ℕ) :
    scan start stop size lastEnd blocks = lastEnd ∨
      ∃ b ∈ blocks, scan start stop size lastEnd blocks = stop b := by
  induction blocks generalizing lastEnd with
  | nil => exact .inl rfl
  | cons b rest ih =>
    rw [scan]
    split
    · exact .inl rfl
    · rcases ih (stop b) with hstop | ⟨c, hc, hstop⟩
      · exact .inr ⟨b, mem_cons_self, hstop⟩
      · exact .inr ⟨c, mem_cons_of_mem _ hc, hstop⟩

/-- Whether or not the blocks are separate, first fit returns zero or the end of a block. -/
theorem firstFit_eq_zero_or_stop (size : ℕ) (blocks : List β) :
    firstFit start stop size blocks = 0 ∨
      ∃ b ∈ blocks, firstFit start stop size blocks = stop b := by
  rcases scan_eq_or_stop size (blocks.insertionSort fun a b => start a ≤ start b) 0 with
    hzero | ⟨b, hb, hstop⟩
  · exact .inl hzero
  · exact .inr ⟨b, (mem_insertionSort _).mp hb, hstop⟩

/-! ### Blocks that may share cells -/

/-- The scan may stop too early, in a gap that is none, but not too late. -/
theorem scan_le_of_feasible (blocks : List β) (lastEnd : ℕ)
    (hlast : lastEnd ≤ offset) (hoff : offset ∈ Feasible start stop size blocks) :
    scan start stop size lastEnd blocks ≤ offset := by
  induction blocks generalizing lastEnd with
  | nil => exact hlast
  | cons b rest ih =>
    obtain ⟨hclear, hothers⟩ := mem_feasible_cons.mp hoff
    rw [scan]
    split
    · exact hlast
    · rename_i hnone
      exact ih (stop b) (hclear.resolve_left (by omega)) hothers

theorem firstFit_le_of_feasible (hoffset : offset ∈ Feasible start stop size blocks) :
    firstFit start stop size blocks ≤ offset :=
  scan_le_of_feasible _ 0 (Nat.zero_le _) fun b hb =>
    hoffset b ((mem_insertionSort _).mp hb)

/-- The scan stops where it began, or at the end of a block behind which there is a gap. -/
theorem scan_cases (blocks : List β) (lastEnd : ℕ)
    (sorted : blocks.Pairwise fun a b => start a ≤ start b) :
    (scan start stop size lastEnd blocks = lastEnd ∧ ∀ c ∈ blocks, lastEnd + size ≤ start c) ∨
      ∃ before b after, blocks = before ++ b :: after ∧
        scan start stop size lastEnd blocks = stop b ∧ ∀ c ∈ after, stop b + size ≤ start c := by
  induction blocks generalizing lastEnd with
  | nil => exact .inl ⟨rfl, nofun⟩
  | cons b rest ih =>
    obtain ⟨hb, hrest⟩ := pairwise_cons.mp sorted
    rw [scan]
    split
    · rename_i hfit
      refine .inl ⟨rfl, fun c hc => ?_⟩
      rcases mem_cons.mp hc with rfl | hc
      · exact hfit
      · exact hfit.trans (hb c hc)
    · rcases ih (stop b) hrest with ⟨hstop, hbehind⟩ | ⟨before, c, after, rfl, hstop, hbehind⟩
      · exact .inr ⟨[], b, rest, rfl, hstop, hbehind⟩
      · exact .inr ⟨b :: before, c, after, rfl, hstop, hbehind⟩

/-- The scan does not get past a block with a gap behind it. -/
theorem scan_le_stop {before after : List β} {b : β} (lastEnd : ℕ)
    (sorted : (before ++ b :: after).Pairwise fun a c => start a ≤ start c)
    (proper : start b ≤ stop b) (behind : ∀ c ∈ after, stop b + size ≤ start c) :
    scan start stop size lastEnd (before ++ b :: after) ≤ stop b := by
  induction before generalizing lastEnd with
  | nil =>
    rw [nil_append, scan]
    split
    · omega
    · cases after with
      | nil => exact le_rfl
      | cons c rest =>
        rw [scan, if_pos (behind c mem_cons_self)]
  | cons a rest ih =>
    obtain ⟨ha, hrest⟩ := pairwise_cons.mp sorted
    have hle := ha b (mem_append_right _ mem_cons_self)
    rw [cons_append, scan]
    split
    · omega
    · exact ih (stop a) hrest

theorem exists_feasible (start stop : β → ℕ) (size : ℕ) (blocks : List β) :
    ∃ offset, offset ∈ Feasible start stop size blocks :=
  -- behind all blocks there is room
  ⟨(blocks.map stop).foldr max 0, fun _ hb =>
    .inr (le_max_of_le' 0 (mem_map_of_mem hb) le_rfl)⟩

instance (size : ℕ) (blocks : List β) :
    DecidablePred fun offset => offset ∈ Feasible start stop size blocks := fun offset =>
  inferInstanceAs (Decidable (∀ b ∈ blocks, offset + size ≤ start b ∨ stop b ≤ offset))

variable (start stop) in
def leastOffset (size : ℕ) (blocks : List β) : ℕ :=
  Nat.find (exists_feasible start stop size blocks)

theorem leastOffset_isLeast (size : ℕ) (blocks : List β) :
    IsLeast (Feasible start stop size blocks) (leastOffset start stop size blocks) :=
  ⟨Nat.find_spec (exists_feasible start stop size blocks), fun _ h => Nat.find_min' _ h⟩

/-- First fit is right as soon as the place that it returns is free. -/
theorem firstFit_eq_leastOffset_iff {size : ℕ} :
    firstFit start stop size blocks = leastOffset start stop size blocks ↔
      firstFit start stop size blocks ∈ Feasible start stop size blocks := by
  have hleast : IsLeast (Feasible start stop size blocks) (leastOffset start stop size blocks) :=
    leastOffset_isLeast size blocks
  constructor
  · intro h
    rw [h]
    exact hleast.1
  · intro h
    exact le_antisymm (firstFit_le_of_feasible hleast.1) (hleast.2 h)

/-- Blocks that share cells only if they begin together. First fit is right if behind every block
that ends inside such a partner there is no gap, or if there is room before them. -/
theorem firstFit_feasible_of_gaps (proper : ∀ b ∈ blocks, start b < stop b)
    (nested : ∀ a ∈ blocks, ∀ b ∈ blocks, Separate start stop a b ∨ start a = start b)
    (gaps : ∀ a ∈ blocks, ∀ b ∈ blocks, start a = start b → stop b < stop a →
      leastOffset start stop size blocks < start a ∨
        ∃ c ∈ blocks, start a < start c ∧ start c < stop b + size) :
    firstFit start stop size blocks ∈ Feasible start stop size blocks := by
  have hmem : ∀ b, b ∈ blocks.insertionSort (fun a b => start a ≤ start b) ↔ b ∈ blocks :=
    fun b => mem_insertionSort _
  have hle : firstFit start stop size blocks ≤ leastOffset start stop size blocks :=
    firstFit_le_of_feasible (leastOffset_isLeast size blocks).1
  have hsorted := pairwise_insertionSort (fun a b : β => start a ≤ start b) blocks
  rcases scan_cases _ 0 hsorted with ⟨hzero, hbehind⟩ | ⟨before, b, after, hsplit, hstop, hbehind⟩
  · intro c hc
    rw [firstFit, hzero]
    exact .inl (hbehind c ((hmem c).mpr hc))
  · have hb : b ∈ blocks := (hmem b).mp (by rw [hsplit]; exact mem_append_right _ mem_cons_self)
    have hearlier : ∀ c ∈ before ++ [b], start c ≤ start b := by
      rw [hsplit] at hsorted
      intro c hc
      rcases mem_append.mp hc with hc | hc
      · exact (pairwise_append.mp hsorted).2.2 c hc b mem_cons_self
      · rw [mem_singleton.mp hc]
    rw [firstFit, hstop] at hle
    intro c hc
    rw [firstFit, hstop]
    have hcases : c ∈ before ++ [b] ∨ c ∈ after := by
      have := (hmem c).mpr hc
      rw [hsplit] at this
      simpa [or_assoc] using this
    rcases hcases with hbefore | hafter
    · -- a block before `b` ends before it begins, unless they begin together
      refine .inr ?_
      have hstart := hearlier c hbefore
      have hproper := proper b hb
      rcases nested c hc b hb with hseparate | hsame
      · rcases hseparate with hends | hends
        · omega
        · have hproper' := proper c hc
          omega
      · by_contra hlong
        rcases gaps c hc b hb hsame (by omega) with hlow | ⟨d, hd, hlater, hnear⟩
        · omega
        · have hcases : d ∈ before ++ [b] ∨ d ∈ after := by
            have := (hmem d).mpr hd
            rw [hsplit] at this
            simpa [or_assoc] using this
          rcases hcases with hbefore | hafter
          · have := hearlier d hbefore
            omega
          · have := hbehind d hafter
            omega
    · exact .inl (hbehind c hafter)

/-- If first fit is right, then a block that ends inside a partner before it has no gap behind it,
or there is room before them. -/
theorem gap_of_firstFit_feasible {a b : β}
    (feasible : firstFit start stop size blocks ∈ Feasible start stop size blocks)
    (hsize : 0 < size) (both : [a, b] <+ blocks) (nodup : blocks.Nodup) (proper : start b ≤ stop b)
    (begin : start a = start b) (inside : stop b < stop a)
    (others : ∀ c ∈ blocks, start c = start a → c = a ∨ c = b) :
    firstFit start stop size blocks < start a ∨
      ∃ c ∈ blocks, start a < start c ∧ start c < stop b + size := by
  by_contra hnone
  push Not at hnone
  obtain ⟨hhigh, hnone⟩ := hnone
  have hsorted := pairwise_insertionSort (fun a b : β => start a ≤ start b) blocks
  have hmem : ∀ c, c ∈ blocks.insertionSort (fun a b => start a ≤ start b) ↔ c ∈ blocks :=
    fun c => mem_insertionSort _
  have hpair : [a, b] <+ blocks.insertionSort fun a b => start a ≤ start b :=
    sublist_insertionSort (by simpa using begin.le) both
  obtain ⟨front, back, hsplit, ha, hb⟩ := cons_sublist_iff.mp hpair
  obtain ⟨middle, after, rfl⟩ := append_of_mem (singleton_sublist.mp hb)
  have hnodup := (perm_insertionSort (fun a b : β => start a ≤ start b) blocks).nodup_iff.mpr nodup
  rw [hsplit, ← append_assoc] at hsorted hnodup
  have hbehind : ∀ c ∈ after, stop b + size ≤ start c := by
    intro c hc
    have hblock : c ∈ blocks := (hmem c).mp (by rw [hsplit]; simp [hc])
    obtain ⟨-, hlater, hdisjoint⟩ := nodup_append.mp hnodup
    have hle : start b ≤ start c :=
      (pairwise_cons.mp (pairwise_append.mp hsorted).2.1).1 c hc
    refine hnone c hblock (lt_of_le_of_ne (by omega) fun hsame => ?_)
    rcases others c hblock hsame.symm with rfl | rfl
    · exact hdisjoint c (mem_append_left _ ha) c (mem_cons_of_mem _ hc) rfl
    · exact (nodup_cons.mp hlater).1 hc
  have hle : firstFit start stop size blocks ≤ stop b := by
    rw [firstFit, hsplit, ← append_assoc]
    exact scan_le_stop 0 hsorted proper hbehind
  have hclear := feasible a (both.subset mem_cons_self)
  dsimp only [Clear] at hclear
  omega

/-! ### Rooms among given ranges -/

/-- The `size` cells from `offset` on miss all ranges. -/
def Misses (size offset : ℕ) : List (ℕ × ℕ) → Prop
  | [] => True
  | range :: rest => (offset + size ≤ range.1 ∨ range.2 ≤ offset) ∧ Misses size offset rest

/-- The least offset at which `size` cells miss all ranges. -/
structure Room (size : ℕ) (ranges : List (ℕ × ℕ)) (offset : ℕ) : Prop where
  misses : Misses size offset ranges
  le : ∀ o, Misses size o ranges → offset ≤ o

theorem Room.eq {ranges : List (ℕ × ℕ)} (h : Room size ranges offset) (o : ℕ)
    (hmisses : Misses size o ranges) (hle : ∀ o', Misses size o' ranges → o ≤ o') : offset = o :=
  le_antisymm (h.le o hmisses) (hle offset h.misses)

theorem misses_iff_feasible : Misses size offset (blocks.map fun b => (start b, stop b)) ↔
      offset ∈ Feasible start stop size blocks := by
  induction blocks with
  | nil => simp [Misses]
  | cons b rest ih => rw [map_cons, Misses, ih, mem_feasible_cons]

theorem room_of_isLeast (h : IsLeast (Feasible start stop size blocks) offset) :
    Room size (blocks.map fun b => (start b, stop b)) offset :=
  ⟨misses_iff_feasible.mpr h.1, fun _ ho => h.2 (misses_iff_feasible.mp ho)⟩

end FirstFit
