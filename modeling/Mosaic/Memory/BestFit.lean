import Mosaic.Memory.FirstFit
import Mathlib.Data.List.Pairwise

/-!
# Best fit among occupied blocks

Best fit walks over the blocks in the order of their starts as first fit does, and keeps the
smallest gap that is wide enough instead of the first one. Behind the last block it goes only
when no gap is. A gap is measured from the end of the block before it, which is where the free
cells begin as long as the blocks share none.

Whether or not the blocks share cells, no block starts inside the chosen place. A block reaches
into it only if another block, on which the scan relied, starts inside that block.
-/

namespace BestFit

open List

open FirstFit (Feasible Separate Clear)

variable {β : Type*} (start stop : β → ℕ)

/-- One block of the scan: the smallest gap so far, with the offset where it begins, and the end
of the last block. A gap is negative when the block starts before the last one ended. -/
def scan (size : ℕ) (acc : Option (ℕ × ℤ) × ℕ) (b : β) : Option (ℕ × ℤ) × ℕ :=
  let gap : ℤ := start b - acc.2
  (if (size : ℤ) ≤ gap ∧ ∀ best ∈ acc.1, gap < best.2 then some (acc.2, gap) else acc.1, stop b)

/-- Sort the blocks by their start, scan from cell zero and take the smallest gap, or the end of
the last block. -/
def bestFit (size : ℕ) (blocks : List β) : ℕ :=
  let acc := (blocks.insertionSort fun a b => start a ≤ start b).foldl (scan start stop size)
    (none, 0)
  match acc.1 with
  | some best => best.1
  | none => acc.2

/-- The place is at cell zero, or where some block ends, and every block that does not start
before that one starts behind the place. -/
def Fits (size : ℕ) (blocks : List β) (offset : ℕ) : Prop :=
  (offset = 0 ∧ ∀ b ∈ blocks, size ≤ start b) ∨
    ∃ last ∈ blocks, offset = stop last ∧
      ∀ b ∈ blocks, start b ≤ start last ∨ offset + size ≤ start b

variable {start stop} {size : ℕ}

theorem Fits.of_mem_iff {blocks blocks' : List β} {offset : ℕ}
    (hmem : ∀ b, b ∈ blocks ↔ b ∈ blocks') (h : Fits start stop size blocks offset) :
    Fits start stop size blocks' offset := by
  simpa only [Fits, hmem] using h

/-- The end of the last block is a place when the blocks to come are far enough. -/
theorem fits_of_behind {before after : List β} {lastEnd : ℕ}
    (sorted : before.Pairwise fun a b => start a ≤ start b)
    (last : before = [] ∧ lastEnd = 0 ∨ ∃ front z, before = front ++ [z] ∧ lastEnd = stop z)
    (room : ∀ b ∈ after, lastEnd + size ≤ start b) :
    Fits start stop size (before ++ after) lastEnd := by
  rcases last with ⟨rfl, rfl⟩ | ⟨front, z, rfl, rfl⟩
  · exact .inl ⟨rfl, fun b hb => by simpa using room b hb⟩
  · refine .inr ⟨z, by simp, rfl, fun b hb => ?_⟩
    rcases mem_append.mp hb with hb | hb
    · rcases mem_append.mp hb with hb | hb
      · exact .inl ((pairwise_append.mp sorted).2.2 b hb z (mem_singleton.mpr rfl))
      · rw [mem_singleton.mp hb]
        exact .inl le_rfl
    · exact .inr (room b hb)

/-- The rest of a scan, after some blocks have been passed. -/
theorem foldl_scan_fits {before rest : List β} {acc : Option (ℕ × ℤ) × ℕ}
    (sorted : (before ++ rest).Pairwise fun a b => start a ≤ start b)
    (best : ∀ gap, acc.1 = some gap → Fits start stop size (before ++ rest) gap.1)
    (last : before = [] ∧ acc.2 = 0 ∨ ∃ front z, before = front ++ [z] ∧ acc.2 = stop z) :
    Fits start stop size (before ++ rest) (match (rest.foldl (scan start stop size) acc).1 with
      | some gap => gap.1
      | none => (rest.foldl (scan start stop size) acc).2) := by
  induction rest generalizing before acc with
  | nil =>
    rw [foldl_nil]
    split
    · rename_i gap hgap
      exact best gap hgap
    · rw [append_nil] at sorted
      exact fits_of_behind sorted last nofun
  | cons b rest ih =>
    obtain ⟨hbefore, hrest, -⟩ := pairwise_append.mp sorted
    -- after this block the scan has passed one more
    rw [foldl_cons, append_cons]
    rw [append_cons] at sorted
    refine ih sorted (fun gap hgap => ?_) (.inr ⟨before, b, rfl, rfl⟩)
    rw [← append_cons]
    simp only [scan] at hgap
    split at hgap
    · rename_i hfits
      cases hgap
      refine fits_of_behind hbefore last fun c hc => ?_
      have hb : start b ≤ start c := by
        rcases mem_cons.mp hc with rfl | hc
        · exact le_rfl
        · exact (pairwise_cons.mp hrest).1 c hc
      omega
    · exact best gap hgap

/-- What is known of the place among any blocks. -/
theorem bestFit_spec (size : ℕ) (blocks : List β) :
    Fits start stop size blocks (bestFit start stop size blocks) := by
  have hsorted := pairwise_insertionSort (fun a b : β => start a ≤ start b) blocks
  have hfits := @foldl_scan_fits β start stop size [] _ (none, 0) hsorted nofun (.inl ⟨rfl, rfl⟩)
  exact Fits.of_mem_iff (fun b => mem_insertionSort _) hfits

section Place

variable {blocks : List β}

section

variable (proper : ∀ b ∈ blocks, start b < stop b)
include proper

/-- No block starts inside the place. -/
theorem start_outside {b : β} (hb : b ∈ blocks) :
    start b < bestFit start stop size blocks ∨ bestFit start stop size blocks + size ≤ start b := by
  rcases @bestFit_spec β start stop size blocks with ⟨hzero, hroom⟩ | ⟨last, hlast, hstop, hroom⟩
  · have := hroom b hb
    exact .inr (by omega)
  · have := proper last hlast
    rcases hroom b hb with hle | hle
    · exact .inl (by omega)
    · exact .inr hle

/-- A block inside which no other block starts misses the place. -/
theorem bestFit_clear {b : β} (hb : b ∈ blocks)
    (whole : ∀ c ∈ blocks, c ≠ b → start b ≤ start c → stop b ≤ start c) :
    Clear start stop size (bestFit start stop size blocks) b := by
  rcases @bestFit_spec β start stop size blocks with ⟨hzero, hroom⟩ | ⟨last, hlast, hstop, hroom⟩
  · have := hroom b hb
    exact .inl (by omega)
  · have := proper last hlast
    rcases hroom b hb with hle | hle
    · by_cases heq : last = b
      · exact .inr (by rw [hstop, heq])
      · have := whole last hlast heq hle
        exact .inr (by omega)
    · exact .inl hle

/-- Best fit among pairwise separate blocks returns a place that misses all of them. -/
theorem bestFit_feasible (separate : blocks.Pairwise (Separate start stop)) :
    bestFit start stop size blocks ∈ Feasible start stop size blocks := by
  have : Std.Symm (Separate start stop) := ⟨fun _ _ h => h.symm⟩
  intro b hb
  refine bestFit_clear proper hb fun c hc hne hle => ?_
  have hseparate : Separate start stop c b := separate.forall hc hb hne
  have := proper c hc
  rcases hseparate with h | h <;> omega

end

end Place

/-- Best fit sees no more of a block than its start and its end. -/
theorem bestFit_map {γ : Type*} (f : γ → β) (size : ℕ) (items : List γ) :
    bestFit start stop size (items.map f) =
      bestFit (fun c => start (f c)) (fun c => stop (f c)) size items := by
  have hsort := map_insertionSort (fun a b : γ => start (f a) ≤ start (f b))
    (fun a b : β => start a ≤ start b) f items fun _ _ _ _ => Iff.rfl
  rw [bestFit, bestFit, ← hsort, foldl_map]
  rfl

/-- A gap in front of a single block is taken. -/
theorem bestFit_singleton {b : β} (hroom : size ≤ start b) :
    bestFit start stop size [b] = 0 := by
  simp [bestFit, scan, hroom]

theorem bestFit_singleton_of_zero {b : β} (hb : start b = 0) (hsize : 0 < size) :
    bestFit start stop size [b] = stop b := by
  simp [bestFit, scan, hb, hsize.ne']

/-- Of two blocks that both start at cell zero the scan remembers only the end of the second. -/
theorem bestFit_of_covered {a b : β} (ha : start a = 0) (hb : start b = 0) (hsize : 0 < size) :
    bestFit start stop size [a, b] = stop b := by
  have hnone (lastEnd : ℕ) : ¬ (size : ℤ) ≤ -lastEnd := by omega
  have hzero : size ≠ 0 := hsize.ne'
  simp [bestFit, scan, ha, hb, hnone, hzero]

/-- The end of the second block is the place also when a third one is behind the first. -/
theorem bestFit_of_covered_before {a b c : β} (ha : start a = 0) (hb : start b = 0)
    (hc : 0 < start c) (hroom : stop b + size ≤ start c) (hsize : 0 < size) :
    bestFit start stop size [a, c, b] = stop b := by
  have hnone (lastEnd : ℕ) : ¬ (size : ℤ) ≤ -lastEnd := by omega
  have hzero : size ≠ 0 := hsize.ne'
  have hfits : (size : ℤ) ≤ start c - stop b := by omega
  simp [bestFit, scan, ha, hb, hnone, hzero, hc.ne', hfits]

@[simp] theorem bestFit_nil (size : ℕ) : bestFit start stop size [] = 0 := rfl

end BestFit
