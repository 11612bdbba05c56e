import Mathlib.Algebra.Order.Group.Int
import Mathlib.Data.Finset.Card
import Mathlib.Order.Interval.Finset.Defs

/-!
# Cardinality search on intervals

Intervals of whole numbers are visited one after the other, and the next one is always an interval
that meets the most intervals visited before. Then the visited intervals that meet an interval not
visited yet also meet each other. Without the rule this is wrong: two intervals far apart may be
visited first, and an interval between them meets both.

The reason is that the search does not leave a gap behind. If two visited intervals do not meet,
then somewhere between them there is a place that no interval still to be visited crosses.
-/

namespace CardinalitySearch

open Finset

variable {ι : Type*} [DecidableEq ι] (birth death : ι → ℤ)

/-- Two intervals, neither of them empty, have a common point. -/
def Meets (i j : ι) : Prop :=
  birth i ≤ death i ∧ birth j ≤ death j ∧ birth i ≤ death j ∧ birth j ≤ death i

instance (i j : ι) : Decidable (Meets birth death i j) :=
  inferInstanceAs (Decidable (_ ∧ _))

/-- The visited intervals that meet `i`. -/
def neighbours (visited : Finset ι) (i : ι) : Finset ι :=
  visited.filter fun j => Meets birth death i j

/-- The sets of visited intervals: at every visit no interval left meets more visited intervals
than the one that is visited. -/
inductive Search (all : Finset ι) : Finset ι → Prop
  | start : Search all ∅
  | visit {visited : Finset ι} {next : ι} (before : Search all visited) (mem : next ∈ all)
      (fresh : next ∉ visited) (most : ∀ i ∈ all, i ∉ visited →
        (neighbours birth death visited i).card ≤ (neighbours birth death visited next).card) :
      Search all (insert next visited)

variable {birth death} {all visited : Finset ι} {i j : ι}

omit [DecidableEq ι] in
theorem mem_neighbours : j ∈ neighbours birth death visited i ↔
    j ∈ visited ∧ Meets birth death i j :=
  mem_filter

omit [DecidableEq ι] in
/-- Where `i` meets a visited interval that `next` misses, `next` meets one that `i` misses,
provided it meets as many. -/
theorem exists_of_card_le {next lost : ι}
    (most : (neighbours birth death visited i).card ≤ (neighbours birth death visited next).card)
    (hlost : lost ∈ visited) (meets : Meets birth death i lost)
    (misses : ¬ Meets birth death next lost) :
    ∃ gained ∈ visited, Meets birth death next gained ∧ ¬ Meets birth death i gained := by
  by_contra hnone
  push Not at hnone
  -- otherwise the neighbours of `next` are among those of `i` and do not contain `lost`
  have hsubset : neighbours birth death visited next ⊂ neighbours birth death visited i := by
    refine (ssubset_iff_of_subset fun k hk => ?_).mpr
      ⟨lost, mem_neighbours.mpr ⟨hlost, meets⟩, fun h => misses (mem_neighbours.mp h).2⟩
    obtain ⟨hk, hmeets⟩ := mem_neighbours.mp hk
    exact mem_neighbours.mpr ⟨hk, hnone k hk hmeets⟩
  exact absurd (card_lt_card hsubset) (not_lt.mpr most)

/-- No interval that is still to be visited crosses from `p` to the next point. -/
def Cut (birth death : ι → ℤ) (all visited : Finset ι) (p : ℤ) : Prop :=
  ∀ i ∈ all, i ∉ visited → birth i ≤ p → death i ≤ p

/-- Between two visited intervals of which the one ends before the other begins, there is a place
that is not crossed any more. -/
theorem Search.exists_cut (h : Search birth death all visited) (hi : i ∈ visited) (hj : j ∈ visited)
    (properI : birth i ≤ death i) (properJ : birth j ≤ death j) (apart : death i < birth j) :
    ∃ p, death i ≤ p ∧ p < birth j ∧ Cut birth death all visited p := by
  -- by induction on the search; the interval visited last is one of the two or neither
  induction h generalizing i j with
  | start => exact absurd hi (notMem_empty i)
  | @visit visited next before mem fresh most ih =>
    have left (k : ι) : k ∉ insert next visited → k ∉ visited := fun hk hmem =>
      hk (mem_insert_of_mem hmem)
    by_contra hcrossed
    have crossed (p : ℤ) (hp : death i ≤ p) (hp' : p < birth j) :
        ∃ k ∈ all, k ∉ insert next visited ∧ birth k ≤ p ∧ p < death k := by
      by_contra hnone
      refine hcrossed ⟨p, hp, hp', fun k hk hkv hkp => ?_⟩
      by_contra hlt
      exact hnone ⟨k, hk, hkv, hkp, by omega⟩
    rcases mem_insert.mp hi with rfl | hiv
    · rcases mem_insert.mp hj with rfl | hjv
      · omega
      · -- `k` crosses in front of `j`, so it meets `j`, and `i` was preferred to it for some `z`
        obtain ⟨k, hk, hkv, hbirth, hdeath⟩ := crossed (birth j - 1) (by omega) (by omega)
        obtain ⟨z, hz, hmeets, hmisses⟩ := exists_of_card_le (most k hk (left k hkv)) hjv
          (by unfold Meets; omega) (by unfold Meets; omega)
        unfold Meets at hmeets hmisses
        -- `z` ends before `k` begins, hence before `j`
        obtain ⟨p, hp, hp', hcut⟩ := ih hz hjv (by omega) properJ (by omega)
        rcases lt_or_ge p (death i) with hlt | hge
        · -- `i` itself crosses there
          have := hcut i mem fresh (by omega)
          omega
        · obtain ⟨k', hk', hkv', hbirth', hdeath'⟩ := crossed p hge hp'
          have := hcut k' hk' (left k' hkv') hbirth'
          omega
    · rcases mem_insert.mp hj with rfl | hjv
      · -- the mirror image
        obtain ⟨k, hk, hkv, hbirth, hdeath⟩ := crossed (death i) le_rfl apart
        obtain ⟨z, hz, hmeets, hmisses⟩ := exists_of_card_le (most k hk (left k hkv)) hiv
          (by unfold Meets; omega) (by unfold Meets; omega)
        unfold Meets at hmeets hmisses
        obtain ⟨p, hp, hp', hcut⟩ := ih hiv hz properI (by omega) (by omega)
        rcases lt_or_ge p (birth j) with hlt | hge
        · obtain ⟨k', hk', hkv', hbirth', hdeath'⟩ := crossed p hp hlt
          have := hcut k' hk' (left k' hkv') hbirth'
          omega
        · have := hcut j mem fresh hge
          omega
      · obtain ⟨p, hp, hp', hcut⟩ := ih hiv hjv properI properJ apart
        obtain ⟨k, hk, hkv, hbirth, hdeath⟩ := crossed p hp hp'
        have := hcut k hk (left k hkv) hbirth
        omega

/-- The visited intervals that meet an interval still to be visited meet each other. -/
theorem Search.meets_of_meets (h : Search birth death all visited) {next : ι} (mem : next ∈ all)
    (fresh : next ∉ visited) (hi : i ∈ visited) (hj : j ∈ visited)
    (meetsI : Meets birth death next i) (meetsJ : Meets birth death next j) :
    Meets birth death i j := by
  unfold Meets at meetsI meetsJ
  by_contra hmisses
  -- `next` crosses whatever lies between them
  rcases lt_or_ge (death i) (birth j) with hlt | hge
  · obtain ⟨p, hp, hp', hcut⟩ := h.exists_cut hi hj (by omega) (by omega) hlt
    have := hcut next mem fresh (by omega)
    omega
  · have hlt : death j < birth i := by
      unfold Meets at hmisses
      omega
    obtain ⟨p, hp, hp', hcut⟩ := h.exists_cut hj hi (by omega) (by omega) hlt
    have := hcut next mem fresh (by omega)
    omega

end CardinalitySearch
