import Mosaic.Interval.RunSearch
import Mosaic.Kv.Hits

/-!
# Hits of sliding window layers

A layer with a sliding window needs the blocks of the last window only. The search goes over the
block hashes from the right until it has passed as many cached blocks in a row as the window
covers, and so it finds the longest prefix that ends with that many. Where it reaches the start, the
blocks it has just passed are a prefix that is cached as a whole.
-/

namespace Kv

variable {p : BlockPool} {hs : List BlockHash} {groupIds : List ℕ}

/-- Every group has a cached block for the hash of the position. -/
def CachedAt (p : BlockPool) (groupIds : List ℕ) (hs : List BlockHash) (i : ℕ) : Prop :=
  ∃ h, hs[i]? = some h ∧ ∀ g ∈ groupIds, p.cachedBlockHashToBlock ⟨h, g⟩ ≠ []

theorem cachedAt_iff (hgroups : groupIds ≠ []) {i : ℕ} {h : BlockHash} (hi : hs[i]? = some h) :
    CachedAt p groupIds hs i ↔ (cachedRow p groupIds h).isSome := by
  rw [cachedRow_isSome_iff hgroups, CachedAt, hi]
  simp only [Option.some.injEq, exists_eq_left']

/-- A block is the null block or a cached one, and within the last `c` blocks before `n` it is a
cached one. -/
def InWindow (p : BlockPool) (hs : List BlockHash) (c n group i b : ℕ) : Prop :=
  NullOrHit p hs group i b ∧ (n ≤ i + c → HitAt p hs group i b)

/-- In the middle of the scan the blocks from `i` on, `k` of them, are cached ones. -/
def Passed (p : BlockPool) (hs : List BlockHash) (i k group j b : ℕ) : Prop :=
  NullOrHit p hs group j b ∧ (i ≤ j → j < i + k → HitAt p hs group j b)

section Loop

variable {c i k n : ℕ} {computed : List (List ℕ)}

/-- The blocks of a row that is found at position `i`. -/
theorem rows_passed_set (h : Rows (Passed p hs (i + 1) k) n groupIds computed) {row : List ℕ}
    (hrow : List.Forall₂ (fun g b => HitAt p hs g i b) groupIds row) :
    Rows (Passed p hs i (k + 1)) n groupIds
      (List.zipWith (fun computed b => computed.set i b) computed row) := by
  refine h.setRow_imp (hrow.imp fun _ _ hb => ⟨.inr hb, fun _ _ => hb⟩) fun g j b hne hb => ?_
  exact ⟨hb.1, fun hle hlt => hb.2 (by omega) (by omega)⟩

/-- The loop finds the longest prefix whose last blocks are cached. -/
theorem slidingWindowLoop_greatest (hgroups : groupIds ≠ []) (hlength : n ≤ hs.length)
    (inv : RunSearch.Searched (CachedAt p groupIds hs) c n i k)
    (h : Rows (Passed p hs i k) n groupIds computed) :
    ∃ hits L, slidingWindowLoop p groupIds hs c i computed k = .ok hits ∧
      IsGreatest {m | m ≤ n ∧ RunSearch.EndsAt (CachedAt p groupIds hs) c m} L ∧
      Rows (InWindow p hs c L) L groupIds hits := by
  -- The search goes down from the last block; `k` is the length of the run that it is in.
  induction i generalizing computed k with
  | zero =>
    refine ⟨_, k, rfl, inv.cutOff, ?_⟩
    have hbounded := inv.bounded
    have htake := h.map_take k
    rw [Nat.min_eq_left (by omega)] at htake
    exact htake.imp_lt fun g j b hj hb => ⟨hb.1, fun _ => hb.2 (Nat.zero_le j) (by omega)⟩
  | succ i ih =>
    have hbounded := inv.bounded
    have hget : hs[i]? = some hs[i] := List.getElem?_eq_getElem (by omega)
    have hcached := cachedAt_iff (p := p) hgroups hget
    rw [slidingWindowLoop, hget]
    dsimp only
    cases hrow : cachedRow p groupIds hs[i] with
    -- A miss ends the run.
    | none =>
      rw [hrow] at hcached
      refine ih (inv.miss fun hmarked => ?_) (h.imp fun g _ j b hb => ⟨hb.1, by omega⟩)
      exact Bool.false_ne_true (hcached.mp hmarked)
    | some row =>
      have hmarked : CachedAt p groupIds hs i := hcached.mpr (by rw [hrow]; rfl)
      have hset := rows_passed_set h (hitAt_cachedRow hget hrow)
      dsimp only
      split
      · -- The run is long enough, and no longer prefix ends in one.
        rename_i hlong
        have hshort := inv.short
        have htake := hset.map_take (i + (k + 1))
        rw [Nat.min_eq_left (by omega)] at htake
        exact ⟨_, _, rfl, inv.found hmarked hlong, htake.imp_lt fun g j b hj hb =>
          ⟨hb.1, fun hle => hb.2 (by omega) hj⟩⟩
      · rename_i hshort
        exact ih (inv.hit hmarked (by omega)) hset

end Loop

/-! ### The search -/

section Search

variable {maxLength blockSize window : ℕ} {useEagle : Bool}

/-- Where no block is needed, one is looked for all the same. -/
theorem slidingWindowLoop_max_one (c : ℕ) (i : ℕ) (computed : List (List ℕ)) (k : ℕ) :
    slidingWindowLoop p groupIds hs c i computed k =
      slidingWindowLoop p groupIds hs (max c 1) i computed k := by
  induction i generalizing computed k with
  | zero => rfl
  | succ i ih =>
    have hlong : c ≤ k + 1 ↔ max c 1 ≤ k + 1 := by omega
    rw [slidingWindowLoop, slidingWindowLoop]
    simp only [ih, hlong]

/-- The search for a prefix that the hashes cover. -/
theorem slidingWindowHit_greatest (hgroups : groupIds ≠ [])
    (hlength : maxLength / blockSize ≤ hs.length) :
    ∃ hits L, slidingWindowHit p hs maxLength groupIds blockSize window useEagle = .ok hits ∧
      IsGreatest {m | m ≤ maxLength / blockSize ∧ RunSearch.EndsAt (CachedAt p groupIds hs)
        (max (cdiv (window - 1) blockSize + if useEagle then 1 else 0) 1) m} L ∧
      Rows (InWindow p hs (cdiv (window - 1) blockSize) (if useEagle then L - 1 else L))
        (if useEagle then L - 1 else L) groupIds hits := by
  have hnull : ∀ g j, Passed p hs (maxLength / blockSize) 0 g j p.nullBlock := fun _ _ =>
    ⟨.inl rfl, by omega⟩
  obtain ⟨hits, L, hloop, hgreatest, hrows⟩ := slidingWindowLoop_greatest hgroups hlength
    (.start (lt_max_of_lt_right Nat.one_pos)) (rows_replicate hnull groupIds)
  rw [← slidingWindowLoop_max_one] at hloop
  refine ⟨_, L, Fallible.bind_eq_ok.mpr ⟨hits, hloop, rfl⟩, hgreatest, ?_⟩
  refine (rows_dropLastHit useEagle hrows).imp_lt fun g j b hlt hb => ⟨hb.1, fun hle => hb.2 ?_⟩
  cases useEagle with
  | false => exact (show L ≤ j + cdiv (window - 1) blockSize from hle).trans (by omega)
  | true =>
    have hle : L - 1 ≤ j + cdiv (window - 1) blockSize := hle
    have hlt : j < L - 1 := hlt
    simp only [if_true]
    omega

/-- The search looks up the last hash first, and fails where there is none. -/
theorem slidingWindowHit_short (hshort : hs.length < maxLength / blockSize) :
    slidingWindowHit p hs maxLength groupIds blockSize window useEagle = .error .indexError := by
  obtain ⟨i, hi⟩ := Nat.exists_eq_succ_of_ne_zero (show maxLength / blockSize ≠ 0 by omega)
  have hnone : hs[i]? = none := List.getElem?_eq_none (by omega)
  rw [slidingWindowHit]
  simp only [hi]
  rw [slidingWindowLoop, hnone]
  rfl

/-- The search returns the longest prefix of whose last window all blocks are cached, and for a
draft head one block less of the longest one that ends with one more cached block. -/
def ExactHit (p : BlockPool) (hs : List BlockHash) (maxLength : ℕ) (groupIds : List ℕ)
    (blockSize window : ℕ) (useEagle : Bool) : Prop :=
  ∃ hits L, slidingWindowHit p hs maxLength groupIds blockSize window useEagle = .ok hits ∧
    IsGreatest {m | m ≤ maxLength / blockSize ∧ RunSearch.EndsAt (CachedAt p groupIds hs)
      (cdiv (window - 1) blockSize + if useEagle then 1 else 0) m} L ∧
    Rows (InWindow p hs (cdiv (window - 1) blockSize) (if useEagle then L - 1 else L))
      (if useEagle then L - 1 else L) groupIds hits

/-- The search is exact if and only if there is a hash for every block it may look for. -/
theorem exactHit_iff (hgroups : groupIds ≠ []) (hblock : 1 ≤ blockSize) (hwindow : 2 ≤ window) :
    ExactHit p hs maxLength groupIds blockSize window useEagle ↔
      maxLength / blockSize ≤ hs.length := by
  constructor
  · rintro ⟨hits, L, hok, -⟩
    by_contra hshort
    rw [slidingWindowHit_short (not_le.mp hshort)] at hok
    cases hok
  · intro hlength
    have hpos : 1 ≤ cdiv (window - 1) blockSize := by
      rw [cdiv, Nat.le_div_iff_mul_le hblock]
      omega
    have h := @slidingWindowHit_greatest p _ _ _ _ window useEagle hgroups hlength
    rwa [max_eq_left (hpos.trans (Nat.le_add_right _ _))] at h

end Search

/-- The hashes of two blocks of one token each. -/
def twoHashes : List BlockHash :=
  [hashBlockTokens encodedHash none [7] none, hashBlockTokens encodedHash (some 1) [8] none]

/-- Only the second block is cached, and the window reaches back by one token. -/
theorem exactHit_iff_second : ∃ p, BlockPool.new 3 true false = .ok p ∧
    slidingWindowHit (p.insertCached 1 ⟨hashBlockTokens encodedHash (some 1) [8] none, 0⟩) twoHashes
      2 [0] 1 2 false = .ok [[0, 1]] ∧
    IsGreatest {m | m ≤ 2 ∧ RunSearch.EndsAt
      (CachedAt (p.insertCached 1 ⟨hashBlockTokens encodedHash (some 1) [8] none, 0⟩) [0] twoHashes)
      1 m} 2 := by
  obtain ⟨p, hp⟩ : ∃ p, BlockPool.new 3 true false = .ok p := ⟨_, rfl⟩
  obtain ⟨hits, L, hok, hgreatest, hrows⟩ := (@exactHit_iff
    (p.insertCached 1 ⟨hashBlockTokens encodedHash (some 1) [8] none, 0⟩) twoHashes [0] 2 1 2 false
    (by decide) le_rfl le_rfl).mpr (by decide)
  have hhits : (slidingWindowHit
      (p.insertCached 1 ⟨hashBlockTokens encodedHash (some 1) [8] none, 0⟩) twoHashes 2 [0] 1 2
      false).toOption = some [[0, 1]] := by
    cases hp
    decide +kernel
  have hhits := Fallible.toOption_eq_some.mp hhits
  cases hok.symm.trans hhits
  obtain rfl : 2 = L := hrows.length_head (by decide)
  exact ⟨p, hp, hhits, hgreatest⟩

/-- Of ten tokens, those of the first block have been hashed. -/
theorem not_exactHit_hashed_less : ∃ p, BlockPool.new 4 true false = .ok p ∧
    slidingWindowHit p [hashBlockTokens encodedHash none [7, 7, 7, 7] none] 9 [0] 4 8 false =
      .error .indexError ∧
    ¬ExactHit p [hashBlockTokens encodedHash none [7, 7, 7, 7] none] 9 [0] 4 8 false := by
  obtain ⟨p, hp⟩ : ∃ p, BlockPool.new 4 true false = .ok p := ⟨_, rfl⟩
  have hfails : slidingWindowHit p [hashBlockTokens encodedHash none [7, 7, 7, 7] none] 9 [0] 4 8
      false = .error .indexError := slidingWindowHit_short (by decide)
  refine ⟨p, hp, hfails, ?_⟩
  rintro ⟨hits, L, hok, -⟩
  cases hfails.symm.trans hok

end Kv
