import Mosaic.Kv.Conservation

/-!
# The assertions of caching

When blocks of a request are cached, the block before them must have a hash, and they must have
none and must not be the null block. Both hold as long as the last cached block of a request is
not replaced by the null block before the next block is full. A window that is not longer than a
block, and a chunk without hits, do replace it.
-/

namespace Kv

open List Fallible Function

/-! ### Cached blocks are leading blocks -/

/-- The first `n` blocks of a table have hashes, except for null blocks, and the others have
none. -/
structure HashedUpTo (p : BlockPool) (blocks : List ℕ) (n : ℕ) : Prop where
  le : n ≤ blocks.length
  hashed : ∀ (i b : ℕ), i < n → blocks[i]? = some b → b ≠ p.nullBlock → (p.blockHash b).isSome
  fresh : ∀ (i b : ℕ), n ≤ i → blocks[i]? = some b → p.blockHash b = none

theorem HashedUpTo.congr {p p' : BlockPool} {blocks : List ℕ} {n : ℕ} (h : HashedUpTo p blocks n)
    (hnull : p'.nullBlock = p.nullBlock)
    (hhash : ∀ b ∈ blocks, p'.blockHash b = p.blockHash b) : HashedUpTo p' blocks n := by
  refine ⟨h.le, ?_, ?_⟩
  · intro i b hi hb hne
    rw [hhash b (mem_of_getElem? hb)]
    exact h.hashed i b hi hb (hnull ▸ hne)
  · intro i b hi hb
    rw [hhash b (mem_of_getElem? hb)]
    exact h.fresh i b hi hb

/-- Every table of every request is hashed up to the number of its cached blocks. -/
def KVCacheManager.Boundaries (s : KVCacheManager) : Prop :=
  ∀ g r n, (s.managers g).numCachedBlock r = some n → HashedUpTo s.blockPool (s.tables (g, r)) n

open KVCacheManager

variable {env : HashEnv} {s s' : KVCacheManager} {free : List ℕ}

/-- Skipped blocks become null blocks. -/
theorem HashedUpTo.skip {p p' : BlockPool} {blocks blocks' removed : List ℕ} {n k : ℕ}
    (h : HashedUpTo p blocks n) (hnull : p'.nullBlock = p.nullBlock)
    (hhash : p'.blockHash = p.blockHash) (hnone : p.blockHash p.nullBlock = none)
    (hloop : SingleTypeManager.removeLoop p.nullBlock k blocks = .ok (blocks', removed)) :
    HashedUpTo p' blocks' n := by
  obtain ⟨hkeep, -, hlength⟩ := removeLoop_getElem? hloop
  refine ⟨hlength ▸ h.le, ?_, ?_⟩
  · intro i b hi hb hne
    rw [hnull] at hne
    rw [hhash]
    exact h.hashed i b hi (hkeep i b hb hne) hne
  · intro i b hi hb
    rw [hhash]
    by_cases hne : b = p.nullBlock
    · rw [hne]
      exact hnone
    · exact h.fresh i b hi (hkeep i b hb hne)

/-- New blocks have no hashes. -/
theorem HashedUpTo.append {p p' : BlockPool} {blocks newBlocks : List ℕ} {n : ℕ}
    (h : HashedUpTo p blocks n) (hnull : p'.nullBlock = p.nullBlock)
    (hhash : ∀ b, p'.blockHash b = if b ∈ newBlocks then none else p.blockHash b)
    (hnew : ∀ b ∈ blocks, b ∉ newBlocks) : HashedUpTo p' (blocks ++ newBlocks) n := by
  refine ⟨?_, ?_, ?_⟩
  · rw [length_append]
    exact h.le.trans (Nat.le_add_right _ _)
  · intro i b hi hb hne
    rw [getElem?_append_left (hi.trans_le h.le)] at hb
    rw [hhash, if_neg (hnew b (mem_of_getElem? hb))]
    exact h.hashed i b hi hb (hnull ▸ hne)
  · intro i b hi hb
    rw [hhash]
    split
    · rfl
    · rename_i hnot
      rw [getElem?_append] at hb
      split at hb
      · exact h.fresh i b hi hb
      · exact absurd (mem_of_getElem? hb) hnot

/-- Full blocks of one table are cached, and those of the other tables are not among them. -/
theorem KVCacheManager.Boundaries.cache (h : s.Boundaries) (hcons : Consistent env s free)
    {r : Request} {p : BlockPool} {hashes : List BlockHash} {g numCached numFull blockSize : ℕ}
    (hnum : (s.managers g).numCachedBlock r.requestId = some numCached)
    (hle : numCached ≤ numFull) (hlength : numFull ≤ (s.tables (g, r.requestId)).length)
    (hnull : s.blockPool.nullBlock ∉
      BlockPool.newFullBlocks (s.tables (g, r.requestId)) numCached numFull)
    (hok : s.blockPool.cacheFullBlocks env r (s.tables (g, r.requestId))
      (s.reqToBlockHashes r.requestId) numCached numFull blockSize g = .ok (p, hashes))
    (g' : ℕ) (r' : String) (n : ℕ)
    (hn : (if (g', r') = (g, r.requestId) then some numFull
      else (s.managers g').numCachedBlock r') = some n) :
    HashedUpTo p (s.tables (g', r')) n := by
  have hsharing := hcons.sharing
  rcases BlockPool.cacheFullBlocks_eq_ok hok with
    ⟨rfl, rfl, rfl⟩ | ⟨-, parent, hparent, hcaches, -, -⟩
  · split at hn
    · rename_i hx
      obtain ⟨rfl, rfl⟩ := Prod.mk.inj hx
      exact h g' r.requestId n (hnum.trans hn)
    · exact h g' r' n hn
  · have hsame := hcaches.same.nullBlock
    -- No block loses its hash.
    have hkept : ∀ b, (s.blockPool.blockHash b).isSome → (p.blockHash b).isSome := by
      intro b hsome
      rw [hcaches.others b]
      · exact hsome
      · intro hmem
        rw [hcaches.fresh b hmem] at hsome
        cases hsome
    -- A block that is cached here is held by this table alone, below the new boundary.
    have hunique : ∀ (x : ℕ × String) (i b : ℕ), (s.tables x)[i]? = some b →
        b ∈ BlockPool.newFullBlocks (s.tables (g, r.requestId)) numCached numFull →
        x = (g, r.requestId) ∧ i < numFull := by
      intro x i b hb hmem
      have hne : b ≠ s.blockPool.nullBlock := fun heq => hnull (heq ▸ hmem)
      obtain ⟨_, hk, hlt, hpos⟩ := Sharing.mem_newFullBlocks.mp hmem
      obtain ⟨rfl, rfl⟩ :=
        hsharing.unique_of_blockHash_eq_none (hcaches.fresh b hmem) hne hb hpos
      exact ⟨rfl, hlt⟩
    split at hn
    · rename_i hx
      obtain ⟨rfl, rfl⟩ := Prod.mk.inj hx
      cases hn
      -- This table: the old boundary covers the blocks before, the loop those after it.
      have hold := h g' r.requestId numCached hnum
      refine ⟨hlength, ?_, ?_⟩
      · intro i b hi hb hne
        by_cases hcached : i < numCached
        · exact hkept b (hold.hashed i b hcached hb (hsame ▸ hne))
        · have hmem := Sharing.mem_newFullBlocks.mpr ⟨i, not_lt.mp hcached, hi, hb⟩
          obtain ⟨j, hj⟩ := mem_iff_getElem?.mp hmem
          obtain ⟨h', -, hkey⟩ := hcaches.cached j b hj
          rw [hkey]
          rfl
      · intro i b hi hb
        rw [hcaches.others b]
        · exact hold.fresh i b (hle.trans hi) hb
        · intro hmem
          have := (hunique _ i b hb hmem).2
          omega
    · rename_i hx
      -- Another table: none of its blocks is touched.
      refine (h g' r' n hn).congr hsame ?_
      intro b hb
      obtain ⟨i, hi⟩ := mem_iff_getElem?.mp hb
      exact hcaches.others b fun hmem => hx (hunique _ i b hi hmem).1

theorem Move.boundaries (hfree : env.CollisionFree) {x y : KVCacheManager × List ℕ}
    (hmove : Move env True x y) (hcons : Consistent env x.1 x.2) (h : x.1.Boundaries) :
    y.1.Boundaries := by
  have hsharing := hcons.sharing
  have hnull := (hmove.consistent hfree hcons).2.nullBlock
  cases hmove with
  | @skip s free g k r blocks removed p hg _ hloop hok =>
    obtain ⟨queue, hp⟩ := BlockPool.freeBlocks_eq_ok hok
    have hhash : p.blockHash = s.blockPool.blockHash := by
      rw [hp]
    intro g' r' n hn
    rw [numCachedBlock_setBlocks] at hn
    rw [tables_setBlocks]
    by_cases hx : (g', r') = (g, r)
    · obtain ⟨rfl, rfl⟩ := Prod.mk.inj hx
      rw [update_self]
      exact (h g' r' n hn).skip hnull hhash hsharing.null hloop
    · rw [update_of_ne hx]
      exact (h g' r' n hn).congr hnull fun b _ => congrFun hhash b
  | @release s free g r p hg hok =>
    obtain ⟨queue, hp⟩ := BlockPool.freeBlocks_eq_ok hok
    have hhash : p.blockHash = s.blockPool.blockHash := by
      rw [hp]
    intro g' r' n hn
    rw [numCachedBlock_setNumCached] at hn
    rw [tables_setNumCached, tables_setBlocks]
    split at hn
    · cases hn
    · rename_i hx
      rw [numCachedBlock_setBlocks] at hn
      rw [update_of_ne hx]
      exact (h g' r' n hn).congr hnull fun b _ => congrFun hhash b
  | @take s s' free r hits p hhits hok hsave =>
    obtain ⟨htables, -, hfresh⟩ := tables_saveNewComputedBlocks hsave
    obtain ⟨managers, rfl, houtside, hinside⟩ := saveNewComputedBlocks_eq_ok hsave
    obtain ⟨-, hhash, -, -⟩ := hsharing.take hfree hhits hfresh hok
    intro g r' n hn
    have hkept : ∀ {n}, (s.managers g).numCachedBlock r' = some n →
        HashedUpTo p (s.tables (g, r')) n := fun hn =>
      (h g r' _ hn).congr hnull fun b _ => congrFun hhash b
    rw [htables]
    change HashedUpTo p (Sharing.takeHits s.tables r s.numKvCacheGroups hits (g, r')) n
    by_cases hx : g < s.numKvCacheGroups ∧ r' = r
    · obtain ⟨hlt, rfl⟩ := hx
      rw [Sharing.takeHits_self hlt]
      obtain ⟨-, -, -, ⟨-, hempty, hm⟩ | ⟨-, hempty, hm⟩⟩ :=
        SingleTypeManager.saveNewComputedBlocks_eq_ok (hinside g hlt)
      · -- the hits are the whole table
        have htable : s.tables (g, r') = [] := hempty
        obtain rfl : (hits.getD g []).length = n := by
          simpa [hm] using hn
        rw [htable, nil_append]
        refine ⟨le_rfl, ?_, ?_⟩
        · intro i b _ hb hne
          obtain ⟨h', -, hkey⟩ :=
            hsharing.hit_blockHash (Sharing.hits_getD hhits hlt hb) (hnull ▸ hne)
          rw [hhash, hkey]
          rfl
        · intro i b hi hb
          rw [getElem?_eq_none hi] at hb
          cases hb
      · rw [hempty, append_nil]
        exact hkept (by simpa [hm] using hn)
    · rw [Sharing.takeHits_of_ne hx]
      apply hkept
      by_cases hlt : g < s.numKvCacheGroups
      · have hr : r' ≠ r := fun heq => hx ⟨hlt, heq⟩
        obtain ⟨-, -, -, ⟨-, -, hm⟩ | ⟨-, -, hm⟩⟩ :=
          SingleTypeManager.saveNewComputedBlocks_eq_ok (hinside g hlt)
        · simpa [hm, hr] using hn
        · simpa [hm] using hn
      · simpa [houtside g (not_lt.mp hlt)] using hn
  | @allocate s free g k r newBlocks p hg hok =>
    obtain ⟨-, rfl, hhash, -, -⟩ := hsharing.allocate (g, r) hok
    have hnew : ∀ x, ∀ b ∈ s.tables x, b ∉ free.take k := fun x b hb hmem =>
      hsharing.notMem_of_free (mem_of_mem_take hmem) x hb
    intro g' r' n hn
    rw [numCachedBlock_setBlocks] at hn
    rw [tables_setBlocks]
    by_cases hx : (g', r') = (g, r)
    · obtain ⟨rfl, rfl⟩ := Prod.mk.inj hx
      rw [update_self]
      exact (h g' r' n hn).append hnull hhash (hnew _)
    · rw [update_of_ne hx]
      refine (h g' r' n hn).congr hnull fun b hb => ?_
      exact (hhash b).trans (if_neg (hnew _ b hb))
  | @cache s free g numCached numFull blockSize r p hashes hg hcaching hnum hcareful hnew hok =>
    obtain ⟨hle, hlength⟩ := hcareful trivial
    intro g' r' n hn
    change ((s.setGroup g _ p).managers g').numCachedBlock r' = some n at hn
    change HashedUpTo p ((s.setGroup g _ p).tables (g', r')) n
    rw [tables_setNumCached, tables_setGroup_self]
    refine h.cache hcons hnum hle hlength hnew hok g' r' n ?_
    rw [numCachedBlock_setNumCached] at hn
    split at hn
    · rwa [if_pos ‹_›]
    · rw [if_neg ‹_›]
      by_cases hg' : g' = g
      · rw [hg', managers_setGroup_self] at hn
        rwa [hg']
      · rwa [managers_setGroup_of_ne hg'] at hn
  | @hash s free r hashes hempty hchain => exact h
  | @reset s free =>
    intro g r n hn
    rcases hsharing.valid.resetPrefixCache with hsame | ⟨hfull, -, -, -, hhash, -⟩
    · change HashedUpTo s.blockPool.resetPrefixCache.2 (s.tables (g, r)) n
      rw [hsame]
      exact h g r n hn
    · refine ⟨(h g r n hn).le, ?_, fun i b _ _ => hhash b⟩
      -- no block is in use, so that the tables hold null blocks only
      intro i b _ hb hne
      have hne' : b ≠ s.blockPool.nullBlock := hnull ▸ hne
      have hpos := hsharing.refCnt_pos (mem_of_getElem? hb) hne'
      rw [hsharing.refCnt_eq_zero hfull hne'] at hpos
      cases hpos

theorem Moves.boundaries (hfree : env.CollisionFree) {x y : KVCacheManager × List ℕ}
    (hmoves : Moves env True x y) (hcons : Consistent env x.1 x.2) (h : x.1.Boundaries) :
    y.1.Boundaries := by
  induction hmoves with
  | refl => exact h
  | tail hmoves hmove ih =>
    exact hmove.boundaries hfree (Moves.consistent hfree hmoves hcons).1 ih

/-! ### Assertions -/

/-- What is asserted when the blocks from `numCached` to `numFull` of a table are cached, and that
they are real blocks. -/
structure CacheAssertions (p : BlockPool) (blocks : List ℕ) (blockHashes : List BlockHash)
    (numCached numFull : ℕ) : Prop where
  hashes : numCached ≤ blockHashes.length
  prev : numCached ≠ 0 → ∃ b, blocks[numCached - 1]? = some b ∧ (p.blockHash b).isSome
  fresh : ∀ b ∈ BlockPool.newFullBlocks blocks numCached numFull,
    p.blockHash b = none ∧ b ≠ p.nullBlock

namespace KVCacheManager

/-- The state in which a call caches the blocks of a request, and for how many of its tokens. -/
def cachingState (env : HashEnv) (s : KVCacheManager) :
    Call → Except KvError (Option (KVCacheManager × Request × ℕ))
  | .allocateComputed r numNewTokens numLookaheadTokens delayCacheBlocks => do
    let (s, hits, hitLength) ← s.getComputedBlocks env r
    let (s, newBlocks) ← s.prepareSlots r numNewTokens hitLength hits numLookaheadTokens
    return if newBlocks.isSome && s.enableCaching && !delayCacheBlocks then
      some (s, r, min (r.numComputedTokens + hitLength + numNewTokens) r.numTokens) else none
  | .allocateSlots r numNewTokens numLookaheadTokens delayCacheBlocks => do
    let (s, newBlocks) ← s.prepareSlots r numNewTokens 0 s.createEmptyBlockList numLookaheadTokens
    return if newBlocks.isSome && s.enableCaching && !delayCacheBlocks then
      some (s, r, min (r.numComputedTokens + numNewTokens) r.numTokens) else none
  | .cacheBlocks r numComputedTokens =>
    .ok (if s.enableCaching then some (s, r, numComputedTokens) else none)
  | _ => .ok none

/-- The assertions hold for each group, when its blocks are cached after those of the groups before
it, and none of them is raised. -/
def AssertionsHold (env : HashEnv) (s : KVCacheManager) (c : Call) : Prop :=
  ∀ s₁ r numTokens, s.cachingState env c = .ok (some (s₁, r, numTokens)) →
    ∀ g < s₁.numKvCacheGroups, ∀ s₂,
      (List.range g).foldlM (cacheGroup env r numTokens) s₁ = .ok s₂ → ∀ numCached,
        (s₂.managers g).numCachedBlock r.requestId = some numCached →
          numCached ≠ numTokens / (s₂.managers g).blockSize →
            CacheAssertions s₂.blockPool (s₂.tables (g, r.requestId))
              (s₂.reqToBlockHashes r.requestId) numCached
              (numTokens / (s₂.managers g).blockSize) ∧
            ∀ message, s₂.blockPool.cacheFullBlocks env r (s₂.tables (g, r.requestId))
              (s₂.reqToBlockHashes r.requestId) numCached
              (numTokens / (s₂.managers g).blockSize) (s₂.managers g).blockSize g ≠
                .error (.assertionError message)

end KVCacheManager

/-- The calls that cache blocks. -/
theorem cachingState_eq_some {c : Call} {s₁ : KVCacheManager} {r : Request} {numTokens : ℕ}
    (h : s.cachingState env c = .ok (some (s₁, r, numTokens))) :
    s₁.enableCaching = true ∧
    ((∃ numNewTokens numLookaheadTokens s₀ hits hitLength newBlocks,
        c = .allocateComputed r numNewTokens numLookaheadTokens false ∧
        s.getComputedBlocks env r = .ok (s₀, hits, hitLength) ∧
        s₀.prepareSlots r numNewTokens hitLength hits numLookaheadTokens =
          .ok (s₁, some newBlocks) ∧
        numTokens = min (r.numComputedTokens + hitLength + numNewTokens) r.numTokens) ∨
      (∃ numNewTokens numLookaheadTokens newBlocks,
        c = .allocateSlots r numNewTokens numLookaheadTokens false ∧
        s.prepareSlots r numNewTokens 0 s.createEmptyBlockList numLookaheadTokens =
          .ok (s₁, some newBlocks) ∧
        numTokens = min (r.numComputedTokens + numNewTokens) r.numTokens) ∨
      (c = .cacheBlocks r numTokens ∧ s₁ = s)) := by
  cases c with
  | allocateComputed r' numNewTokens numLookaheadTokens delayCacheBlocks =>
    obtain ⟨⟨s₀, hits, hitLength⟩, hget, h⟩ := bind_eq_ok.mp h
    obtain ⟨⟨s₂, newBlocks⟩, hprepare, h⟩ := bind_eq_ok.mp h
    obtain ⟨hsome, hcaching, rfl, rfl, rfl, rfl⟩ :
        newBlocks.isSome = true ∧ s₂.enableCaching = true ∧ delayCacheBlocks = false ∧
          s₂ = s₁ ∧ r' = r ∧
          min (r'.numComputedTokens + hitLength + numNewTokens) r'.numTokens = numTokens := by
      simpa [pure, Except.pure, and_assoc] using h
    obtain ⟨blocks, rfl⟩ := Option.isSome_iff_exists.mp hsome
    exact ⟨hcaching, .inl ⟨_, _, _, _, _, _, rfl, hget, hprepare, rfl⟩⟩
  | allocateSlots r' numNewTokens numLookaheadTokens delayCacheBlocks =>
    obtain ⟨⟨s₂, newBlocks⟩, hprepare, h⟩ := bind_eq_ok.mp h
    obtain ⟨hsome, hcaching, rfl, rfl, rfl, rfl⟩ :
        newBlocks.isSome = true ∧ s₂.enableCaching = true ∧ delayCacheBlocks = false ∧
          s₂ = s₁ ∧ r' = r ∧
          min (r'.numComputedTokens + numNewTokens) r'.numTokens = numTokens := by
      simpa [pure, Except.pure, and_assoc] using h
    obtain ⟨blocks, rfl⟩ := Option.isSome_iff_exists.mp hsome
    exact ⟨hcaching, .inr (.inl ⟨_, _, _, rfl, hprepare, rfl⟩)⟩
  | cacheBlocks r' numComputedTokens =>
    obtain ⟨hcaching, rfl, rfl, rfl⟩ :
        s.enableCaching = true ∧ s = s₁ ∧ r' = r ∧ numComputedTokens = numTokens := by
      simpa [KVCacheManager.cachingState] using h
    exact ⟨hcaching, .inr (.inr ⟨rfl, rfl⟩)⟩
  | _ => cases h

/-! ### What keeps the hashes -/

namespace KVCacheManager

/-- The last cached block of a request is neither null nor skipped, if a block after it is full with
`numTokens` tokens. -/
def LastCachedNotNull (s : KVCacheManager) (requestId : String) (numTokens : ℕ)
    (skipped : ℕ → ℕ) : Prop :=
  ∀ g < s.numKvCacheGroups, ∀ numCached,
    (s.managers g).numCachedBlock requestId = some numCached → numCached ≠ 0 →
      numCached < numTokens / (s.managers g).blockSize →
        skipped g < numCached ∧
          (s.tables (g, requestId))[numCached - 1]? ≠ some s.blockPool.nullBlock

/-- The last hit of a new request is not null, if a block after it is full with `numTokens`
tokens. -/
def LastHitNotNull (s : KVCacheManager) (requestId : String) (hits : List (List ℕ))
    (numTokens : ℕ) : Prop :=
  ∀ g < s.numKvCacheGroups, (s.managers g).numCachedBlock requestId = none →
    (hits.getD g []).length < numTokens / (s.managers g).blockSize →
      (hits.getD g []).getLast? ≠ some s.blockPool.nullBlock

/-- If the call caches blocks, it does not lose the hash of the last cached one. -/
def KeepsHashes (env : HashEnv) (s : KVCacheManager) (c : Call) : Prop :=
  s.CachesBlocks env c →
    match c with
    | .allocateComputed r numNewTokens _ _ =>
        (s.LastCachedNotNull r.requestId r.numTokens fun g =>
          (s.managers g).numSkippedBlocks r.requestId r.numComputedTokens) ∧
        ∀ s₁ hits hitLength, s.getComputedBlocks env r = .ok (s₁, hits, hitLength) →
          s.LastHitNotNull r.requestId hits
            (min (r.numComputedTokens + hitLength + numNewTokens) r.numTokens)
    | .allocateSlots r numNewTokens _ _ =>
        s.LastCachedNotNull r.requestId (min (r.numComputedTokens + numNewTokens) r.numTokens)
          fun g => (s.managers g).numSkippedBlocks r.requestId r.numComputedTokens
    | .cacheBlocks r numComputedTokens =>
        s.LastCachedNotNull r.requestId numComputedTokens fun _ => 0
    | _ => True

end KVCacheManager

theorem LastCachedNotNull.mono {r : String} {numTokens numTokens' : ℕ} {skipped : ℕ → ℕ}
    (h : s.LastCachedNotNull r numTokens skipped) (hle : numTokens' ≤ numTokens) :
    s.LastCachedNotNull r numTokens' skipped := by
  intro g hg numCached hcached hpos hlt
  exact h g hg numCached hcached hpos (hlt.trans_le (Nat.div_le_div_right hle))

/-- The last cached block is a real one after the preparation. -/
theorem Prepared.lastCachedNotNull {r : String} {numComputedTokens numSlots numTokens : ℕ}
    {hits newBlocks : List (List ℕ)}
    (h : Prepared s s' r numComputedTokens numSlots hits newBlocks) (hshape : SameShape s s')
    (hlast : s.LastCachedNotNull r numTokens fun g =>
      (s.managers g).numSkippedBlocks r numComputedTokens)
    (hhit : s.LastHitNotNull r hits numTokens) :
    s'.LastCachedNotNull r numTokens fun _ => 0 := by
  intro g hg numCached hcached hpos hlt
  rw [hshape.numKvCacheGroups] at hg
  have hsize : (s'.managers g).blockSize = (s.managers g).blockSize :=
    congrArg KVCacheSpec.blockSize (congrFun hshape.spec g)
  rw [hsize] at hlt
  refine ⟨pos_of_ne_zero hpos, ?_⟩
  intro hsome
  obtain ⟨_, htable, hold⟩ := h.blocks g hg
  rw [htable, getElem?_append] at hsome
  split at hsome
  · rcases hold with ⟨hnone, rfl, hnum⟩ | ⟨-, hnum, -, hkept⟩
    · rw [hnum, Option.some.injEq] at hcached
      subst hcached
      rw [h.nullBlock, ← getLast?_eq_getElem?] at hsome
      exact hhit g hg hnone hlt hsome
    · rw [hnum] at hcached
      obtain ⟨hskipped, hne⟩ := hlast g hg numCached hcached hpos hlt
      rw [hkept _ (Nat.le_sub_one_of_lt hskipped), h.nullBlock] at hsome
      exact hne hsome
  · exact (h.single g _ (mem_of_getElem? hsome)).1 rfl

/-- Where the last cached block and the new full blocks are real ones, the assertions hold for each
group. -/
theorem cacheAssertions_cacheGroups (hfree : env.CollisionFree) (hcons : Consistent env s free)
    (hbound : s.Boundaries) {r : Request} {numTokens g : ℕ} (hg : g < s.numKvCacheGroups)
    (hcaching : s.enableCaching = true) (hgrow : s.FullBlocksGrow r.requestId numTokens)
    (hnull : s.NewBlocksNotNull r.requestId numTokens fun _ => 0)
    (hlast : s.LastCachedNotNull r.requestId numTokens fun _ => 0)
    (hok : (List.range g).foldlM (cacheGroup env r numTokens) s = .ok s') {numCached : ℕ}
    (hnum : (s'.managers g).numCachedBlock r.requestId = some numCached)
    (hne : numCached ≠ numTokens / (s'.managers g).blockSize) :
    CacheAssertions s'.blockPool (s'.tables (g, r.requestId)) (s'.reqToBlockHashes r.requestId)
      numCached (numTokens / (s'.managers g).blockSize) := by
  obtain ⟨⟨_, hmoves⟩, hcached⟩ :=
    moves_cacheGroups hfree hcons hg.le hcaching (fun _ : True => hgrow) hnull hok
  obtain ⟨hcons', -⟩ := hmoves.consistent hfree hcons
  have hupTo := hmoves.boundaries hfree hcons hbound g r.requestId numCached hnum
  have hmanager := hcached.later g le_rfl
  dsimp only at hupTo
  rw [hmanager] at hnum hne ⊢
  obtain ⟨hle, -⟩ := hgrow g hg numCached hnum
  have hprev : numCached ≠ 0 → ∃ b, (s'.tables (g, r.requestId))[numCached - 1]? = some b ∧
      (s'.blockPool.blockHash b).isSome := by
    intro hpos
    have hlength := hupTo.le
    have hget : (s'.tables (g, r.requestId))[numCached - 1]? =
        some (s'.tables (g, r.requestId))[numCached - 1] :=
      getElem?_eq_getElem (by omega)
    refine ⟨_, hget, hupTo.hashed _ _ (by omega) hget ?_⟩
    intro heq
    refine (hlast g hg numCached hnum hpos (by omega)).2 ?_
    rw [← hcached.tables, hget, heq, hcached.nullBlock]
  refine ⟨?_, hprev, ?_⟩
  · by_cases hpos : numCached = 0
    · omega
    · -- a block with a hash has the hash of its request
      obtain ⟨b, hb, hsome⟩ := hprev hpos
      obtain ⟨key, hkey⟩ := Option.isSome_iff_exists.mp hsome
      have hname := (hcons'.sharing.named g r.requestId _ b key hb hkey).2
      have := (List.getElem?_eq_some_iff.mp hname).1
      dsimp only at this
      omega
  · intro b hb
    obtain ⟨i, hi, hlt, hget⟩ := Sharing.mem_newFullBlocks.mp hb
    refine ⟨hupTo.fresh i b hi hget, ?_⟩
    rintro rfl
    rw [hcached.tables, hcached.nullBlock] at hget
    exact (hnull g hg numCached hnum i hi hlt).2 hget

/-! ### No assertion is raised -/

section Raised

variable {r : Request} {blockSize group idx : ℕ} {message : String}

theorem genMmExtraHashKeys_ne_assertionError {startTokenIdx endTokenIdx : ℕ} :
    genMmExtraHashKeys r startTokenIdx endTokenIdx (-1) ≠ .error (.assertionError message) := by
  unfold genMmExtraHashKeys
  split
  · nofun
  · rename_i last hlast
    have hpos : r.mmPositions ≠ [] := by
      intro hempty
      rw [hempty] at hlast
      cases hlast
    have hlength := length_pos_of_ne_nil hpos
    split
    · nofun
    · split
      · nofun
      · rw [if_neg (by omega)]
        nofun

/-- The hash of a block with all its tokens can be computed. -/
theorem fullBlockHash_ne_assertionError {known hashes : List BlockHash} {prev : Option ℤ}
    (htoks : (r.blockTokens blockSize idx).length = blockSize) :
    BlockPool.fullBlockHash env r blockSize idx known hashes prev ≠
      .error (.assertionError message) := by
  unfold BlockPool.fullBlockHash
  split
  · nofun
  · rw [if_neg (not_not.mpr htoks)]
    intro h
    rcases bind_eq_error.mp h with h | ⟨x, -, h⟩
    · rcases bind_eq_error.mp h with h | ⟨x, -, h⟩
      · exact genMmExtraHashKeys_ne_assertionError h
      · cases h
    · cases h

theorem cacheLoop_ne_assertionError {blocks : List ℕ} {known hashes : List BlockHash}
    {prev : Option ℤ} {p : BlockPool} (hnodup : blocks.Nodup)
    (hfresh : ∀ b ∈ blocks, p.blockHash b = none)
    (htoks : ∀ i, idx ≤ i → i < idx + blocks.length →
      (r.blockTokens blockSize i).length = blockSize) :
    BlockPool.cacheLoop env r blockSize group blocks known idx prev p hashes ≠
      .error (.assertionError message) := by
  induction blocks generalizing known hashes prev p idx with
  | nil => nofun
  | cons b blocks ih =>
    rw [BlockPool.cacheLoop, hfresh b (mem_cons_self ..)]
    obtain ⟨hnot, hnodup⟩ := nodup_cons.mp hnodup
    intro h
    rcases bind_eq_error.mp h with h | ⟨⟨h₁, hashes₁⟩, -, h⟩
    · exact fullBlockHash_ne_assertionError (htoks idx le_rfl (by simp)) h
    · rcases bind_eq_error.mp h with h | ⟨x, -, h⟩
      · refine ih hnodup ?_ ?_ h
        · intro b' hb'
          have hne : b' ≠ b := fun heq => hnot (heq ▸ hb')
          change update p.blockHash b _ b' = none
          rw [update_of_ne hne]
          exact hfresh b' (mem_cons_of_mem _ hb')
        · intro i hi hlt
          exact htoks i (by omega) (by rw [length_cons]; omega)
      · cases h

/-- With the assertions none is raised. -/
theorem CacheAssertions.ne_assertionError {p : BlockPool} {blocks : List ℕ}
    {hashes : List BlockHash} {numCached numFull : ℕ}
    (h : CacheAssertions p blocks hashes numCached numFull)
    (hnodup : (blocks.filter (· ≠ p.nullBlock)).Nodup)
    (htoks : numFull * blockSize ≤ r.numTokens) :
    p.cacheFullBlocks env r blocks hashes numCached numFull blockSize group ≠
      .error (.assertionError message) := by
  -- The loop asserts that a block has no hash, so that no new block may come twice.
  have hblocks : (BlockPool.newFullBlocks blocks numCached numFull).Nodup := by
    have hsub : (BlockPool.newFullBlocks blocks numCached numFull).Sublist blocks :=
      (drop_sublist _ _).trans (take_sublist _ _)
    have hfilter := hnodup.sublist (hsub.filter fun b => decide (b ≠ p.nullBlock))
    rwa [filter_eq_self.mpr] at hfilter
    intro b hb
    simpa using (h.fresh b hb).2
  have hlength : (BlockPool.newFullBlocks blocks numCached numFull).length ≤
      numFull - numCached := by
    rw [BlockPool.newFullBlocks, length_drop, List.length_take]
    omega
  unfold BlockPool.cacheFullBlocks
  split
  · intro hraised
    cases hraised
  · dsimp only
    rw [if_neg (not_lt.mpr h.hashes)]
    intro hraised
    -- The three places that can raise: the hash before, the loop, and the event.
    rcases bind_eq_error.mp hraised with hraised | ⟨parent, -, hraised⟩
    · unfold BlockPool.prevBlockHashValue at hraised
      split at hraised
      · cases hraised
      · rename_i hpos
        obtain ⟨b, hb, hsome⟩ := h.prev hpos
        obtain ⟨_, hkey⟩ := Option.isSome_iff_exists.mp hsome
        rw [hb] at hraised
        simp only [hkey] at hraised
        cases hraised
    · rcases bind_eq_error.mp hraised with hraised | ⟨⟨p', hashes', values⟩, -, hraised⟩
      · refine cacheLoop_ne_assertionError hblocks (fun b hb => (h.fresh b hb).1) ?_ hraised
        intro i hi hlt
        have hfull : (i + 1) * blockSize ≤ r.numTokens :=
          (Nat.mul_le_mul_right _ (by omega)).trans htoks
        rw [Request.blockTokens, length_drop, List.length_take, ← Request.numTokens,
          min_eq_left hfull, add_mul, one_mul, Nat.add_sub_cancel_left]
      · dsimp only at hraised
        split at hraised
        · split at hraised
          · cases hraised
          · cases hraised
        · cases hraised

end Raised

/-! ### Runs -/

/-- A call of a careful scheduler that returns. -/
def CarefulStep (env : HashEnv) (s : KVCacheManager) (c : Call) (s' : KVCacheManager) : Prop :=
  s.TokensGrow c ∧ s.Step env c s'

/-- A call of a careful scheduler that returns, caches no null block and loses no hash. -/
def HashKeepingStep (env : HashEnv) (s : KVCacheManager) (c : Call) (s' : KVCacheManager) : Prop :=
  CarefulStep env s c s' ∧ s.NullFree env c ∧ s.KeepsHashes env c

theorem moves_of_hashKeeping (hfree : env.CollisionFree) (hcons : Consistent env s free)
    {calls : List Call} (run : Transition.Execution (HashKeepingStep env) s calls s') :
    ∃ free', Moves env True (s, free) (s', free') := by
  induction run with
  | start => exact ⟨free, .refl⟩
  | extend _ last ih =>
    obtain ⟨_, hmoves⟩ := ih
    obtain ⟨hcons₁, -⟩ := hmoves.consistent hfree hcons
    obtain ⟨⟨hgrow, _, hok⟩, hnull, -⟩ := last
    obtain ⟨⟨free₂, hmoves₂⟩, -⟩ := moves_call hfree hcons₁ (fun _ : True => hgrow) hnull hok
    exact ⟨free₂, hmoves.trans hmoves₂⟩

theorem allocateSlots_ne_none {r : Request}
    {numNewTokens numNewComputedTokens numLookaheadTokens : ℕ} {hits blocks : List (List ℕ)}
    {delayCacheBlocks : Bool} {s₁ : KVCacheManager}
    (hprepare : s.prepareSlots r numNewTokens numNewComputedTokens hits numLookaheadTokens =
      .ok (s₁, some blocks)) (s' : KVCacheManager) :
    s.allocateSlots env r numNewTokens numNewComputedTokens hits numLookaheadTokens
      delayCacheBlocks ≠ .ok (s', none) := by
  rw [allocateSlots_eq, hprepare]
  intro hok
  change (if _ then _ else _) = _ at hok
  split at hok
  · cases hok
  · obtain ⟨_, -, hok⟩ := bind_eq_ok.mp hok
    cases hok

/-- A call that reaches the caching of blocks caches blocks. -/
theorem cachesBlocks_of_cachingState {c : Call} {s₁ : KVCacheManager} {r : Request}
    {numTokens : ℕ} (hcall : s.cachingState env c = .ok (some (s₁, r, numTokens)))
    (hcaching : s.enableCaching = true) : s.CachesBlocks env c := by
  refine ⟨hcaching, ?_⟩
  obtain ⟨-, ⟨_, _, s₀, hits, hitLength, _, rfl, hget, hprepare, -⟩ |
    ⟨_, _, _, rfl, hprepare, -⟩ | ⟨rfl, -⟩⟩ := cachingState_eq_some hcall
  · refine ⟨rfl, fun s' hok => ?_⟩
    change s.getComputedBlocks env r >>= _ = _ at hok
    rw [hget] at hok
    exact allocateSlots_ne_none hprepare s' hok
  · exact ⟨rfl, allocateSlots_ne_none hprepare⟩
  · trivial

/-- The assertions hold for every call of a careful scheduler that caches no null block and loses no
hash. -/
theorem assertionsHold_call (hfree : env.CollisionFree) (hcons : Consistent env s free)
    (hbound : s.Boundaries) {c : Call} (hgrow : s.TokensGrow c) (hnull : s.NullFree env c)
    (hkeeps : s.KeepsHashes env c) : s.AssertionsHold env c := by
  intro s₁ r numTokens hcall g hg s₂ hloop numCached hnum hne
  have hcaching := (cachingState_eq_some hcall).1
  -- the state in which blocks are cached, and what is known about it
  obtain ⟨free₁, hmoves, hle, hgrow₁, hnull₁, hlast₁⟩ : ∃ free₁,
      Moves env True (s, free) (s₁, free₁) ∧ numTokens ≤ r.numTokens ∧
        s₁.FullBlocksGrow r.requestId numTokens ∧
        (s₁.NewBlocksNotNull r.requestId numTokens fun _ => 0) ∧
        s₁.LastCachedNotNull r.requestId numTokens fun _ => 0 := by
    obtain ⟨-, ⟨numNewTokens, numLookaheadTokens, _, hits, hitLength, newBlocks, rfl, hget,
      hprepare, rfl⟩ | ⟨numNewTokens, numLookaheadTokens, newBlocks, rfl, hprepare, rfl⟩ |
      ⟨rfl, rfl⟩⟩ := cachingState_eq_some hcall
    · obtain ⟨hmoves₀, hhits, ⟨hashes, rfl⟩, hle, hlength⟩ :=
        moves_getComputedBlocks True hcons hget
      obtain ⟨hcons₀, -⟩ := hmoves₀.consistent hfree hcons
      obtain ⟨⟨free₁, hmoves⟩, -, hprep⟩ := moves_prepareSlots True hfree hcons₀ hhits hprepare
      have hprep := hprep newBlocks rfl
      have hshape := hmoves.sameShape
      have hcaches := cachesBlocks_of_cachingState hcall (hshape.enableCaching ▸ hcaching)
      obtain ⟨hlast, hhit⟩ := hkeeps hcaches
      exact ⟨free₁, hmoves₀.trans hmoves, min_le_right _ _,
        hprep.fullBlocksGrow_min hshape (hgrow.getComputedBlocks hle hlength hashes),
        hprep.newBlocksNotNull hshape (NewBlocksNotNull.mono (hnull hcaches) (min_le_right _ _)),
        hprep.lastCachedNotNull hshape (LastCachedNotNull.mono hlast (min_le_right _ _))
          (hhit _ hits hitLength hget)⟩
    · obtain ⟨⟨free₁, hmoves⟩, -, hprep⟩ := moves_prepareSlots True hfree hcons
        (hits_createEmptyBlockList s _ _ _) hprepare
      have hprep := hprep newBlocks rfl
      have hshape := hmoves.sameShape
      have hcaches := cachesBlocks_of_cachingState hcall (hshape.enableCaching ▸ hcaching)
      refine ⟨free₁, hmoves, min_le_right _ _,
        hprep.fullBlocksGrow_min hshape (fits_createEmptyBlockList hgrow),
        hprep.newBlocksNotNull hshape (hnull hcaches),
        hprep.lastCachedNotNull hshape (hkeeps hcaches) ?_⟩
      intro g hg _ _
      rw [createEmptyBlockList_getD]
      nofun
    · have hcaches := cachesBlocks_of_cachingState hcall hcaching
      exact ⟨free, .refl, hgrow.1, hgrow.2, hnull hcaches, hkeeps hcaches⟩
  obtain ⟨hcons₁, -⟩ := hmoves.consistent hfree hcons
  have hbound₁ := hmoves.boundaries hfree hcons hbound
  have hassert := cacheAssertions_cacheGroups hfree hcons₁ hbound₁ hg hcaching hgrow₁ hnull₁
    hlast₁ hloop hnum hne
  refine ⟨hassert, fun message => hassert.ne_assertionError ?_ ?_⟩
  · obtain ⟨⟨_, hmoves₂⟩, -⟩ :=
      moves_cacheGroups hfree hcons₁ hg.le hcaching (fun _ : True => hgrow₁) hnull₁ hloop
    exact (hmoves₂.consistent hfree hcons₁).1.sharing.nodup _
  · exact (Nat.div_mul_le_self _ _).trans hle

/-- In every run of a careful scheduler that caches no null block and loses no hash, the assertions
hold for every further call of this kind. -/
theorem assertions_of_run (hfree : env.CollisionFree) {cfg : KVCacheConfig} {maxModelLen : ℕ}
    {enableCaching useEagle enableKvCacheEvents : Bool}
    (hnew : new cfg maxModelLen enableCaching useEagle enableKvCacheEvents = .ok s)
    {calls : List Call} (run : Transition.Execution (HashKeepingStep env) s calls s') {c : Call}
    (hgrow : s'.TokensGrow c) (hnull : s'.NullFree env c) (hkeeps : s'.KeepsHashes env c) :
    s'.AssertionsHold env c := by
  obtain ⟨_, hcons⟩ := consistent_new hnew
  obtain ⟨_, hmoves⟩ := moves_of_hashKeeping hfree hcons run
  obtain ⟨hcons', -⟩ := hmoves.consistent hfree hcons
  have hbound : s.Boundaries := by
    obtain ⟨-, -, hempty, -, -⟩ := new_eq_ok hnew
    intro g r n hn
    rw [(hempty g r).2] at hn
    cases hn
  exact assertionsHold_call hfree hcons' (hmoves.boundaries hfree hcons hbound) hgrow hnull hkeeps

/-! ### A window of one block -/

section Example

/-- A layer that attends to four tokens, with blocks of four tokens. -/
def slidingWindowOnly (numBlocks : ℕ) : KVCacheConfig where
  numBlocks := numBlocks
  kvCacheTensors := []
  kvCacheGroups := [⟨["window"], .slidingWindow ⟨4, 1, 1, .float16, false⟩ 4⟩]

section

variable {cfg : KVCacheConfig} {maxModelLen : ℕ}
  {enableCaching useEagle enableKvCacheEvents : Bool}
  (hnew : new cfg maxModelLen enableCaching useEagle enableKvCacheEvents = .ok s)
include hnew

theorem maxModelLen_new : s.maxModelLen = maxModelLen := by
  obtain ⟨_, -, hnew⟩ := bind_eq_ok.mp hnew
  obtain ⟨_, -, hnew⟩ := bind_eq_ok.mp hnew
  obtain ⟨_, -, hnew⟩ := bind_eq_ok.mp hnew
  cases hnew
  rfl

theorem tokensGrow_new {r : Request} (hle : r.numTokens ≤ s.maxModelLen)
    (numNewTokens numLookaheadTokens : ℕ) :
    s.TokensGrow (.allocateComputed r numNewTokens numLookaheadTokens false) := by
  obtain ⟨-, -, hempty, -, -⟩ := new_eq_ok hnew
  refine ⟨hle, fun g => Nat.zero_le _, ?_⟩
  intro g _ numCached hcached
  rw [(hempty g r.requestId).2] at hcached
  cases hcached

end

/-- A prompt of seven tokens leaves one cached block, which is dropped when the next token is
scheduled, and the second block is full. -/
theorem window_trips_assertion : encodedHash.CollisionFree ∧
    ∃ s s', new (slidingWindowOnly 6) 100 true false false = .ok s ∧
      Transition.Execution (CarefulStep encodedHash) s
        [.allocateComputed (zeros "a" 7 0) 7 0 false] s' ∧
      s'.TokensGrow (.allocateSlots (zeros "a" 8 7) 1 0 false) ∧
      ¬ s'.AssertionsHold encodedHash (.allocateSlots (zeros "a" 8 7) 1 0 false) := by
  have hstate : (finalState (slidingWindowOnly 6)
      [.allocateComputed (zeros "a" 7 0) 7 0 false]).map (fun s =>
        (s.maxModelLen, s.numKvCacheGroups, (s.managers 0).numCachedBlock "a",
          (s.managers 0).blockSize)) = some (100, 1, some 1, 4) := by
    decide +kernel
  -- The state at which the second call caches: the first block of the table has no hash.
  have hcaching : (finalState (slidingWindowOnly 6)
      [.allocateComputed (zeros "a" 7 0) 7 0 false]).bind (fun s =>
        (s.cachingState encodedHash (.allocateSlots (zeros "a" 8 7) 1 0 false)).toOption.join.map
          fun x => (x.2, x.1.numKvCacheGroups, (x.1.managers 0).numCachedBlock "a",
            (x.1.managers 0).blockSize,
            (x.1.tables (0, "a"))[0]?.map fun b => (x.1.blockPool.blockHash b).isSome)) =
      some ((zeros "a" 8 7, 8), 1, some 1, 4, some false) := by
    decide +kernel
  obtain ⟨s', hs', hvalues⟩ := Option.map_eq_some_iff.mp hstate
  obtain ⟨hlen, hgroups, hnum, hsize⟩ : s'.maxModelLen = 100 ∧ s'.numKvCacheGroups = 1 ∧
      (s'.managers 0).numCachedBlock "a" = some 1 ∧ (s'.managers 0).blockSize = 4 := by
    simpa using hvalues
  rw [hs', Option.bind_some] at hcaching
  obtain ⟨⟨s₁, r, numTokens⟩, hjoin, hvalues₁⟩ := Option.map_eq_some_iff.mp hcaching
  obtain ⟨⟨rfl, rfl⟩, hgroups₁, hnum₁, hsize₁, hfirst⟩ : (r = zeros "a" 8 7 ∧ numTokens = 8) ∧
      s₁.numKvCacheGroups = 1 ∧ (s₁.managers 0).numCachedBlock "a" = some 1 ∧
      (s₁.managers 0).blockSize = 4 ∧
      (s₁.tables (0, "a"))[0]?.map (fun b => (s₁.blockPool.blockHash b).isSome) = some false := by
    simpa using hvalues₁
  have hcall : s'.cachingState encodedHash (.allocateSlots (zeros "a" 8 7) 1 0 false) =
      .ok (some (s₁, zeros "a" 8 7, 8)) :=
    toOption_eq_some.mp (Option.join_eq_some_iff.mp hjoin)
  obtain ⟨s, hnew, hrun⟩ := finalState_eq_some hs'
  refine ⟨encodedHash_collisionFree, s, s', hnew, ?_, ?_, ?_⟩
  · have hle : (zeros "a" 7 0).numTokens ≤ s.maxModelLen := by
      rw [maxModelLen_new hnew]
      decide
    exact .single ⟨tokensGrow_new hnew hle 7 0, Transition.Execution.single_iff.mp hrun⟩
  · refine ⟨?_, fun g => Nat.zero_le _, ?_⟩
    · rw [hlen]
      decide
    · intro g hg numCached hcached
      rw [hgroups] at hg
      obtain rfl : g = 0 := by omega
      rw [hsize]
      cases hnum.symm.trans hcached
      decide
  · -- The second block is new and full, and the assertion wants a hash on the one before it.
    intro hhold
    obtain ⟨hassert, -⟩ := hhold s₁ (zeros "a" 8 7) 8 hcall 0 (by omega) s₁ rfl 1 hnum₁
      (by rw [hsize₁]; decide)
    obtain ⟨b, hb, hsome⟩ := hassert.prev one_ne_zero
    have hb' : (s₁.tables (0, "a"))[0]? = some b := hb
    rw [hb', Option.map_some, hsome] at hfirst
    cases hfirst

theorem lastCachedNotNull_new {cfg : KVCacheConfig} {maxModelLen : ℕ}
    {enableCaching useEagle enableKvCacheEvents : Bool}
    (hnew : new cfg maxModelLen enableCaching useEagle enableKvCacheEvents = .ok s)
    (r : String) (numTokens : ℕ) (skipped : ℕ → ℕ) : s.LastCachedNotNull r numTokens skipped := by
  obtain ⟨-, -, hempty, -, -⟩ := new_eq_ok hnew
  intro g _ numCached hcached
  rw [(hempty g r).2] at hcached
  cases hcached

/-- The prompt of six tokens leaves one cached block, and two more tokens fill the second one. -/
theorem assertions_second_call : ∃ s s', new (slidingWindowOnly 6) 100 true false false = .ok s ∧
    Transition.Execution (HashKeepingStep encodedHash) s
      [.allocateComputed (zeros "a" 6 0) 6 0 false] s' ∧
    (s'.managers 0).numCachedBlock "a" = some 1 ∧
    s'.AssertionsHold encodedHash (.allocateSlots (zeros "a" 8 6) 2 0 false) := by
  have hfinal : (nullFreeState (slidingWindowOnly 6)
      [.allocateComputed (zeros "a" 6 0) 6 0 false]).map (fun s =>
        (s.maxModelLen, s.numKvCacheGroups, (s.managers 0).numCachedBlock "a",
          (s.managers 0).blockSize, decide ((s.managers 0).numSkippedBlocks "a" 6 < 1 ∧
            (s.tables (0, "a"))[0]? ≠ some s.blockPool.nullBlock ∧
            s.CallBlocksNotNull (.allocateSlots (zeros "a" 8 6) 2 0 false)))) =
      some (100, 1, some 1, 4, true) := by
    decide +kernel
  have hlookup : (new (slidingWindowOnly 6) 100 true false false).toOption.bind (fun s =>
      (s.getComputedBlocks encodedHash (zeros "a" 6 0)).toOption.map fun x => x.2.1) =
      some [[]] := by
    decide +kernel
  obtain ⟨s', hs', hvalues⟩ := Option.map_eq_some_iff.mp hfinal
  obtain ⟨hlen, hgroups, hnum, hsize, hskipped, hfirst, hreal⟩ :
      s'.maxModelLen = 100 ∧ s'.numKvCacheGroups = 1 ∧
      (s'.managers 0).numCachedBlock "a" = some 1 ∧ (s'.managers 0).blockSize = 4 ∧
      (s'.managers 0).numSkippedBlocks "a" 6 < 1 ∧
      (s'.tables (0, "a"))[0]? ≠ some s'.blockPool.nullBlock ∧
      s'.CallBlocksNotNull (.allocateSlots (zeros "a" 8 6) 2 0 false) := by
    simpa only [Prod.mk.injEq, decide_eq_true_eq] using hvalues
  obtain ⟨s, hnew, hrun⟩ := nullFreeState_eq_some hs'
  rw [hnew] at hlookup
  have hle : (zeros "a" 6 0).numTokens ≤ s.maxModelLen := by
    rw [maxModelLen_new hnew]
    decide
  obtain ⟨hnull, hstep⟩ := Transition.Execution.single_iff.mp hrun
  have hrun' : Transition.Execution (HashKeepingStep encodedHash) s
      [.allocateComputed (zeros "a" 6 0) 6 0 false] s' := by
    refine .single ⟨⟨tokensGrow_new hnew hle 6 0, hstep⟩, hnull, fun _ =>
      ⟨lastCachedNotNull_new hnew _ _ _, ?_⟩⟩
    intro s₁ hits hitLength hget g _ _ _
    rw [Except.toOption, Option.bind_some, hget] at hlookup
    obtain rfl : hits = [[]] := Option.some.inj hlookup
    cases g with
    | zero => nofun
    | succ g => nofun
  have honly : ∀ g < s'.numKvCacheGroups, ∀ numCached,
      (s'.managers g).numCachedBlock "a" = some numCached → g = 0 ∧ numCached = 1 := by
    intro g hg numCached hcached
    obtain rfl : g = 0 := by omega
    exact ⟨rfl, Option.some.inj (hcached.symm.trans hnum)⟩
  refine ⟨s, s', hnew, hrun', hnum, assertions_of_run encodedHash_collisionFree hnew hrun'
    ⟨?_, fun g => Nat.zero_le _, ?_⟩ (fun _ => hreal) fun _ => ?_⟩
  · rw [hlen]
    decide
  · intro g hg numCached hcached
    obtain ⟨rfl, rfl⟩ := honly g hg numCached hcached
    rw [hsize]
    decide
  · intro g hg numCached hcached _ _
    obtain ⟨rfl, rfl⟩ := honly g hg numCached hcached
    exact ⟨hskipped, hfirst⟩

end Example

end Kv
