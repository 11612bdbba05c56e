import Mosaic.Kv.BlockPool
import Mosaic.Transition.Execution
import Mathlib.Data.Set.Card

/-!
# Events of the cache

The pool reports what it caches and evicts as a list of events, which are taken from time to time.
A listener that replays them knows for every hash value how many blocks are cached under it.
-/

namespace Kv

open List Fallible Function

/-! ### Listeners -/

/-- A stored event adds one copy of each hash, a removed event takes one away. -/
def KVCacheEvent.apply (copies : Multiset ℤ) : KVCacheEvent → Multiset ℤ
  | .blockStored blockHashes _ _ _ _ => copies + blockHashes
  | .blockRemoved blockHashes => copies - blockHashes
  | .allBlocksCleared => 0

def replay (events : List KVCacheEvent) : Multiset ℤ := events.foldl KVCacheEvent.apply 0

@[simp] theorem replay_nil : replay [] = 0 := rfl

theorem replay_concat (events : List KVCacheEvent) (event : KVCacheEvent) :
    replay (events ++ [event]) = event.apply (replay events) := by
  rw [replay, foldl_append]
  rfl

namespace BlockPool

/-- All events since the last call. -/
def takeEvents (p : BlockPool) : List KVCacheEvent × BlockPool :=
  if p.enableKvCacheEvents then (p.kvEventQueue, { p with kvEventQueue := [] }) else ([], p)

/-- The blocks that are cached under a hash value. -/
def cachedUnder (p : BlockPool) (value : ℤ) : Set ℕ :=
  {b | ∃ key, key.blockHash.hashValue = value ∧ b ∈ p.cachedBlockHashToBlock key}

/-! ### What is cached -/

/-- The cache and the hashes of the blocks agree. Whether caching is enabled does not matter. -/
def Listed (p : BlockPool) : Prop := CacheValid { p with enableCaching := true }

variable {p p' : BlockPool} {b : ℕ} {value : ℤ}

theorem Listed.mem_cachedUnder (h : p.Listed) :
    b ∈ p.cachedUnder value ↔
      ∃ key, key.blockHash.hashValue = value ∧ p.blockHash b = some key := by
  constructor
  · rintro ⟨key, hvalue, hmem⟩
    exact ⟨key, hvalue, (h.mem_cached key b).mp hmem⟩
  · rintro ⟨key, hvalue, hkey⟩
    exact ⟨key, hvalue, (h.mem_cached key b).mpr hkey⟩

theorem Listed.finite_cachedUnder (h : p.Listed) (value : ℤ) : (p.cachedUnder value).Finite := by
  apply (Set.finite_lt_nat p.numGpuBlocks).subset
  intro b hb
  obtain ⟨key, -, hkey⟩ := h.mem_cachedUnder.mp hb
  exact h.hash_lt b key hkey

theorem Listed.notMem_cachedUnder (h : p.Listed) (hnone : p.blockHash b = none) :
    b ∉ p.cachedUnder value := by
  intro hmem
  obtain ⟨_, -, hkey⟩ := h.mem_cachedUnder.mp hmem
  rw [hnone] at hkey
  cases hkey

section

variable (h : p.Listed) (hnone : p.blockHash b = none) (hlt : b < p.numGpuBlocks)
  (key : BlockHashWithGroupId)
include h hnone hlt key

theorem listed_insertCached : (p.insertCached b key).Listed :=
  CacheValid.insertCached h hnone hlt rfl key

/-- A block that is filed is one more block under its hash value. -/
theorem ncard_insertCached (value : ℤ) : ((p.insertCached b key).cachedUnder value).ncard =
      (p.cachedUnder value).ncard + [key.blockHash.hashValue].count value := by
  have h' := listed_insertCached h hnone hlt key
  have hhash : ∀ b', (p.insertCached b key).blockHash b' =
      if b' = b then some key else p.blockHash b' := by
    intro b'
    simp only [insertCached, update_apply]
  by_cases hvalue : key.blockHash.hashValue = value
  · have hset : (p.insertCached b key).cachedUnder value = insert b (p.cachedUnder value) := by
      ext b'
      rw [h'.mem_cachedUnder, Set.mem_insert_iff, h.mem_cachedUnder, hhash]
      by_cases hb : b' = b
      · simp [hb, hvalue]
      · simp [hb]
    rw [hset, Set.ncard_insert_of_notMem (h.notMem_cachedUnder hnone) (h.finite_cachedUnder value)]
    simp [hvalue]
  · have hset : (p.insertCached b key).cachedUnder value = p.cachedUnder value := by
      ext b'
      rw [h'.mem_cachedUnder, h.mem_cachedUnder, hhash]
      by_cases hb : b' = b
      · simp [hb, hnone, hvalue]
      · simp [hb]
    rw [hset, count_singleton, if_neg (by simpa using hvalue), add_zero]

end

/-- Eviction does not ask whether caching is enabled. -/
theorem maybeEvict_enableCaching (p : BlockPool) (b : ℕ) :
    maybeEvictCachedBlock { p with enableCaching := true } b =
      { p.maybeEvictCachedBlock b with enableCaching := true } := by
  unfold maybeEvictCachedBlock
  dsimp only
  split
  · rfl
  · split
    · rfl
    · rfl

theorem Listed.maybeEvict (h : p.Listed) (b : ℕ) :
    (p.maybeEvictCachedBlock b).Listed ∧
      (p.maybeEvictCachedBlock b).blockHash = update p.blockHash b none := by
  have hevict := CacheValid.maybeEvict h b
  rw [maybeEvict_enableCaching] at hevict
  exact ⟨hevict.1, hevict.2.1⟩

/-! ### Operations and their events -/

/-- A listener that has replayed `events` and what is still queued knows what is cached. -/
structure Mirrored (p : BlockPool) (events : List KVCacheEvent) : Prop where
  listed : p.Listed
  enableKvCacheEvents : p.enableKvCacheEvents = true
  count : ∀ value, (replay (events ++ p.kvEventQueue)).count value =
    (p.cachedUnder value).ncard

variable {events : List KVCacheEvent}

/-- Operations that neither cache nor evict are not reported. -/
theorem Mirrored.congr (h : p.Mirrored events) (hhash : p'.blockHash = p.blockHash)
    (hcached : p'.cachedBlockHashToBlock = p.cachedBlockHashToBlock)
    (hevents : p'.kvEventQueue = p.kvEventQueue)
    (hsame : Same p p') : p'.Mirrored events := by
  obtain ⟨hlisted, henabled, hcount⟩ := h
  refine ⟨⟨?_, ?_, ?_, nofun⟩, hsame.enableKvCacheEvents.trans henabled, ?_⟩
  · intro key b
    change b ∈ p'.cachedBlockHashToBlock key ↔ p'.blockHash b = some key
    rw [hcached, hhash]
    exact hlisted.mem_cached key b
  · intro key
    change (p'.cachedBlockHashToBlock key).Nodup
    rw [hcached]
    exact hlisted.nodup_cached key
  · intro b key hb
    change b < p'.numGpuBlocks
    rw [hsame.numGpuBlocks]
    exact hlisted.hash_lt b key (hhash ▸ hb)
  · intro value
    rw [hevents, hcount, cachedUnder, cachedUnder, hcached]

/-- A block that loses its hash is reported. -/
theorem Mirrored.maybeEvict (h : p.Mirrored events) (b : ℕ) :
    (p.maybeEvictCachedBlock b).Mirrored events := by
  obtain ⟨hlisted, henabled, hcount⟩ := h
  obtain ⟨hlisted', hhash⟩ := hlisted.maybeEvict b
  cases hkey : p.blockHash b with
  | none =>
    have hself : p.maybeEvictCachedBlock b = p := by
      simp only [maybeEvictCachedBlock, hkey]
    rw [hself]
    exact ⟨hlisted, henabled, hcount⟩
  | some key =>
    have hmem := (hlisted.mem_cached key b).mpr hkey
    have hevict : (p.maybeEvictCachedBlock b).kvEventQueue =
        p.kvEventQueue ++ [.blockRemoved [key.blockHash.hashValue]] ∧
          (p.maybeEvictCachedBlock b).enableKvCacheEvents = true := by
      have hne : p.cachedBlockHashToBlock key ≠ [] := ne_nil_of_mem hmem
      simp only [maybeEvictCachedBlock, hkey, if_neg hne, henabled, if_true, and_self]
    refine ⟨hlisted', hevict.2, ?_⟩
    intro value
    rw [hevict.1, ← append_assoc, replay_concat, KVCacheEvent.apply, Multiset.count_sub,
      hcount, Multiset.coe_count]
    have hset : (p.maybeEvictCachedBlock b).cachedUnder value = p.cachedUnder value \ {b} := by
      ext b'
      rw [hlisted'.mem_cachedUnder, Set.mem_sdiff, hlisted.mem_cachedUnder, hhash]
      by_cases hb : b' = b
      · simp [hb]
      · simp [hb]
    rw [hset]
    by_cases hvalue : key.blockHash.hashValue = value
    · have hin : b ∈ p.cachedUnder value := ⟨key, hvalue, hmem⟩
      rw [Set.ncard_sdiff_singleton_of_mem hin]
      simp [hvalue]
    · have hout : b ∉ p.cachedUnder value := by
        intro hin
        obtain ⟨key', hvalue', hkey'⟩ := hlisted.mem_cachedUnder.mp hin
        obtain rfl : key = key' := Option.some.inj (hkey.symm.trans hkey')
        exact hvalue hvalue'
      rw [Set.sdiff_singleton_eq_self hout, count_singleton, if_neg (by simpa using hvalue),
        Nat.sub_zero]

variable {blocks : List ℕ}

section

variable (h : p.Mirrored events)
include h

theorem Mirrored.handOut (hok : BlockPool.handOut blocks p = .ok p') : p'.Mirrored events := by
  induction blocks generalizing p with
  | nil =>
    cases hok
    exact h
  | cons b blocks ih =>
    have hevict : (if p.enableCaching then p.maybeEvictCachedBlock b else p).Mirrored events := by
      split
      · exact h.maybeEvict b
      · exact h
    rw [BlockPool.handOut] at hok
    generalize (if p.enableCaching then p.maybeEvictCachedBlock b else p) = q at hevict hok
    split at hok
    · cases hok
    · have hcounted : Mirrored
          { q with refCnt := update q.refCnt b (q.refCnt b + 1) } events :=
        hevict.congr rfl rfl rfl ⟨rfl, rfl, rfl, rfl⟩
      exact ih hcounted hok

theorem Mirrored.getNewBlocks {n : ℕ} {newBlocks : List ℕ}
    (hok : p.getNewBlocks n = .ok (newBlocks, p')) : p'.Mirrored events := by
  unfold BlockPool.getNewBlocks at hok
  split at hok
  · cases hok
  · obtain ⟨⟨_, queue⟩, -, hok⟩ := bind_eq_ok.mp hok
    obtain ⟨_, hout, hok⟩ := bind_eq_ok.mp hok
    cases hok
    have h₁ : Mirrored { p with freeBlockQueue := queue } events :=
      h.congr rfl rfl rfl ⟨rfl, rfl, rfl, rfl⟩
    exact h₁.handOut hout

theorem Mirrored.touch {blocks : List (List ℕ)} (hok : p.touch blocks = .ok p') :
    p'.Mirrored events := by
  unfold BlockPool.touch at hok
  generalize blocks.flatten = ordered at hok
  induction ordered generalizing p with
  | nil =>
    cases hok
    exact h
  | cons b blocks ih =>
    obtain ⟨_, hfirst, hrest⟩ := foldlM_cons_eq_ok.mp hok
    refine ih ?_ hrest
    unfold BlockPool.touchBlock at hfirst
    split at hfirst
    · obtain ⟨_, -, hfirst⟩ := bind_eq_ok.mp hfirst
      cases hfirst
      exact h.congr rfl rfl rfl ⟨rfl, rfl, rfl, rfl⟩
    · cases hfirst
      exact h.congr rfl rfl rfl ⟨rfl, rfl, rfl, rfl⟩

theorem Mirrored.freeBlocks (hok : p.freeBlocks blocks = .ok p') : p'.Mirrored events := by
  obtain ⟨_, rfl⟩ := freeBlocks_eq_ok hok
  exact h.congr rfl rfl rfl ⟨rfl, rfl, rfl, rfl⟩

theorem Mirrored.resetPrefixCache : p.resetPrefixCache.2.Mirrored events := by
  unfold BlockPool.resetPrefixCache
  split
  · exact h
  · refine ⟨⟨by simp, fun _ => nodup_nil, nofun, nofun⟩, h.enableKvCacheEvents, ?_⟩
    intro value
    rw [h.enableKvCacheEvents, if_pos rfl, ← append_assoc, replay_concat]
    simp [KVCacheEvent.apply, cachedUnder]

theorem Mirrored.takeEvents :
    p.takeEvents.2.Mirrored (events ++ p.takeEvents.1) ∧ p.takeEvents.2.kvEventQueue = [] := by
  rw [BlockPool.takeEvents, if_pos h.enableKvCacheEvents]
  refine ⟨⟨⟨h.listed.1, h.listed.2, h.listed.3, nofun⟩, h.enableKvCacheEvents, ?_⟩, rfl⟩
  intro value
  rw [append_nil]
  exact h.count value

end

/-- The values that the loop returns are those of the blocks it has cached. -/
theorem ncard_cacheLoop {env : HashEnv} {r : Request} {blockSize group idx : ℕ}
    {known hashes hashes' : List BlockHash} {prev : Option ℤ} {values : List ℤ} (h : p.Listed)
    (hlt : ∀ b ∈ blocks, b < p.numGpuBlocks)
    (hok : cacheLoop env r blockSize group blocks known idx prev p hashes =
      .ok (p', hashes', values)) :
    p'.Listed ∧ p'.enableKvCacheEvents = p.enableKvCacheEvents ∧
      p'.kvEventQueue = p.kvEventQueue ∧ ∀ value,
        (p'.cachedUnder value).ncard = (p.cachedUnder value).ncard + values.count value := by
  induction blocks generalizing p known hashes idx prev values with
  | nil =>
    obtain ⟨rfl, -, rfl⟩ : p = p' ∧ hashes = hashes' ∧ [] = values := by
      simpa [cacheLoop] using hok
    exact ⟨h, rfl, rfl, fun value => by simp⟩
  | cons b blocks ih =>
    rw [cacheLoop] at hok
    split at hok
    · cases hok
    · rename_i hfresh
      have hnone : p.blockHash b = none := by simpa using hfresh
      have hb := hlt b (mem_cons_self ..)
      obtain ⟨⟨h₁, hashes₁⟩, -, hok⟩ := bind_eq_ok.mp hok
      obtain ⟨⟨p₁, hashes₂, values₁⟩, hloop, hok⟩ := bind_eq_ok.mp hok
      obtain ⟨rfl, rfl, rfl⟩ : p₁ = p' ∧ hashes₂ = hashes' ∧ h₁.hashValue :: values₁ = values := by
        simpa [pure, Except.pure] using hok
      have hinsert := listed_insertCached h hnone hb ⟨h₁, group⟩
      obtain ⟨hlisted, henabled, hevents, hcount⟩ :=
        ih hinsert (fun b' hb' => hlt b' (mem_cons_of_mem _ hb')) hloop
      refine ⟨hlisted, henabled, hevents, ?_⟩
      intro value
      rw [hcount, ncard_insertCached h hnone hb, ← singleton_append (l := values₁),
        count_append, add_assoc]

/-- One event reports all blocks that a call caches. -/
theorem Mirrored.cacheFullBlocks (h : p.Mirrored events) {env : HashEnv} {r : Request}
    {hashes hashes' : List BlockHash}
    {numCachedBlocks numFullBlocks blockSize group : ℕ}
    (hlt : ∀ b ∈ blocks, b < p.numGpuBlocks)
    (hok : p.cacheFullBlocks env r blocks hashes numCachedBlocks numFullBlocks blockSize group =
      .ok (p', hashes')) : p'.Mirrored events := by
  unfold BlockPool.cacheFullBlocks at hok
  split at hok
  · cases hok
    exact h
  · dsimp only at hok
    split at hok
    · cases hok
    · obtain ⟨_, -, hok⟩ := bind_eq_ok.mp hok
      obtain ⟨⟨_, hashes₁, _⟩, hloop, hok⟩ := bind_eq_ok.mp hok
      have hnew : ∀ b ∈ newFullBlocks blocks numCachedBlocks numFullBlocks, b < p.numGpuBlocks :=
        fun b hb => hlt b (mem_of_mem_take (mem_of_mem_drop hb))
      obtain ⟨hlisted, henabled, hevents, hcount⟩ := ncard_cacheLoop h.listed hnew hloop
      rw [if_pos (henabled.trans h.enableKvCacheEvents)] at hok
      split at hok
      · cases hok
      · cases hok
        refine ⟨⟨hlisted.1, hlisted.2, hlisted.3, nofun⟩, henabled.trans h.enableKvCacheEvents, ?_⟩
        intro value
        rw [hevents, ← append_assoc, replay_concat, KVCacheEvent.apply, Multiset.count_add,
          h.count, Multiset.coe_count]
        exact (hcount value).symm

end BlockPool

/-! ### Runs -/

/-- The operations of the pool. Blocks are cached for a group, below the hashes of a request. -/
inductive PoolCall where
  | cacheFullBlocks (r : Request) (blocks : List ℕ) (blockHashes : List BlockHash)
      (numCachedBlocks numFullBlocks blockSize group : ℕ)
  | getNewBlocks (numBlocks : ℕ)
  | touch (blocks : List (List ℕ))
  | freeBlocks (orderedBlocks : List ℕ)
  | resetPrefixCache
  | takeEvents

/-- The pool after an operation that returns, and the events that it takes. -/
def BlockPool.call (env : HashEnv) (p : BlockPool) :
    PoolCall → Except KvError (BlockPool × List KVCacheEvent)
  | .cacheFullBlocks r blocks blockHashes numCachedBlocks numFullBlocks blockSize group => do
    let (p, _) ← p.cacheFullBlocks env r blocks blockHashes numCachedBlocks numFullBlocks blockSize
      group
    return (p, [])
  | .getNewBlocks numBlocks => do
    let (_, p) ← p.getNewBlocks numBlocks
    return (p, [])
  | .touch blocks => do
    let p ← p.touch blocks
    return (p, [])
  | .freeBlocks orderedBlocks => do
    let p ← p.freeBlocks orderedBlocks
    return (p, [])
  | .resetPrefixCache => .ok (p.resetPrefixCache.2, [])
  | .takeEvents => .ok (p.takeEvents.2, p.takeEvents.1)

/-- The blocks that a call caches are blocks of the pool. -/
def PoolCall.InPool (p : BlockPool) : PoolCall → Prop
  | .cacheFullBlocks _ blocks _ _ _ _ _ => ∀ b ∈ blocks, b < p.numGpuBlocks
  | _ => True

/-- The pool when a call that caches blocks is about to build its event. -/
def BlockPool.poolBeforeEvent (env : HashEnv) (p : BlockPool) (r : Request) (blocks : List ℕ)
    (blockHashes : List BlockHash) (numCachedBlocks numFullBlocks blockSize group : ℕ) :
    Except KvError BlockPool := do
  if blockHashes.length < numCachedBlocks then throw (.assertionError "")
  let parent ← p.prevBlockHashValue blocks numCachedBlocks
  let (p, _, _) ← cacheLoop env r blockSize group
    (newFullBlocks blocks numCachedBlocks numFullBlocks) (blockHashes.drop numCachedBlocks)
    numCachedBlocks parent p blockHashes
  return p

/-- An operation that returns, or whose event cannot be built, together with all events that were
taken so far. The blocks of a call without an event stay cached. -/
inductive PoolStep (env : HashEnv) (x : BlockPool × List KVCacheEvent) :
    PoolCall → BlockPool × List KVCacheEvent → Prop where
  | returns {c : PoolCall} {p : BlockPool} {taken : List KVCacheEvent} (inPool : c.InPool x.1)
      (ok : x.1.call env c = .ok (p, taken)) : PoolStep env x c (p, x.2 ++ taken)
  | raises {r : Request} {blocks : List ℕ} {blockHashes : List BlockHash}
      {numCachedBlocks numFullBlocks blockSize group : ℕ} {p : BlockPool}
      (inPool : ∀ b ∈ blocks, b < x.1.numGpuBlocks)
      (raised : x.1.cacheFullBlocks env r blocks blockHashes numCachedBlocks numFullBlocks
        blockSize group = .error .attributeError)
      (reached : x.1.poolBeforeEvent env r blocks blockHashes numCachedBlocks numFullBlocks
        blockSize group = .ok p) :
      PoolStep env x (.cacheFullBlocks r blocks blockHashes numCachedBlocks numFullBlocks
        blockSize group) (p, x.2)

/-- No block is cached for a request with an adapter. -/
def PoolCall.WithoutAdapter : PoolCall → Prop
  | .cacheFullBlocks r blocks _ numCachedBlocks numFullBlocks _ _ =>
    BlockPool.newFullBlocks blocks numCachedBlocks numFullBlocks ≠ [] → r.loraIntId = none
  | _ => True

/-- An operation that caches no block for a request with an adapter. -/
def ReportedStep (env : HashEnv) (x : BlockPool × List KVCacheEvent) (c : PoolCall)
    (y : BlockPool × List KVCacheEvent) : Prop :=
  c.WithoutAdapter ∧ PoolStep env x c y

variable {env : HashEnv}

/-- The event of a call cannot be built if and only if its request has an adapter. -/
theorem BlockPool.cacheFullBlocks_eq_attributeError {p : BlockPool} {r : Request}
    {blocks : List ℕ} {blockHashes : List BlockHash}
    {numCachedBlocks numFullBlocks blockSize group : ℕ} {q : BlockPool}
    (hreached : p.poolBeforeEvent env r blocks blockHashes numCachedBlocks numFullBlocks
      blockSize group = .ok q) :
    p.cacheFullBlocks env r blocks blockHashes numCachedBlocks numFullBlocks blockSize group =
      .error .attributeError ↔ numCachedBlocks ≠ numFullBlocks ∧ q.enableKvCacheEvents = true ∧
        r.loraIntId.isSome = true := by
  unfold poolBeforeEvent at hreached
  split at hreached
  · cases hreached
  · rename_i hlong
    obtain ⟨parent, hparent, hreached⟩ := bind_eq_ok.mp hreached
    obtain ⟨⟨q', hashes, values⟩, hloop, hreached⟩ := bind_eq_ok.mp hreached
    cases hreached
    unfold cacheFullBlocks
    by_cases hsame : numCachedBlocks = numFullBlocks
    · rw [if_pos hsame]
      exact iff_of_false nofun fun h => h.1 hsame
    · simp only [if_neg hsame, if_neg hlong, hparent, hloop, bind, Except.bind]
      by_cases henabled : q.enableKvCacheEvents = true
      · by_cases hadapter : r.loraIntId.isSome = true
        · simp [henabled, hadapter, hsame, throw, throwThe, MonadExceptOf.throw]
        · simp [henabled, hadapter, pure, Except.pure]
      · simp [henabled, pure, Except.pure]

/-- A call that reaches its event without a new block leaves the pool as it is. -/
theorem BlockPool.poolBeforeEvent_nil {p q : BlockPool} {r : Request} {blocks : List ℕ}
    {blockHashes : List BlockHash} {numCachedBlocks numFullBlocks blockSize group : ℕ}
    (hreached : p.poolBeforeEvent env r blocks blockHashes numCachedBlocks numFullBlocks
      blockSize group = .ok q) (hnil : newFullBlocks blocks numCachedBlocks numFullBlocks = []) :
    q = p := by
  unfold poolBeforeEvent at hreached
  split at hreached
  · cases hreached
  · obtain ⟨_, -, hreached⟩ := bind_eq_ok.mp hreached
    rw [hnil] at hreached
    cases hreached
    rfl

/-- What an operation takes is known to the listener afterwards. -/
theorem BlockPool.Mirrored.call {p p' : BlockPool} {events taken : List KVCacheEvent}
    {c : PoolCall} (h : p.Mirrored events) (hpool : c.InPool p)
    (hok : p.call env c = .ok (p', taken)) : p'.Mirrored (events ++ taken) := by
  cases c with
  | cacheFullBlocks r blocks blockHashes numCachedBlocks numFullBlocks blockSize group =>
    obtain ⟨⟨p, hashes⟩, hcache, hok⟩ := bind_eq_ok.mp hok
    cases hok
    rw [append_nil]
    exact h.cacheFullBlocks hpool hcache
  | getNewBlocks numBlocks =>
    obtain ⟨⟨_, p⟩, hget, hok⟩ := bind_eq_ok.mp hok
    cases hok
    rw [append_nil]
    exact h.getNewBlocks hget
  | touch blocks =>
    obtain ⟨p, htouch, hok⟩ := bind_eq_ok.mp hok
    cases hok
    rw [append_nil]
    exact h.touch htouch
  | freeBlocks orderedBlocks =>
    obtain ⟨p, hfree, hok⟩ := bind_eq_ok.mp hok
    cases hok
    rw [append_nil]
    exact h.freeBlocks hfree
  | resetPrefixCache =>
    obtain ⟨hy, rfl⟩ := Prod.mk.inj (Except.ok.inj hok)
    rw [← hy, append_nil]
    exact h.resetPrefixCache
  | takeEvents =>
    obtain ⟨hy, rfl⟩ := Prod.mk.inj (Except.ok.inj hok)
    rw [← hy]
    exact h.takeEvents.1

theorem ReportedStep.mirrored {x y : BlockPool × List KVCacheEvent} {c : PoolCall}
    (hstep : ReportedStep env x c y) (h : x.1.Mirrored x.2) : y.1.Mirrored y.2 := by
  obtain ⟨hadapter, hstep⟩ := hstep
  cases hstep with
  | returns hpool hok => exact BlockPool.Mirrored.call h hpool hok
  | @raises r blocks _ numCachedBlocks numFullBlocks _ _ _ hpool hraised hreached =>
    -- without an adapter the event can be built
    by_cases hnil : BlockPool.newFullBlocks blocks numCachedBlocks numFullBlocks = []
    · rw [BlockPool.poolBeforeEvent_nil hreached hnil]
      exact h
    · obtain ⟨-, -, hsome⟩ := (BlockPool.cacheFullBlocks_eq_attributeError hreached).mp hraised
      rw [hadapter hnil] at hsome
      cases hsome

theorem mirrored_new {numGpuBlocks : ℕ} {enableCaching : Bool} {p : BlockPool}
    (hnew : BlockPool.new numGpuBlocks enableCaching true = .ok p) : p.Mirrored [] := by
  obtain ⟨_, hvalid, -, -, -, henabled, hblocks, -⟩ := BlockPool.valid_new hnew
  have hlisted : p.Listed :=
    ⟨hvalid.mem_cached, hvalid.nodup_cached, hvalid.hash_lt, nofun⟩
  have hevents : p.kvEventQueue = [] := by
    unfold BlockPool.new at hnew
    split at hnew
    · cases hnew
    · obtain ⟨⟨b, _⟩, -, hnew⟩ := bind_eq_ok.mp hnew
      cases hnew
      rfl
  refine ⟨hlisted, henabled, ?_⟩
  intro value
  have hempty : p.cachedUnder value = ∅ := by
    ext b
    exact iff_of_false (hlisted.notMem_cachedUnder (hblocks b).2) (Set.notMem_empty b)
  rw [hevents, hempty]
  simp

section Example

theorem listed_poolBeforeEvent {p q : BlockPool} (h : p.Listed) {r : Request} {blocks : List ℕ}
    {blockHashes : List BlockHash} {numCachedBlocks numFullBlocks blockSize group : ℕ}
    (hpool : ∀ b ∈ blocks, b < p.numGpuBlocks)
    (hreached : p.poolBeforeEvent env r blocks blockHashes numCachedBlocks numFullBlocks
      blockSize group = .ok q) : q.Listed := by
  unfold BlockPool.poolBeforeEvent at hreached
  split at hreached
  · cases hreached
  · obtain ⟨_, -, hreached⟩ := bind_eq_ok.mp hreached
    obtain ⟨_, hloop, hreached⟩ := bind_eq_ok.mp hreached
    cases hreached
    exact (BlockPool.ncard_cacheLoop h
      (fun b hb => hpool b (mem_of_mem_take (mem_of_mem_drop hb))) hloop).1

/-- A block of four tokens is cached in a pool of three blocks. -/
def cacheOneBlock (loraIntId : Option ℤ) : PoolCall :=
  .cacheFullBlocks { requestId := "a", allTokenIds := [0, 0, 0, 0], loraIntId := loraIntId }
    [1] [] 0 1 4 0

end Example

end Kv
