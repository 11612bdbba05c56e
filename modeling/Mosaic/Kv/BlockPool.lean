import Mosaic.Kv.BlockHash
import Mosaic.Memory.LinkedQueue

/-!
# The block pool

The pool counts the references to each block, keeps the blocks without references in a queue in
the order of their eviction, and keeps full blocks under their hash until they are evicted. Block
zero is taken out of the queue at the start and stands for blocks that are no longer needed.
-/

namespace Kv

open List Fallible Function

open Linked (Queue)

inductive KVCacheEvent where
  | blockStored (blockHashes : List ℤ) (parentBlockHash : Option ℤ) (tokenIds : List ℤ)
      (blockSize : ℕ) (loraId : Option ℤ)
  | blockRemoved (blockHashes : List ℤ)
  | allBlocksCleared
  deriving DecidableEq

/-- The pool. Blocks are known by their ids; the cache keeps the blocks of a hash in the order in
which they were cached. -/
structure BlockPool where
  numGpuBlocks : ℕ
  enableCaching : Bool
  enableKvCacheEvents : Bool
  nullBlock : ℕ
  refCnt : ℕ → ℤ
  blockHash : ℕ → Option BlockHashWithGroupId
  freeBlockQueue : Queue ℕ
  cachedBlockHashToBlock : BlockHashWithGroupId → List ℕ
  kvEventQueue : List KVCacheEvent

/-- Faults of the queue are exceptions of the pool. -/
def liftFault {α : Type} : Except Linked.Fault α → Except KvError α
  | .ok a => .ok a
  | .error .empty => .error (.valueError "No free blocks available")
  | .error .outOfSync => .error (.assertionError "")
  | .error .detached => .error .runtimeError

namespace BlockPool

/-- A pool in which all blocks are free, except for the first one. -/
def new (numGpuBlocks : ℕ) (enableCaching enableKvCacheEvents : Bool) :
    Except KvError BlockPool := do
  if numGpuBlocks = 0 then throw (.assertionError "")
  let (nullBlock, queue) ← liftFault (Queue.ofList (List.range numGpuBlocks)).popleft
  return {
    numGpuBlocks := numGpuBlocks
    enableCaching := enableCaching
    enableKvCacheEvents := enableKvCacheEvents
    nullBlock := nullBlock
    refCnt := fun _ => 0
    blockHash := fun _ => none
    freeBlockQueue := queue
    cachedBlockHashToBlock := fun _ => []
    kvEventQueue := [] }

def isNull (p : BlockPool) (b : ℕ) : Bool := b == p.nullBlock

def getNumFreeBlocks (p : BlockPool) : ℤ := p.freeBlockQueue.size

/-- The first cached block of each group, if every group has one. -/
def getCachedBlock (p : BlockPool) (blockHash : BlockHash) (groupIds : List ℕ) :
    Option (List ℕ) :=
  groupIds.mapM fun g => (p.cachedBlockHashToBlock ⟨blockHash, g⟩).head?

/-! ### Caching -/

/-- Give a block its hash and file it. -/
def insertCached (p : BlockPool) (b : ℕ) (key : BlockHashWithGroupId) : BlockPool :=
  { p with
    blockHash := update p.blockHash b (some key)
    cachedBlockHashToBlock := update p.cachedBlockHashToBlock key
      (if b ∈ p.cachedBlockHashToBlock key then p.cachedBlockHashToBlock key
        else p.cachedBlockHashToBlock key ++ [b]) }

/-- The hash of a full block: a known one, or one that is computed and appended to the hashes of
the request. Only the last multimodal item is considered. -/
def fullBlockHash (env : HashEnv) (r : Request) (blockSize blkIdx : ℕ)
    (known hashes : List BlockHash) (prev : Option ℤ) :
    Except KvError (BlockHash × List BlockHash) :=
  match known with
  | h :: _ => .ok (h, hashes)
  | [] => do
    if (r.blockTokens blockSize blkIdx).length ≠ blockSize then
      throw (.assertionError (s!"Expected {blockSize} tokens, got " ++
        s!"{(r.blockTokens blockSize blkIdx).length} at {blkIdx}th block for request " ++
        r.requestId))
    let (keys, _) ←
      generateBlockHashExtraKeys r (blkIdx * blockSize) ((blkIdx + 1) * blockSize) (-1)
    let h := hashBlockTokens env prev (r.blockTokens blockSize blkIdx) keys
    return (h, hashes ++ [h])

/-- The loop over the new full blocks, with the hashes that are known for them. The values of the
hashes are reported in an event. -/
def cacheLoop (env : HashEnv) (r : Request) (blockSize group : ℕ) :
    List ℕ → List BlockHash → ℕ → Option ℤ → BlockPool → List BlockHash →
      Except KvError (BlockPool × List BlockHash × List ℤ)
  | [], _, _, _, p, hashes => .ok (p, hashes, [])
  | b :: blocks, known, blkIdx, prev, p, hashes => do
    if (p.blockHash b).isSome then throw (.assertionError "")
    let (h, hashes) ← fullBlockHash env r blockSize blkIdx known hashes prev
    let (p, hashes, values) ← cacheLoop env r blockSize group blocks known.tail (blkIdx + 1)
      (some h.hashValue) (p.insertCached b ⟨h, group⟩) hashes
    return (p, hashes, h.hashValue :: values)

/-- The hash value before the first new full block. -/
def prevBlockHashValue (p : BlockPool) (blocks : List ℕ) (numCachedBlocks : ℕ) :
    Except KvError (Option ℤ) :=
  if numCachedBlocks = 0 then .ok none
  else
    match blocks[numCachedBlocks - 1]? with
    | none => .error .indexError
    | some b =>
      match p.blockHash b with
      | none => .error (.assertionError "")
      | some key => .ok (some key.blockHash.hashValue)

/-- The new full blocks of a table. -/
def newFullBlocks (blocks : List ℕ) (numCachedBlocks numFullBlocks : ℕ) : List ℕ :=
  (blocks.take numFullBlocks).drop numCachedBlocks

/-- Cache the blocks that became full, from `numCachedBlocks` to `numFullBlocks`. The hashes of
the request are extended as needed. -/
def cacheFullBlocks (env : HashEnv) (p : BlockPool) (r : Request) (blocks : List ℕ)
    (blockHashes : List BlockHash) (numCachedBlocks numFullBlocks blockSize group : ℕ) :
    Except KvError (BlockPool × List BlockHash) := do
  if numCachedBlocks = numFullBlocks then return (p, blockHashes)
  if blockHashes.length < numCachedBlocks then throw (.assertionError "")
  let parent ← p.prevBlockHashValue blocks numCachedBlocks
  let (p, blockHashes, values) ← cacheLoop env r blockSize group
    (newFullBlocks blocks numCachedBlocks numFullBlocks) (blockHashes.drop numCachedBlocks)
    numCachedBlocks parent p blockHashes
  if p.enableKvCacheEvents then
    -- the event asks an adapter for an attribute that it does not have
    if r.loraIntId.isSome then throw .attributeError
    let tokens :=
      (r.allTokenIds.take (numFullBlocks * blockSize)).drop (numCachedBlocks * blockSize)
    return ({ p with
      kvEventQueue := p.kvEventQueue ++ [.blockStored values parent tokens blockSize none] },
      blockHashes)
  return (p, blockHashes)

/-! ### Allocation -/

/-- Take the hash of a block away, if it is cached. -/
def maybeEvictCachedBlock (p : BlockPool) (b : ℕ) : BlockPool :=
  match p.blockHash b with
  | none => p
  | some key =>
    if p.cachedBlockHashToBlock key = [] then p
    else
      { p with
        blockHash := update p.blockHash b none
        cachedBlockHashToBlock := update p.cachedBlockHashToBlock key
          ((p.cachedBlockHashToBlock key).erase b)
        kvEventQueue := if p.enableKvCacheEvents then
            p.kvEventQueue ++ [.blockRemoved [key.blockHash.hashValue]]
          else p.kvEventQueue }

/-- Evict the blocks and count one reference for each. -/
def handOut : List ℕ → BlockPool → Except KvError BlockPool
  | [], p => .ok p
  | b :: blocks, p =>
    let p := if p.enableCaching then p.maybeEvictCachedBlock b else p
    if p.refCnt b ≠ 0 then .error (.assertionError "")
    else handOut blocks { p with refCnt := update p.refCnt b (p.refCnt b + 1) }

/-- Take blocks from the front of the queue. -/
def getNewBlocks (p : BlockPool) (numBlocks : ℕ) : Except KvError (List ℕ × BlockPool) := do
  if p.getNumFreeBlocks < numBlocks then
    throw (.valueError s!"Cannot get {numBlocks} free blocks from the pool")
  let (ret, queue) ← liftFault (p.freeBlockQueue.popleftN numBlocks)
  let p ← handOut ret { p with freeBlockQueue := queue }
  return (ret, p)

/-! ### References -/

/-- Count one more reference, and take the block out of the queue if it is there. -/
def touchBlock (p : BlockPool) (b : ℕ) : Except KvError BlockPool := do
  let p ←
    if p.refCnt b = 0 ∧ p.isNull b = false then do
      let queue ← liftFault (p.freeBlockQueue.remove b)
      pure { p with freeBlockQueue := queue }
    else pure p
  return { p with refCnt := update p.refCnt b (p.refCnt b + 1) }

def touch (p : BlockPool) (blocks : List (List ℕ)) : Except KvError BlockPool :=
  blocks.flatten.foldlM touchBlock p

/-- Count one reference less. -/
def releaseBlock (p : BlockPool) (b : ℕ) : BlockPool :=
  { p with refCnt := update p.refCnt b (p.refCnt b - 1) }

/-- Release blocks, and put those without references into the queue. -/
def freeBlocks (p : BlockPool) (orderedBlocks : List ℕ) : Except KvError BlockPool := do
  let p := orderedBlocks.foldl releaseBlock p
  let queue ← liftFault (p.freeBlockQueue.appendN
    (orderedBlocks.filter fun b => p.refCnt b = 0 && !p.isNull b))
  return { p with freeBlockQueue := queue }

/-- Forget all hashes, unless a block is in use. -/
def resetPrefixCache (p : BlockPool) : Bool × BlockPool :=
  if (p.numGpuBlocks : ℤ) - p.getNumFreeBlocks ≠ 1 then (false, p)
  else (true, { p with
    blockHash := fun _ => none
    cachedBlockHashToBlock := fun _ => []
    kvEventQueue := if p.enableKvCacheEvents then p.kvEventQueue ++ [.allBlocksCleared]
      else p.kvEventQueue })

/-! ### Valid pools -/

/-- The parts of the pool that never change. -/
structure Same (p p' : BlockPool) : Prop where
  numGpuBlocks : p'.numGpuBlocks = p.numGpuBlocks
  enableCaching : p'.enableCaching = p.enableCaching
  enableKvCacheEvents : p'.enableKvCacheEvents = p.enableKvCacheEvents
  nullBlock : p'.nullBlock = p.nullBlock

theorem Same.refl (p : BlockPool) : Same p p := ⟨rfl, rfl, rfl, rfl⟩

theorem Same.trans {p p' p'' : BlockPool} (h : Same p p') (h' : Same p' p'') : Same p p'' :=
  ⟨h'.1.trans h.1, h'.2.trans h.2, h'.3.trans h.3, h'.4.trans h.4⟩

/-- The cache holds exactly the blocks that carry a hash, each under its hash. -/
structure CacheValid (p : BlockPool) : Prop where
  mem_cached : ∀ key b, b ∈ p.cachedBlockHashToBlock key ↔ p.blockHash b = some key
  nodup_cached : ∀ key, (p.cachedBlockHashToBlock key).Nodup
  hash_lt : ∀ b key, p.blockHash b = some key → b < p.numGpuBlocks
  disabled : p.enableCaching = false → ∀ b, p.blockHash b = none

/-- The queue represents the list `free`, which holds exactly the blocks without references, and
the cache agrees with the hashes of the blocks. -/
structure Valid (p : BlockPool) (free : List ℕ) : Prop extends CacheValid p where
  queue : p.freeBlockQueue.Represents free
  mem_free : ∀ b, b ∈ free ↔ b < p.numGpuBlocks ∧ b ≠ p.nullBlock ∧ p.refCnt b = 0
  nonneg : ∀ b, b ≠ p.nullBlock → 0 ≤ p.refCnt b
  null_lt : p.nullBlock < p.numGpuBlocks

theorem Valid.getNumFreeBlocks {p : BlockPool} {free : List ℕ} (h : p.Valid free) :
    p.getNumFreeBlocks = free.length :=
  h.queue.size

@[simp] theorem liftFault_ok {α : Type} (a : α) : liftFault (.ok a) = .ok a := rfl

/-- A new pool is valid, and all blocks but the first are free. -/
theorem valid_new {numGpuBlocks : ℕ} {enableCaching enableKvCacheEvents : Bool} {p : BlockPool}
    (h : new numGpuBlocks enableCaching enableKvCacheEvents = .ok p) :
    ∃ free, p.Valid free ∧ p.numGpuBlocks = numGpuBlocks ∧ p.nullBlock = 0 ∧
      p.enableCaching = enableCaching ∧ p.enableKvCacheEvents = enableKvCacheEvents ∧
      (∀ b, p.refCnt b = 0 ∧ p.blockHash b = none) ∧ free.length + 1 = numGpuBlocks := by
  cases numGpuBlocks with
  | zero => cases h
  | succ n =>
    have hrange : List.range (n + 1) = 0 :: (List.range n).map (· + 1) := range_succ_eq_map
    have hall := Queue.represents_ofList (nodup_range (n := n + 1))
    rw [hrange] at hall
    obtain ⟨_, hpop, hqueue⟩ := hall.popleft
    simp only [new, Nat.succ_ne_zero, if_false, hrange, hpop, liftFault_ok, bind, Except.bind, pure,
      Except.pure] at h
    cases h
    refine ⟨(List.range n).map (· + 1), ⟨⟨?_, ?_, nofun, ?_⟩, hqueue, ?_, ?_, ?_⟩, rfl, rfl, rfl,
      rfl, fun _ => ⟨rfl, rfl⟩, by simp⟩
    · simp
    · intro key
      exact nodup_nil
    · intro _ _
      rfl
    · intro b
      simp only [mem_map, mem_range]
      constructor
      · rintro ⟨_, ha, rfl⟩
        exact ⟨by omega, by omega, trivial⟩
      · intro ⟨hlt, hne, _⟩
        exact ⟨b - 1, by omega, by omega⟩
    · intro _ _
      exact Int.le_refl 0
    · exact Nat.succ_pos n

/-! ### Eviction -/

section Evict

variable {p : BlockPool}

theorem CacheValid.maybeEvict (h : p.CacheValid) (b : ℕ) :
    (p.maybeEvictCachedBlock b).CacheValid ∧
      (p.maybeEvictCachedBlock b).blockHash = update p.blockHash b none ∧
      (p.maybeEvictCachedBlock b).refCnt = p.refCnt ∧
      (p.maybeEvictCachedBlock b).freeBlockQueue = p.freeBlockQueue ∧
      Same p (p.maybeEvictCachedBlock b) := by
  unfold maybeEvictCachedBlock
  split
  · rename_i hnone
    rw [← hnone, update_eq_self]
    exact ⟨h, rfl, rfl, rfl, Same.refl p⟩
  · rename_i key hkey
    have hmem := (h.mem_cached key b).mpr hkey
    rw [if_neg (ne_nil_of_mem hmem)]
    refine ⟨⟨?_, ?_, ?_, ?_⟩, rfl, rfl, rfl, ⟨rfl, rfl, rfl, rfl⟩⟩
    · -- mem_cached: the block leaves the list of its own hash, and no other list has it.
      intro key' b'
      dsimp only
      by_cases hb : b' = b
      · subst hb
        rw [update_self]
        refine iff_of_false ?_ nofun
        by_cases hkey' : key' = key
        · rw [hkey', update_self]
          exact (h.nodup_cached key).not_mem_erase
        · rw [update_of_ne hkey', h.mem_cached, hkey, Option.some.injEq]
          exact Ne.symm hkey'
      · rw [update_of_ne hb, ← h.mem_cached]
        by_cases hkey' : key' = key
        · rw [hkey', update_self, mem_erase_of_ne hb]
        · rw [update_of_ne hkey']
    · intro key'
      dsimp only
      by_cases hkey' : key' = key
      · rw [hkey', update_self]
        exact (h.nodup_cached key).erase b
      · rw [update_of_ne hkey']
        exact h.nodup_cached key'
    · intro b' key' hb'
      dsimp only at hb'
      by_cases hb : b' = b
      · rw [hb, update_self] at hb'
        cases hb'
      · rw [update_of_ne hb] at hb'
        exact h.hash_lt b' key' hb'
    · -- A block with a hash means that caching is on.
      intro hdisabled b'
      rw [h.disabled hdisabled b] at hkey
      cases hkey

/-- Blocks without references are handed out, and lose their hashes. -/
theorem CacheValid.handOut (h : p.CacheValid) {blocks : List ℕ} (hnodup : blocks.Nodup)
    (hfree : ∀ b ∈ blocks, p.refCnt b = 0) :
    ∃ p', handOut blocks p = .ok p' ∧ p'.CacheValid ∧
      (∀ b, p'.refCnt b = if b ∈ blocks then 1 else p.refCnt b) ∧
      (∀ b, p'.blockHash b = if b ∈ blocks then none else p.blockHash b) ∧
      p'.freeBlockQueue = p.freeBlockQueue ∧ Same p p' := by
  induction blocks generalizing p with
  | nil => exact ⟨p, rfl, h, by simp, by simp, rfl, Same.refl p⟩
  | cons b blocks ih =>
    obtain ⟨hb, hrest⟩ := nodup_cons.mp hnodup
    -- with caching disabled there is no hash to take away
    have hevict : ∃ q, (if p.enableCaching then p.maybeEvictCachedBlock b else p) = q ∧
        q.CacheValid ∧ q.blockHash = update p.blockHash b none ∧ q.refCnt = p.refCnt ∧
        q.freeBlockQueue = p.freeBlockQueue ∧ Same p q := by
      refine ⟨_, rfl, ?_⟩
      cases hcaching : p.enableCaching with
      | true => exact h.maybeEvict b
      | false =>
        have hnone : p.blockHash b = none := h.disabled hcaching b
        refine ⟨h, ?_, rfl, rfl, Same.refl p⟩
        rw [← hnone, update_eq_self]
        rfl
    obtain ⟨q, hq, hvalid, hhash, hcnt, hqueue, hsame⟩ := hevict
    have hzero : q.refCnt b = 0 := by
      rw [hcnt]
      exact hfree b mem_cons_self
    obtain ⟨p', hp', hvalid', hcnt', hhash', hqueue', hsame'⟩ :=
      ih (p := { q with refCnt := update q.refCnt b (q.refCnt b + 1) })
        ⟨hvalid.1, hvalid.2, hvalid.3, hvalid.4⟩ hrest (by
          intro b' hb'
          have hne : b' ≠ b := fun heq => hb (heq ▸ hb')
          simp only [update_of_ne hne, hcnt]
          exact hfree b' (mem_cons_of_mem _ hb'))
    refine ⟨p', ?_, hvalid', ?_, ?_, hqueue'.trans hqueue,
      hsame.trans ⟨hsame'.1, hsame'.2, hsame'.3, hsame'.4⟩⟩
    · simp only [BlockPool.handOut, hq, hzero, ne_eq, not_true_eq_false, if_false]
      simpa [hzero] using hp'
    · intro b'
      rw [hcnt']
      by_cases hne : b' = b
      · simp [hne, hb, hzero]
      · simp [hne, hcnt]
    · intro b'
      rw [hhash']
      by_cases hne : b' = b
      · simp [hne, hb, hhash]
      · simp [hne, hhash]

end Evict

/-! ### What the operations do -/

section Operations

variable {p p' : BlockPool} {free : List ℕ}

/-- Blocks are taken from the front of the queue, so none of them has references. -/
theorem Valid.getNewBlocks (h : p.Valid free) {n : ℕ} (hn : n ≤ free.length) :
    ∃ p', p.getNewBlocks n = .ok (free.take n, p') ∧ p'.Valid (free.drop n) ∧
      (∀ b, p'.refCnt b = if b ∈ free.take n then 1 else p.refCnt b) ∧
      (∀ b, p'.blockHash b = if b ∈ free.take n then none else p.blockHash b) ∧ Same p p' := by
  obtain ⟨queue, hpop, hqueue⟩ := h.queue.popleftN hn
  have hnodup : (free.take n ++ free.drop n).Nodup := by
    rw [take_append_drop]
    exact h.queue.nodup
  obtain ⟨htake, -, hapart⟩ := nodup_append.mp hnodup
  have hcache : CacheValid { p with freeBlockQueue := queue } :=
    ⟨h.mem_cached, h.nodup_cached, h.hash_lt, h.disabled⟩
  -- Blocks that come off the queue are held by nobody, so that they can be handed out.
  obtain ⟨p', hp', hvalid, hcnt, hhash, hqueue', hsame⟩ := hcache.handOut htake fun b hb =>
    ((h.mem_free b).mp (mem_of_mem_take hb)).2.2
  have henough : ¬ p.getNumFreeBlocks < n := by
    rw [h.getNumFreeBlocks]
    omega
  refine ⟨p', ?_, ⟨hvalid, ?_, ?_, ?_, ?_⟩, hcnt, hhash,
    ⟨hsame.1, hsame.2, hsame.3, hsame.4⟩⟩
  · simp only [BlockPool.getNewBlocks, henough, if_false, hpop, liftFault_ok, hp', bind,
      Except.bind, pure, Except.pure]
  · rw [hqueue']
    exact hqueue
  · intro b
    rw [hcnt, hsame.nullBlock, hsame.numGpuBlocks]
    have hfree := h.mem_free b
    by_cases hb : b ∈ free.take n
    · rw [if_pos hb]
      exact iff_of_false (fun hdrop => hapart b hb b hdrop rfl) (by omega)
    · simp only [hb, if_false]
      rw [← hfree, ← take_append_drop n free, mem_append, or_iff_right]
      · simp
      · simpa using hb
  · intro b hb
    rw [hcnt]
    rw [hsame.nullBlock] at hb
    split
    · exact Int.one_nonneg
    · exact h.nonneg b hb
  · rw [hsame.nullBlock, hsame.numGpuBlocks]
    exact h.null_lt

theorem Valid.getNewBlocks_le (h : p.Valid free) {n : ℕ} {ret : List ℕ}
    (hok : p.getNewBlocks n = .ok (ret, p')) : n ≤ free.length := by
  unfold BlockPool.getNewBlocks at hok
  rw [h.getNumFreeBlocks] at hok
  split at hok
  · cases hok
  · omega

/-- A block that is touched leaves the queue. -/
theorem Valid.touchBlock (h : p.Valid free) {b : ℕ} (hb : b < p.numGpuBlocks) :
    ∃ p', p.touchBlock b = .ok p' ∧ p'.Valid (free.erase b) ∧
      p'.refCnt = update p.refCnt b (p.refCnt b + 1) ∧ p'.blockHash = p.blockHash ∧
      Same p p' := by
  by_cases hmem : b ∈ free
  · -- The block is free, and is taken out of the middle of the queue.
    obtain ⟨-, hnull, hzero⟩ := (h.mem_free b).mp hmem
    obtain ⟨queue, hremove, hqueue⟩ := h.queue.remove hmem
    refine ⟨{ p with
      freeBlockQueue := queue
      refCnt := update p.refCnt b (p.refCnt b + 1) }, ?_,
      ⟨⟨h.mem_cached, h.nodup_cached, h.hash_lt, h.disabled⟩, hqueue, ?_, ?_, h.null_lt⟩, rfl, rfl,
      ⟨rfl, rfl, rfl, rfl⟩⟩
    · simp [BlockPool.touchBlock, hzero, isNull, hnull, hremove, bind, Except.bind, pure,
        Except.pure]
    · intro b'
      rw [h.queue.nodup.mem_erase_iff, h.mem_free]
      by_cases hne : b' = b
      · simp [hne, hzero]
      · simp [hne]
    · intro b' hb'
      by_cases hne : b' = b
      · simp [hne, hzero]
      · simp only [update_of_ne hne]
        exact h.nonneg b' hb'
  · -- It is held already, or it is the null block: only the count goes up.
    have hskip : ¬ (p.refCnt b = 0 ∧ p.isNull b = false) := by
      intro ⟨hzero, hnull⟩
      exact hmem ((h.mem_free b).mpr ⟨hb, by simpa [isNull] using hnull, hzero⟩)
    rw [erase_of_not_mem hmem]
    refine ⟨{ p with refCnt := update p.refCnt b (p.refCnt b + 1) }, ?_,
      ⟨⟨h.mem_cached, h.nodup_cached, h.hash_lt, h.disabled⟩, h.queue, ?_, ?_, h.null_lt⟩, rfl, rfl,
      ⟨rfl, rfl, rfl, rfl⟩⟩
    · simp only [BlockPool.touchBlock, hskip, if_false, bind, Except.bind, pure, Except.pure]
    · intro b'
      by_cases hne : b' = b
      · subst hne
        refine iff_of_false hmem ?_
        simp only [update_self]
        intro ⟨hlt, hnull, hzero⟩
        have := h.nonneg b' hnull
        omega
      · simp only [update_of_ne hne]
        exact h.mem_free b'
    · intro b' hb'
      have := h.nonneg b' hb'
      by_cases hne : b' = b
      · subst hne
        simp only [update_self]
        omega
      · simp only [update_of_ne hne]
        exact this

theorem Valid.touch (h : p.Valid free) {blocks : List (List ℕ)}
    (hblocks : ∀ b ∈ blocks.flatten, b < p.numGpuBlocks) :
    ∃ p', p.touch blocks = .ok p' ∧ p'.Valid (free.diff blocks.flatten) ∧
      (∀ b, p'.refCnt b = p.refCnt b + blocks.flatten.count b) ∧ p'.blockHash = p.blockHash ∧
      Same p p' := by
  unfold BlockPool.touch
  generalize blocks.flatten = bs at *
  induction bs generalizing p free with
  | nil => exact ⟨p, rfl, h, by simp, rfl, Same.refl p⟩
  | cons b bs ih =>
    obtain ⟨q, hq, hvalid, hcnt, hhash, hsame⟩ := h.touchBlock (hblocks b mem_cons_self)
    obtain ⟨p', hp', hvalid', hcnt', hhash', hsame'⟩ := ih hvalid (by
      intro b' hb'
      rw [hsame.numGpuBlocks]
      exact hblocks b' (mem_cons_of_mem _ hb'))
    refine ⟨p', ?_, ?_, ?_, hhash'.trans hhash, hsame.trans hsame'⟩
    · rw [foldlM_cons_eq_ok]
      exact ⟨q, hq, hp'⟩
    · rw [diff_cons]
      exact hvalid'
    · intro b'
      rw [hcnt', hcnt, count_cons]
      by_cases hne : b' = b
      · subst hne
        simp only [update_self, BEq.rfl, if_true]
        omega
      · have hbeq : (b == b') = false := by simpa using Ne.symm hne
        simp [update_of_ne hne, hbeq]

theorem foldl_releaseBlock (blocks : List ℕ) (p : BlockPool) :
    blocks.foldl releaseBlock p =
      { p with refCnt := fun b => p.refCnt b - blocks.count b } := by
  induction blocks generalizing p with
  | nil => simp
  | cons b blocks ih =>
    rw [foldl_cons, ih]
    unfold releaseBlock
    congr 1
    funext b'
    rw [count_cons]
    by_cases hne : b' = b
    · subst hne
      simp only [update_self, BEq.rfl, if_true]
      omega
    · have hbeq : (b == b') = false := by simpa using Ne.symm hne
      simp [update_of_ne hne, hbeq]

theorem freeBlocks_eq_ok {blocks : List ℕ} (hok : p.freeBlocks blocks = .ok p') :
    ∃ queue, p' = { p with
      refCnt := fun b => p.refCnt b - blocks.count b
      freeBlockQueue := queue } := by
  unfold BlockPool.freeBlocks at hok
  rw [foldl_releaseBlock] at hok
  obtain ⟨queue, -, hok⟩ := bind_eq_ok.mp hok
  cases hok
  exact ⟨queue, rfl⟩

/-- Released blocks that have no references left are put at the back of the queue. -/
theorem Valid.freeBlocks (h : p.Valid free) {blocks : List ℕ}
    (hnodup : (blocks.filter (· ≠ p.nullBlock)).Nodup)
    (hused : ∀ b ∈ blocks, b ≠ p.nullBlock → b < p.numGpuBlocks ∧ 1 ≤ p.refCnt b) :
    ∃ p', p.freeBlocks blocks = .ok p' ∧
      p'.Valid (free ++ blocks.filter fun b => b ≠ p.nullBlock ∧ p.refCnt b = 1) ∧
      (∀ b, p'.refCnt b = p.refCnt b - blocks.count b) ∧ p'.blockHash = p.blockHash ∧
      Same p p' := by
  -- a block other than the null block is released at most once
  have hcount : ∀ b ∈ blocks, b ≠ p.nullBlock → blocks.count b = 1 := by
    intro b hb hnull
    have hmem : b ∈ blocks.filter (· ≠ p.nullBlock) :=
      mem_filter.mpr ⟨hb, by simpa using hnull⟩
    rw [← count_filter (p := fun b => decide (b ≠ p.nullBlock)) (by simpa using hnull)]
    exact count_eq_one_of_mem hnodup hmem
  have hfilter : (blocks.filter fun b => decide (p.refCnt b - blocks.count b = 0) && !p.isNull b) =
      blocks.filter fun b => b ≠ p.nullBlock ∧ p.refCnt b = 1 := by
    apply filter_congr
    intro b hb
    by_cases hnull : b = p.nullBlock
    · simp [isNull, hnull]
    · rw [hcount b hb hnull]
      simp only [isNull, beq_eq_false_iff_ne.mpr hnull, Bool.not_false, Bool.and_true, ne_eq, hnull,
        not_false_eq_true, true_and, decide_eq_decide]
      omega
  have happend : (free ++ blocks.filter fun b => b ≠ p.nullBlock ∧ p.refCnt b = 1).Nodup := by
    rw [nodup_append]
    refine ⟨h.queue.nodup, ?_, ?_⟩
    · have hsub : (blocks.filter fun b => b ≠ p.nullBlock ∧ p.refCnt b = 1).Sublist
          (blocks.filter (· ≠ p.nullBlock)) := by
        apply monotone_filter_right
        intro b hb
        simp only [ne_eq, decide_eq_true_eq] at hb ⊢
        exact hb.1
      exact hnodup.sublist hsub
    · rintro b hb _ hb' rfl
      have hzero := ((h.mem_free b).mp hb).2.2
      have hone := (mem_filter.mp hb').2
      simp only [decide_eq_true_eq] at hone
      omega
  obtain ⟨queue, hqueue, hrep⟩ := h.queue.appendN happend
  refine ⟨{ p with
    refCnt := fun b => p.refCnt b - blocks.count b
    freeBlockQueue := queue }, ?_,
    ⟨⟨h.mem_cached, h.nodup_cached, h.hash_lt, h.disabled⟩, hrep, ?_, ?_, h.null_lt⟩, fun _ => rfl,
    rfl, ⟨rfl, rfl, rfl, rfl⟩⟩
  · unfold BlockPool.freeBlocks
    rw [foldl_releaseBlock]
    simp only [isNull] at hfilter
    simp only [isNull, hfilter, hqueue, liftFault_ok, bind, Except.bind, pure, Except.pure]
  · intro b
    simp only [mem_append, mem_filter, decide_eq_true_eq]
    rw [h.mem_free]
    by_cases hb : b ∈ blocks
    · by_cases hnull : b = p.nullBlock
      · simp [hnull]
      · obtain ⟨hlt, hone⟩ := hused b hb hnull
        rw [hcount b hb hnull]
        simp only [hb, hnull, hlt, ne_eq, not_false_eq_true, true_and]
        omega
    · simp [hb, count_eq_zero_of_not_mem hb]
  · intro b hb
    have hnonneg := h.nonneg b hb
    dsimp only
    by_cases hmem : b ∈ blocks
    · have := (hused b hmem hb).2
      rw [hcount b hmem hb]
      omega
    · rw [count_eq_zero_of_not_mem hmem]
      omega

theorem CacheValid.insertCached (h : p.CacheValid) {b : ℕ} (hnone : p.blockHash b = none)
    (hlt : b < p.numGpuBlocks) (henabled : p.enableCaching = true) (key : BlockHashWithGroupId) :
    (p.insertCached b key).CacheValid := by
  have hnew : ∀ key', b ∉ p.cachedBlockHashToBlock key' := by
    intro key' hmem
    rw [h.mem_cached, hnone] at hmem
    cases hmem
  unfold BlockPool.insertCached
  rw [if_neg (hnew key)]
  refine ⟨?_, ?_, ?_, ?_⟩
  · intro key' b'
    dsimp only
    by_cases hkey : key' = key
    · rw [hkey, update_self, mem_append, mem_singleton]
      by_cases hb : b' = b
      · simp [hb]
      · rw [update_of_ne hb, ← h.mem_cached]
        simp [hb]
    · rw [update_of_ne hkey]
      by_cases hb : b' = b
      · rw [hb, update_self, Option.some.injEq]
        exact iff_of_false (hnew key') (Ne.symm hkey)
      · rw [update_of_ne hb, h.mem_cached]
  · intro key'
    dsimp only
    by_cases hkey : key' = key
    · rw [hkey, update_self]
      exact (h.nodup_cached key).append (nodup_singleton b) (by simpa using hnew key)
    · rw [update_of_ne hkey]
      exact h.nodup_cached key'
  · intro b' key' hb'
    dsimp only at hb'
    by_cases hb : b' = b
    · exact hb ▸ hlt
    · rw [update_of_ne hb] at hb'
      exact h.hash_lt b' key' hb'
  · intro hdisabled
    rw [henabled] at hdisabled
    cases hdisabled

/-- What caching a list of blocks does: they get the hashes of the request from position `idx`
on, which may be extended. -/
structure Caches (env : HashEnv) (group idx : ℕ) (blocks : List ℕ) (p p' : BlockPool)
    (hashes hashes' : List BlockHash) : Prop where
  extended : hashes <+: hashes'
  enough : idx + blocks.length ≤ hashes'.length
  nodup : blocks.Nodup
  fresh : ∀ b ∈ blocks, p.blockHash b = none
  cached : ∀ (i b : ℕ), blocks[i]? = some b →
    ∃ h, hashes'[idx + i]? = some h ∧ p'.blockHash b = some ⟨h, group⟩
  others : ∀ b ∉ blocks, p'.blockHash b = p.blockHash b
  refCnt : p'.refCnt = p.refCnt
  freeBlockQueue : p'.freeBlockQueue = p.freeBlockQueue
  same : Same p p'

section Caching

variable {env : HashEnv} {r : Request} {blockSize group idx : ℕ} {blocks : List ℕ}
  {hashes hashes' : List BlockHash} {prev : Option ℤ} {values : List ℤ}

/-- The hash of a full block stands at its position of the extended list. -/
theorem fullBlockHash_eq_ok (hidx : idx ≤ hashes.length) {h : BlockHash}
    (hok : fullBlockHash env r blockSize idx (hashes.drop idx) hashes prev = .ok (h, hashes')) :
    hashes <+: hashes' ∧ hashes'[idx]? = some h ∧
      (hashes.drop idx).tail = hashes'.drop (idx + 1) ∧
      (HashChain env hashes → prev = prevValue hashes idx → HashChain env hashes') := by
  unfold fullBlockHash at hok
  split at hok
  · rename_i h' known hknown
    obtain ⟨rfl, rfl⟩ := Prod.mk.inj (Except.ok.inj hok)
    have hget : hashes[idx]? = some h' := by
      rw [← head?_drop, hknown]
      rfl
    exact ⟨prefix_rfl, hget, tail_drop, fun hchain _ => hchain⟩
  · rename_i hknown
    -- all hashes of the request are used up
    obtain rfl : idx = hashes.length := by
      have := drop_eq_nil_iff.mp hknown
      omega
    split at hok
    · cases hok
    · obtain ⟨⟨_, _⟩, -, hok⟩ := bind_eq_ok.mp hok
      obtain ⟨rfl, rfl⟩ := Prod.mk.inj (Except.ok.inj hok)
      refine ⟨prefix_append _ _, by simp, by simp, ?_⟩
      intro hchain hprev
      apply hashChain_concat hchain
      rw [← hprev]
      exact extends_hashBlockTokens _ _ _ _

theorem cacheLoop_eq_ok (hidx : idx ≤ hashes.length)
    (hok : cacheLoop env r blockSize group blocks (hashes.drop idx) idx prev p hashes =
      .ok (p', hashes', values)) :
    Caches env group idx blocks p p' hashes hashes' ∧
      (p.CacheValid → p.enableCaching = true → (∀ b ∈ blocks, b < p.numGpuBlocks) →
        p'.CacheValid) ∧
      (HashChain env hashes → prev = prevValue hashes idx → HashChain env hashes') := by
  -- The induction is on the blocks that are left; `idx` is the position of the first of them.
  induction blocks generalizing p hashes idx prev values with
  | nil =>
    obtain ⟨rfl, rfl, rfl⟩ : p = p' ∧ hashes = hashes' ∧ [] = values := by
      simpa [cacheLoop] using hok
    refine ⟨⟨prefix_rfl, by simpa using hidx, nodup_nil, by simp, by simp, by simp, rfl,
      rfl, Same.refl p⟩, fun h _ _ => h, fun h _ => h⟩
  | cons b blocks ih =>
    rw [cacheLoop] at hok
    split at hok
    · cases hok
    · rename_i hnone
      have hfresh : p.blockHash b = none := by simpa using hnone
      obtain ⟨⟨h, hashes₁⟩, hhash, hok⟩ := bind_eq_ok.mp hok
      obtain ⟨⟨q, hashes₂, values'⟩, hloop, hok⟩ := bind_eq_ok.mp hok
      obtain ⟨rfl, rfl, -⟩ : q = p' ∧ hashes₂ = hashes' ∧ _ := by
        simpa [pure, Except.pure] using hok
      obtain ⟨hext, hget, htail, hchain⟩ := fullBlockHash_eq_ok hidx hhash
      rw [htail] at hloop
      have hlt : idx + 1 ≤ hashes₁.length := (List.getElem?_eq_some_iff.mp hget).1
      obtain ⟨hcaches, hvalid, hchain'⟩ := ih hlt hloop
      -- The block has a hash now, and the later ones had none when they were reached.
      have hb : b ∉ blocks := by
        intro hmem
        have := hcaches.fresh b hmem
        simp [BlockPool.insertCached] at this
      refine ⟨⟨hext.trans hcaches.extended, ?_, nodup_cons.mpr ⟨hb, hcaches.nodup⟩, ?_, ?_,
        ?_, hcaches.refCnt, hcaches.freeBlockQueue, ?_⟩, ?_, ?_⟩
      · have := hcaches.enough
        simp only [length_cons]
        omega
      · intro b' hb'
        rcases mem_cons.mp hb' with rfl | hb'
        · exact hfresh
        · have hne : b' ≠ b := fun heq => hb (heq ▸ hb')
          simpa [BlockPool.insertCached, hne] using hcaches.fresh b' hb'
      · -- cached: block `i` has the hash at its position, which the later rounds only extend.
        intro i b' hb'
        cases i with
        | zero =>
          obtain rfl : b = b' := by simpa using hb'
          refine ⟨h, ?_, ?_⟩
          · obtain ⟨later, rfl⟩ := hcaches.extended
            rw [Nat.add_zero, getElem?_append_left hlt, hget]
          · rw [hcaches.others b hb]
            simp [BlockPool.insertCached]
        | succ i =>
          obtain ⟨h', hh', hhash'⟩ := hcaches.cached i b' (by simpa using hb')
          refine ⟨h', ?_, hhash'⟩
          rw [← hh']
          congr 1
          omega
      · intro b' hb'
        obtain ⟨hne, hnot⟩ := not_or.mp (mt mem_cons.mpr hb')
        rw [hcaches.others b' hnot]
        simp [BlockPool.insertCached, hne]
      · exact ⟨hcaches.same.1, hcaches.same.2, hcaches.same.3, hcaches.same.4⟩
      · intro hcache henabled hall
        refine hvalid (hcache.insertCached hfresh (hall b mem_cons_self) henabled _) henabled
          ?_
        intro b' hb'
        exact hall b' (mem_cons_of_mem _ hb')
      · intro hchain₀ hprev
        refine hchain' (hchain hchain₀ hprev) ?_
        rw [prevValue_succ, hget]
        rfl

/-- A call that returns either had nothing to do, or found a hash on the block before the new full
ones and cached these. -/
theorem cacheFullBlocks_eq_ok {numCachedBlocks numFullBlocks : ℕ}
    (hok : p.cacheFullBlocks env r blocks hashes numCachedBlocks numFullBlocks blockSize group =
      .ok (p', hashes')) :
    (numCachedBlocks = numFullBlocks ∧ p' = p ∧ hashes' = hashes) ∨
      (numCachedBlocks ≤ hashes.length ∧
        ∃ parent, p.prevBlockHashValue blocks numCachedBlocks = .ok parent ∧
          Caches env group numCachedBlocks (newFullBlocks blocks numCachedBlocks numFullBlocks)
            p p' hashes hashes' ∧
          (p.CacheValid → p.enableCaching = true →
            (∀ b ∈ newFullBlocks blocks numCachedBlocks numFullBlocks, b < p.numGpuBlocks) →
            p'.CacheValid) ∧
          (HashChain env hashes → parent = prevValue hashes numCachedBlocks →
            HashChain env hashes')) := by
  unfold BlockPool.cacheFullBlocks at hok
  split at hok
  · rename_i heq
    cases hok
    exact .inl ⟨heq, rfl, rfl⟩
  · dsimp only at hok
    split at hok
    · cases hok
    · rename_i hlong
      obtain ⟨parent, hparent, hok⟩ := bind_eq_ok.mp hok
      obtain ⟨⟨_, hashes₁, _⟩, hloop, hok⟩ := bind_eq_ok.mp hok
      obtain ⟨hcaches, hvalid, hchain⟩ := cacheLoop_eq_ok (not_lt.mp hlong) hloop
      refine .inr ⟨not_lt.mp hlong, parent, hparent, ?_⟩
      split at hok
      · split at hok
        · cases hok
        · cases hok
          refine ⟨⟨hcaches.1, hcaches.2, hcaches.3, hcaches.4, hcaches.5, hcaches.6, hcaches.7,
            hcaches.8, ⟨hcaches.9.1, hcaches.9.2, hcaches.9.3, hcaches.9.4⟩⟩, ?_, hchain⟩
          intro hcache henabled hall
          have h := hvalid hcache henabled hall
          exact ⟨h.1, h.2, h.3, h.4⟩
      · cases hok
        exact ⟨hcaches, hvalid, hchain⟩

end Caching

/-- All hashes are forgotten, and only if no block is in use. -/
theorem Valid.resetPrefixCache (h : p.Valid free) :
    (p.resetPrefixCache = (false, p)) ∨
      (p.numGpuBlocks = free.length + 1 ∧ p.resetPrefixCache.1 = true ∧
        p.resetPrefixCache.2.Valid free ∧ p.resetPrefixCache.2.refCnt = p.refCnt ∧
        (∀ b, p.resetPrefixCache.2.blockHash b = none) ∧ Same p p.resetPrefixCache.2) := by
  unfold BlockPool.resetPrefixCache
  rw [h.getNumFreeBlocks]
  split
  · exact .inl rfl
  · refine .inr ⟨by omega, rfl, ⟨⟨by simp, fun _ => nodup_nil, nofun, fun _ _ => rfl⟩, h.queue,
      h.mem_free, h.nonneg, h.null_lt⟩, rfl, fun _ => rfl, ⟨rfl, rfl, rfl, rfl⟩⟩

end Operations

end BlockPool

end Kv
