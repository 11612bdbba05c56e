import Mosaic.Kv.Calls

/-!
# Conservation of blocks

In every run in which no null block is cached, the count of a block is the number of tables that
hold it, the queue holds exactly the blocks without references, and new blocks are never in use.

A null block is cached if a request drops a block before it is full and cached. Then the null block
has a hash, which a later request takes for the hash of one of its own blocks, two of its blocks
get the same hash, and after a preemption it takes one block twice.
-/

namespace Kv

namespace KVCacheManager

/-- The tables that hold a block. -/
def holders (s : KVCacheManager) (b : ℕ) : Set (ℕ × String) :=
  {x | x.1 < s.numKvCacheGroups ∧ b ∈ (s.managers x.1).reqToBlocks x.2}

/-- Blocks are neither lost nor shared by accident. -/
structure Conserved (s : KVCacheManager) : Prop where
  /-- The count of a block is the number of tables that hold it. -/
  refCnt : ∀ b < s.blockPool.numGpuBlocks, b ≠ s.blockPool.nullBlock →
    (s.holders b).Finite ∧ s.blockPool.refCnt b = (s.holders b).ncard
  /-- The queue is a list without repetitions of the blocks without references, and its size is
  the length of the list. -/
  queue : ∃ free : List ℕ, s.blockPool.freeBlockQueue.Represents free ∧ free.Nodup ∧
    (∀ b, b ∈ free ↔ b < s.blockPool.numGpuBlocks ∧ b ≠ s.blockPool.nullBlock ∧
      s.blockPool.refCnt b = 0) ∧
    s.blockPool.getNumFreeBlocks = free.length
  /-- Blocks that are handed out have no references. -/
  handedOut : ∀ n newBlocks p, s.blockPool.getNewBlocks n = .ok (newBlocks, p) →
    ∀ b ∈ newBlocks, b ≠ s.blockPool.nullBlock ∧ s.blockPool.refCnt b = 0

end KVCacheManager

open KVCacheManager

variable {env : HashEnv} {s s' : KVCacheManager} {free : List ℕ}

theorem Consistent.holders_eq (h : Consistent env s free) (b : ℕ) :
    s.holders b = Tables.holders s.tables b := by
  ext ⟨g, r⟩
  refine ⟨fun hx => hx.2, fun hx => ⟨?_, hx⟩⟩
  by_contra hg
  rw [Tables.mem_holders, h.outside g r (not_lt.mp hg)] at hx
  cases hx

theorem Consistent.conserved (h : Consistent env s free) : s.Conserved where
  refCnt b _ hnull := by
    rw [h.holders_eq b]
    exact ⟨h.sharing.finite.holders b, h.sharing.count b hnull⟩
  queue :=
    ⟨free, h.sharing.valid.queue, h.sharing.valid.queue.nodup, h.sharing.valid.mem_free,
      h.sharing.valid.getNumFreeBlocks⟩
  handedOut n newBlocks p hok b hb := by
    obtain ⟨-, rfl, -⟩ := h.sharing.allocate (0, "") hok
    exact ((h.sharing.valid.mem_free b).mp (List.mem_of_mem_take hb)).2

/-- In every run that caches no null block, blocks are conserved, and the new blocks of a further
call are held by the table that they were allocated for only. -/
theorem conservation (hfree : env.CollisionFree) {cfg : KVCacheConfig} {maxModelLen : ℕ}
    {enableCaching useEagle enableKvCacheEvents : Bool}
    (hnew : new cfg maxModelLen enableCaching useEagle enableKvCacheEvents = .ok s)
    {calls : List Call} (run : Transition.Execution (NullFreeStep env) s calls s') :
    s'.Conserved ∧ ∀ c s'' newBlocks, s'.NullFree env c →
      s'.call env c = .ok (s'', some newBlocks) → NewBlocksSingle s'' c.requestId newBlocks := by
  obtain ⟨_, hcons⟩ := consistent_new hnew
  obtain ⟨_, hmoves⟩ := moves_of_execution hfree hcons run
  obtain ⟨hcons', -⟩ := hmoves.consistent hfree hcons
  refine ⟨hcons'.conserved, ?_⟩
  intro c s'' newBlocks hnull hok
  exact (moves_call hfree hcons' False.elim hnull hok).2 newBlocks rfl

/-! ### A block that is taken twice -/

section Example

/-- Two groups: a layer that attends to chunks of four tokens, and a layer that attends to all. -/
def localAndFull (numBlocks : ℕ) : KVCacheConfig where
  numBlocks := numBlocks
  kvCacheTensors := []
  kvCacheGroups :=
    [⟨["local"], .chunkedLocalAttention ⟨4, 1, 1, .float16, false⟩ 4⟩,
      ⟨["full"], .fullAttention ⟨4, 1, 1, .float16, false⟩ none none⟩]

/-- A request whose tokens are all zero. -/
def zeros (requestId : String) (numTokens numComputedTokens : ℕ) : Request where
  requestId := requestId
  allTokenIds := List.replicate numTokens 0
  numComputedTokens := numComputedTokens

/-- The first request gets three draft tokens after its first one, and all are accepted, so that
its first block is dropped before it is cached. -/
def nullCachingCalls : List Call :=
  [.allocateComputed (zeros "a" 1 0) 1 0 false,
    .allocateSlots (zeros "a" 2 1) 4 0 false,
    .allocateSlots (zeros "a" 6 5) 1 0 false]

/-- The second request is preempted after its prompt, and again after its third block. -/
def blockTakenTwiceCalls : List Call :=
  nullCachingCalls ++
  [.allocateComputed (zeros "b" 9 0) 5 0 false,
    .preempt "b",
    .allocateComputed (zeros "b" 9 0) 1 0 false,
    .allocateSlots (zeros "b" 10 9) 3 0 false,
    .allocateSlots (zeros "b" 13 12) 1 0 false,
    .preempt "b",
    .allocateComputed (zeros "b" 13 0) 1 0 false,
    .preempt "b"]

/-- The state after calls to a new manager, if all of them return. -/
def finalState (cfg : KVCacheConfig) (calls : List Call) : Option KVCacheManager :=
  (do
    let s ← new cfg 100 true false false
    s.runCalls encodedHash calls).toOption

theorem finalState_eq_some {cfg : KVCacheConfig} {calls : List Call}
    (h : finalState cfg calls = some s') :
    ∃ s, new cfg 100 true false false = .ok s ∧
      Transition.Execution (Step encodedHash) s calls s' := by
  obtain ⟨s, hs, hcalls⟩ := Fallible.bind_eq_ok.mp (Fallible.toOption_eq_some.mp h)
  exact ⟨s, hs, execution_runCalls hcalls⟩

/-- After the run the queue counts nine blocks, but eight blocks have no references. -/
theorem block_taken_twice : encodedHash.CollisionFree ∧
    ∃ s s', new (localAndFull 12) 100 true false false = .ok s ∧
      Transition.Execution (Step encodedHash) s blockTakenTwiceCalls s' ∧ ¬ s'.Conserved := by
  have hfinal : (finalState (localAndFull 12) blockTakenTwiceCalls).map (fun s =>
      (s.blockPool.numGpuBlocks, s.blockPool.nullBlock, s.blockPool.getNumFreeBlocks,
        (List.range 12).filter fun b => s.blockPool.refCnt b = 0)) =
      some (12, 0, 9, [0, 1, 5, 6, 7, 8, 9, 10, 11]) := by
    decide +kernel
  obtain ⟨s', hs', hvalues⟩ := Option.map_eq_some_iff.mp hfinal
  obtain ⟨hnum, hnull, hsize, hzero⟩ : s'.blockPool.numGpuBlocks = 12 ∧
      s'.blockPool.nullBlock = 0 ∧ s'.blockPool.getNumFreeBlocks = 9 ∧
      (List.range 12).filter (fun b => s'.blockPool.refCnt b = 0) =
        [0, 1, 5, 6, 7, 8, 9, 10, 11] := by
    simpa using hvalues
  obtain ⟨s, hnew, hrun⟩ := finalState_eq_some hs'
  refine ⟨encodedHash_collisionFree, s, s', hnew, hrun, ?_⟩
  intro hconserved
  obtain ⟨free, -, hnodup, hmem, hlength⟩ := hconserved.queue
  -- Eight blocks besides the null block are held by nobody, and the pool counts nine.
  have hsub : free ⊆ [1, 5, 6, 7, 8, 9, 10, 11] := by
    intro b hb
    obtain ⟨hlt, hne, hcnt⟩ := (hmem b).mp hb
    rw [hnum] at hlt
    rw [hnull] at hne
    have hfilter : b ∈ (List.range 12).filter fun b => s'.blockPool.refCnt b = 0 :=
      List.mem_filter.mpr ⟨List.mem_range.mpr hlt, by simpa using hcnt⟩
    rw [hzero] at hfilter
    exact (List.mem_cons.mp hfilter).resolve_left hne
  have hle := (hnodup.subperm hsub).length_le
  simp only [List.length_cons, List.length_nil] at hle
  omega

instance (s : KVCacheManager) (requestId : String) (numTokens : ℕ) (skipped : ℕ → ℕ) :
    Decidable (s.NewBlocksNotNull requestId numTokens skipped) :=
  decidable_of_iff (∀ g < s.numKvCacheGroups,
    ∀ numCached ∈ (s.managers g).numCachedBlock requestId,
      ∀ i < numTokens / (s.managers g).blockSize, numCached ≤ i →
        skipped g ≤ i ∧ (s.tables (g, requestId))[i]? ≠ some s.blockPool.nullBlock)
    ⟨fun h g hg n hn i hle hlt => h g hg n hn i hlt hle,
      fun h g hg n hn i hlt hle => h g hg n hn i hle hlt⟩

instance (s : KVCacheManager) (c : Call) : Decidable (s.CallBlocksNotNull c) := by
  unfold CallBlocksNotNull
  split <;> infer_instance

/-- The state after calls to a new manager, if all of them return and would cache no null block. -/
def nullFreeState (cfg : KVCacheConfig) (calls : List Call) : Option KVCacheManager := do
  let s ← (new cfg 100 true false false).toOption
  calls.foldlM (fun s c =>
    if s.CallBlocksNotNull c then (s.call encodedHash c).toOption.map Prod.fst else none) s

theorem nullFreeState_eq_some {cfg : KVCacheConfig} {calls : List Call}
    (h : nullFreeState cfg calls = some s') :
    ∃ s, new cfg 100 true false false = .ok s ∧
      Transition.Execution (NullFreeStep encodedHash) s calls s' := by
  obtain ⟨s, hs, hcalls⟩ := Option.bind_eq_some_iff.mp h
  refine ⟨s, Fallible.toOption_eq_some.mp hs, .of_foldlM ?_ hcalls⟩
  intro s c t hstep
  split at hstep
  · rename_i hreal
    obtain ⟨⟨_, newBlocks⟩, hcall, rfl⟩ := Option.map_eq_some_iff.mp hstep
    exact ⟨fun _ => hreal, newBlocks, Fallible.toOption_eq_some.mp hcall⟩
  · cases hstep

/-- The first request fills three blocks in two calls and finishes; the second one hits them. -/
def hitAfterFinishCalls : List Call :=
  [.allocateComputed (zeros "a" 9 0) 9 0 false,
    .allocateSlots (zeros "a" 12 9) 3 0 false,
    .finish "a",
    .allocateComputed (zeros "b" 13 0) 1 0 false]

/-- The run, after which the second request holds three blocks of the first one. -/
theorem run_hit_after_finish : ∃ s s', new (localAndFull 12) 100 true false false = .ok s ∧
    Transition.Execution (NullFreeStep encodedHash) s hitAfterFinishCalls s' ∧
    s'.tables (1, "b") = [4, 5, 6, 8] := by
  have hfinal : (nullFreeState (localAndFull 12) hitAfterFinishCalls).map (fun s =>
      s.tables (1, "b")) = some [4, 5, 6, 8] := by
    decide +kernel
  obtain ⟨s', hs', htable⟩ := Option.map_eq_some_iff.mp hfinal
  obtain ⟨s, hnew, hrun⟩ := nullFreeState_eq_some hs'
  exact ⟨s, s', hnew, hrun, htable⟩

/-- Blocks are conserved when the second request has hit the blocks of the first one. -/
theorem conservation_hit_after_finish :
    ∃ s s', new (localAndFull 12) 100 true false false = .ok s ∧
      Transition.Execution (NullFreeStep encodedHash) s hitAfterFinishCalls s' ∧
      s'.tables (1, "b") = [4, 5, 6, 8] ∧ s'.Conserved := by
  obtain ⟨s, s', hnew, hrun, htable⟩ := run_hit_after_finish
  exact ⟨s, s', hnew, hrun, htable, (conservation encodedHash_collisionFree hnew hrun).1⟩

end Example

end Kv
