import Mosaic.Kv.Moves
import Mosaic.Transition.Execution

/-!
# Calls of the scheduler as moves

Every call that returns is a sequence of moves, if it does not cache the null block. A call would
do so if it drops a block before it is cached, or if it did so earlier.
-/

namespace Kv

open List Fallible Function Prod

namespace KVCacheManager

/-- Between the cached blocks of a request and those that are full with `numTokens` tokens, there
is no null block and no block that is skipped. -/
def NewBlocksNotNull (s : KVCacheManager) (requestId : String) (numTokens : ℕ)
    (skipped : ℕ → ℕ) : Prop :=
  ∀ g < s.numKvCacheGroups, ∀ numCached,
    (s.managers g).numCachedBlock requestId = some numCached →
      ∀ i, numCached ≤ i → i < numTokens / (s.managers g).blockSize →
        skipped g ≤ i ∧ (s.tables (g, requestId))[i]? ≠ some s.blockPool.nullBlock

/-- The call caches blocks: caching is on and is not put off, and an allocation is not refused. -/
def CachesBlocks (env : HashEnv) (s : KVCacheManager) (c : Call) : Prop :=
  s.enableCaching = true ∧
    match c with
    | .allocateComputed _ _ _ delayCacheBlocks | .allocateSlots _ _ _ delayCacheBlocks =>
      delayCacheBlocks = false ∧ ∀ s', s.call env c ≠ .ok (s', none)
    | .cacheBlocks _ _ => True
    | _ => False

/-- No null block is among the blocks that the call would cache. -/
def CallBlocksNotNull (s : KVCacheManager) : Call → Prop
  | .allocateComputed r _ _ _ => s.NewBlocksNotNull r.requestId r.numTokens fun g =>
      (s.managers g).numSkippedBlocks r.requestId r.numComputedTokens
  | .allocateSlots r numNewTokens _ _ =>
      s.NewBlocksNotNull r.requestId (min (r.numComputedTokens + numNewTokens) r.numTokens)
        fun g => (s.managers g).numSkippedBlocks r.requestId r.numComputedTokens
  | .cacheBlocks r numComputedTokens =>
      s.NewBlocksNotNull r.requestId numComputedTokens fun _ => 0
  | _ => True

/-- If the call caches blocks, no null block is among them. -/
def NullFree (env : HashEnv) (s : KVCacheManager) (c : Call) : Prop :=
  s.CachesBlocks env c → s.CallBlocksNotNull c

/-- A call that returns. -/
def Step (env : HashEnv) (s : KVCacheManager) (c : Call) (s' : KVCacheManager) : Prop :=
  ∃ newBlocks, s.call env c = .ok (s', newBlocks)

end KVCacheManager

open KVCacheManager

variable {env : HashEnv} {careful : Prop} {s s' : KVCacheManager} {free : List ℕ}

/-! ### Skipped blocks -/

variable {r : String}

/-- Full attention skips nothing. -/
theorem SingleTypeManager.numSkippedBlocks_of_full {m : SingleTypeManager} {n : ℕ}
    (hfull : m.kvCacheSpec.isFullAttention = true) : m.numSkippedBlocks r n = 0 := by
  cases hspec : m.kvCacheSpec with
  | fullAttention attn slidingWindow attentionChunkSize => simp only [numSkippedBlocks, hspec]
  | _ => simp only [hspec, KVCacheSpec.isFullAttention, Bool.false_eq_true] at hfull

/-- What is left after blocks were skipped. -/
structure Skipped (s s' : KVCacheManager) (r : String) (numComputedTokens : ℕ) : Prop where
  hashes : s'.reqToBlockHashes = s.reqToBlockHashes
  cached : s'.blockPool.cachedBlockHashToBlock = s.blockPool.cachedBlockHashToBlock
  nullBlock : s'.blockPool.nullBlock = s.blockPool.nullBlock
  numCached : ∀ g, (s'.managers g).numCachedBlock = (s.managers g).numCachedBlock
  others : ∀ g r', r' ≠ r → s'.tables (g, r') = s.tables (g, r')
  kept : ∀ g i, (s.managers g).numSkippedBlocks r numComputedTokens ≤ i →
    (s'.tables (g, r))[i]? = (s.tables (g, r))[i]?
  length : ∀ g, (s'.tables (g, r)).length = (s.tables (g, r)).length

theorem moves_removeSkippedBlocks (env : HashEnv) (careful : Prop)
    {numComputedTokens : ℕ} (hok : s.removeSkippedBlocks r numComputedTokens = .ok s')
    (free : List ℕ) :
    (∃ free', Moves env careful (s, free) (s', free')) ∧ Skipped s s' r numComputedTokens := by
  -- After `k` rounds the groups from `k` on are as they were.
  have hloop := foldlM_range (P := fun k s' =>
    ((∃ free', Moves env careful (s, free) (s', free')) ∧ Skipped s s' r numComputedTokens) ∧
      ∀ g, k ≤ g → s'.managers g = s.managers g) hok
    ⟨⟨⟨free, .refl⟩, ⟨rfl, rfl, rfl, fun _ => rfl, fun _ _ _ => rfl, fun _ _ _ => rfl,
      fun _ => rfl⟩⟩, fun _ _ => rfl⟩ ?_
  · exact hloop.1
  · rintro k hk s₁ _ ⟨⟨⟨_, hmoves⟩, hskipped⟩, hlater⟩ hstep
    have hshape : s₁.numKvCacheGroups = s.numKvCacheGroups := hmoves.sameShape.numKvCacheGroups
    obtain ⟨⟨_, _⟩, hremove, hstep⟩ := bind_eq_ok.mp hstep
    cases hstep
    obtain ⟨⟨blocks, _⟩, hloop, hremove⟩ := bind_eq_ok.mp hremove
    obtain ⟨_, hfree, hremove⟩ := bind_eq_ok.mp hremove
    cases hremove
    obtain ⟨-, hkept, hlen⟩ := removeLoop_getElem? hloop
    obtain ⟨_, hp⟩ := BlockPool.freeBlocks_eq_ok hfree
    have hnone : (s₁.spec k).isFullAttention = true →
        (s₁.managers k).numSkippedBlocks r numComputedTokens = 0 :=
      SingleTypeManager.numSkippedBlocks_of_full
    refine ⟨⟨⟨_, hmoves.tail (Move.skip (hshape ▸ hk) hnone hloop hfree)⟩, ?_⟩, ?_⟩
    · -- Only the table of this group and request changes.
      have htables : ∀ x, x ≠ (k, r) → (update s₁.tables (k, r) blocks) x = s₁.tables x :=
        fun x hx => update_of_ne hx _ _
      refine ⟨hskipped.hashes, ?_, ?_, ?_, ?_, ?_, ?_⟩
      · rw [← hskipped.cached, setGroup, hp]
      · rw [← hskipped.nullBlock, setGroup, hp]
      · intro g
        rw [← hskipped.numCached g]
        by_cases hg : g = k
        · simp [setGroup, hg]
        · simp [setGroup, hg]
      · intro g r' hr
        rw [tables_setBlocks, htables _ fun hx => hr (mk.inj hx).2]
        exact hskipped.others g r' hr
      · intro g i hi
        rw [tables_setBlocks]
        by_cases hg : g = k
        · subst hg
          rw [update_self, ← hskipped.kept g i hi]
          rw [← hlater g le_rfl] at hi
          exact hkept i hi
        · rw [htables _ fun hx => hg (mk.inj hx).1]
          exact hskipped.kept g i hi
      · intro g
        rw [tables_setBlocks, ← hskipped.length g]
        by_cases hg : g = k
        · subst hg
          rw [update_self]
          exact hlen
        · rw [htables _ fun hx => hg (mk.inj hx).1]
    · intro g hg
      rw [← hlater g (by omega), managers_setGroup_of_ne (by omega)]

/-! ### Hits -/

theorem hits_empty (p : BlockPool) (spec : ℕ → KVCacheSpec) (hs : List BlockHash) (n : ℕ)
    {hits : List (List ℕ)} (hlen : hits.length = n) (hempty : ∀ l ∈ hits, l = []) :
    Hits p spec hs n hits := by
  rw [Hits, forall₂_iff_get]
  refine ⟨by simpa using hlen.symm, ?_⟩
  intro i _ hi k b hb
  rw [get_eq_getElem, hempty _ (getElem_mem hi)] at hb
  cases hb

theorem createEmptyBlockList_getD (s : KVCacheManager) (g : ℕ) :
    s.createEmptyBlockList.getD g [] = [] := by
  rw [createEmptyBlockList, getD_eq_getElem?_getD, getElem?_replicate]
  split <;> rfl

theorem hits_createEmptyBlockList (s : KVCacheManager) (p : BlockPool) (spec : ℕ → KVCacheSpec)
    (hs : List BlockHash) : Hits p spec hs s.numKvCacheGroups s.createEmptyBlockList := by
  refine hits_empty _ _ _ _ (by simp [createEmptyBlockList]) ?_
  intro l hl
  exact eq_of_mem_replicate hl

/-- Hits that were found before blocks were skipped are still there. -/
theorem Skipped.hits {numComputedTokens : ℕ} {hits : List (List ℕ)}
    (h : Skipped s s' r numComputedTokens) (hshape : SameShape s s')
    (hhits : Hits s.blockPool s.spec (s.reqToBlockHashes r) s.numKvCacheGroups hits) :
    Hits s'.blockPool s'.spec (s'.reqToBlockHashes r) s'.numKvCacheGroups hits := by
  rw [hshape.spec, hshape.numKvCacheGroups, h.hashes]
  refine List.Forall₂.imp ?_ hhits
  intro g l hl i b hb
  rcases hl i b hb with ⟨h', hh', hhead⟩ | ⟨hnull, hspec⟩
  · exact .inl ⟨h', hh', by rw [h.cached]; exact hhead⟩
  · exact .inr ⟨by rw [h.nullBlock]; exact hnull, hspec⟩

theorem move_takeComputedBlocks (env : HashEnv) (careful : Prop) {hits : List (List ℕ)}
    (hhits : Hits s.blockPool s.spec (s.reqToBlockHashes r) s.numKvCacheGroups hits)
    (hok : s.takeComputedBlocks r hits = .ok s') (free : List ℕ) :
    Move env careful (s, free) (s', free.diff hits.flatten) := by
  obtain ⟨_, hp, hsave⟩ := bind_eq_ok.mp hok
  refine Move.take hhits ?_ hsave
  unfold touchComputedBlocks at hp
  split at hp
  · exact hp
  · split at hp
    · cases hp
    · rename_i hany
      -- without caching there are no hits
      cases hp
      have hempty : hits.flatten = [] := by
        rw [flatten_eq_nil_iff]
        intro l hl
        by_contra hne
        exact hany (any_eq_true.mpr ⟨l, hl, by simpa using hne⟩)
      rw [BlockPool.touch, hempty]
      rfl

/-- A request has either no record, and its blocks are those it takes, or takes none. -/
theorem takeComputedBlocks_numCached {hits : List (List ℕ)}
    (hok : s.takeComputedBlocks r hits = .ok s') :
    s'.reqToBlockHashes = s.reqToBlockHashes ∧
      (∀ g r', r' ≠ r → (s'.managers g).numCachedBlock r' = (s.managers g).numCachedBlock r') ∧
      ∀ g < s.numKvCacheGroups,
      ((s.managers g).numCachedBlock r = none ∧ s.tables (g, r) = [] ∧
        (s'.managers g).numCachedBlock r = some (hits.getD g []).length ∧
        s'.tables (g, r) = hits.getD g []) ∨
      ((s.managers g).numCachedBlock r ≠ none ∧ hits.getD g [] = [] ∧
        (s'.managers g).numCachedBlock r = (s.managers g).numCachedBlock r ∧
        s'.tables (g, r) = s.tables (g, r)) := by
  obtain ⟨_, -, hsave⟩ := bind_eq_ok.mp hok
  obtain ⟨managers, rfl, houtside, hinside⟩ := saveNewComputedBlocks_eq_ok hsave
  refine ⟨rfl, ?_, ?_⟩
  · intro g r' hr
    by_cases hg : g < s.numKvCacheGroups
    · obtain ⟨-, -, -, ⟨-, -, hm⟩ | ⟨-, -, hm⟩⟩ :=
        SingleTypeManager.saveNewComputedBlocks_eq_ok (hinside g hg)
      · simp [hm, hr]
      · simp [hm]
    · simp [houtside g (not_lt.mp hg)]
  · intro g hg
    obtain ⟨-, -, -, ⟨hnone, hempty, hm⟩ | ⟨hsome, hempty, hm⟩⟩ :=
      SingleTypeManager.saveNewComputedBlocks_eq_ok (hinside g hg)
    · left
      refine ⟨hnone, hempty, ?_, ?_⟩
      · simp [hm]
      · simp [tables, hm]
    · right
      refine ⟨hsome, hempty, ?_, ?_⟩
      · simp [hm]
      · simp [tables, hm]

/-! ### New blocks -/

variable {numTokens : ℕ}

theorem SingleTypeManager.allocateNewBlocks_eq_ok {m m' : SingleTypeManager} {p p' : BlockPool}
    {newBlocks : List ℕ}
    (hok : m.allocateNewBlocks p r numTokens = .ok (newBlocks, m', p')) :
    (cdiv numTokens m.blockSize ≤ (m.reqToBlocks r).length ∧ newBlocks = [] ∧ m' = m ∧ p' = p) ∨
      ((m.reqToBlocks r).length < cdiv numTokens m.blockSize ∧
        p.getNewBlocks (cdiv numTokens m.blockSize - (m.reqToBlocks r).length) =
          .ok (newBlocks, p') ∧
        m' = m.setBlocks r (m.reqToBlocks r ++ newBlocks)) := by
  obtain ⟨⟨newBlocks₁, m₁, p₁⟩, hshared, hok⟩ := bind_eq_ok.mp hok
  have hsame : newBlocks₁ = newBlocks ∧ m₁ = m' ∧ p₁ = p' := by
    dsimp only at hok
    split at hok
    · split at hok
      · cases hok
      · simpa [pure, Except.pure] using hok
    · simpa [pure, Except.pure] using hok
  obtain ⟨rfl, rfl, rfl⟩ := hsame
  unfold allocateBlocks at hshared
  dsimp only at hshared
  split at hshared
  · rename_i henough
    left
    refine ⟨henough, ?_⟩
    simpa [pure, Except.pure, eq_comm] using hshared
  · rename_i hfew
    right
    obtain ⟨⟨newBlocks₂, p₂⟩, hnew, hshared⟩ := bind_eq_ok.mp hshared
    obtain ⟨rfl, rfl, rfl⟩ : newBlocks₂ = newBlocks₁ ∧ _ ∧ p₂ = p₁ := by
      simpa [pure, Except.pure] using hshared
    exact ⟨not_le.mp hfew, hnew, rfl⟩

/-- What is there after new blocks were allocated. -/
structure Allocated (s s' : KVCacheManager) (r : String) (newBlocks : List (List ℕ)) : Prop where
  hashes : s'.reqToBlockHashes = s.reqToBlockHashes
  nullBlock : s'.blockPool.nullBlock = s.blockPool.nullBlock
  numCached : ∀ g, (s'.managers g).numCachedBlock = (s.managers g).numCachedBlock
  tables : ∀ g, s'.tables (g, r) = s.tables (g, r) ++ newBlocks.getD g []
  others : ∀ g r', r' ≠ r → s'.tables (g, r') = s.tables (g, r')
  free : ∀ b ∈ newBlocks.flatten, b ≠ s.blockPool.nullBlock ∧ s.blockPool.refCnt b = 0
  counts : ∀ b, s'.blockPool.refCnt b = if b ∈ newBlocks.flatten then 1 else s.blockPool.refCnt b

theorem allocated_refl (s : KVCacheManager) (r : String) : Allocated s s r [] :=
  ⟨rfl, rfl, fun _ => rfl, by simp, fun _ _ _ => rfl, by simp, by simp⟩

variable {newBlocks : List (List ℕ)}

theorem getD_concat {blocks : List ℕ} (g : ℕ) : (newBlocks ++ [blocks]).getD g [] =
      if g = newBlocks.length then blocks else newBlocks.getD g [] := by
  simp only [getD_eq_getElem?_getD]
  rcases Nat.lt_trichotomy g newBlocks.length with hlt | rfl | hgt
  · rw [getElem?_append_left hlt, if_neg (by omega)]
  · simp
  · rw [getElem?_eq_none (by simp; omega), getElem?_eq_none (by omega),
      if_neg (by omega)]

/-- One more group gets new blocks. -/
theorem Allocated.concat {s₁ : KVCacheManager}
    {blocks : List ℕ} {free : List ℕ} {p : BlockPool} {n : ℕ}
    (h : Allocated s s₁ r newBlocks) (hcons : Consistent env s₁ free)
    (hnew : s₁.blockPool.getNewBlocks n = .ok (blocks, p)) :
    Allocated s (s₁.setGroup newBlocks.length ((s₁.managers newBlocks.length).setBlocks r
      (s₁.tables (newBlocks.length, r) ++ blocks)) p) r (newBlocks ++ [blocks]) := by
  obtain ⟨-, rfl, -, hcnt, hsame⟩ := hcons.sharing.allocate (newBlocks.length, r) hnew
  have hblocks : ∀ b ∈ free.take n, b ≠ s₁.blockPool.nullBlock ∧ s₁.blockPool.refCnt b = 0 := by
    intro b hb
    exact ((hcons.sharing.valid.mem_free b).mp (mem_of_mem_take hb)).2
  refine ⟨h.hashes, hsame.nullBlock.trans h.nullBlock, ?_, ?_, ?_, ?_, ?_⟩
  · intro g
    rw [← h.numCached g]
    by_cases hg : g = newBlocks.length
    · simp [hg]
    · rw [managers_setGroup_of_ne hg]
  · intro g
    rw [tables_setBlocks, getD_concat]
    by_cases hg : g = newBlocks.length
    · subst hg
      rw [update_self, if_pos rfl, h.tables]
      simp
    · have hx : (g, r) ≠ (newBlocks.length, r) := fun heq => hg (mk.inj heq).1
      rw [update_of_ne hx, if_neg hg, h.tables]
  · intro g r' hr
    have hx : (g, r') ≠ (newBlocks.length, r) := fun heq => hr (mk.inj heq).2
    rw [tables_setBlocks, update_of_ne hx]
    exact h.others g r' hr
  · intro b hb
    rw [flatten_append, mem_append, flatten_singleton] at hb
    rcases hb with hb | hb
    · exact h.free b hb
    · obtain ⟨hnull, hzero⟩ := hblocks b hb
      refine ⟨h.nullBlock ▸ hnull, ?_⟩
      rw [h.counts] at hzero
      split at hzero
      · cases hzero
      · exact hzero
  · intro b
    change p.refCnt b = _
    rw [hcnt, h.counts, flatten_append, flatten_singleton]
    by_cases hb : b ∈ free.take n
    · simp [hb]
    · simp [hb]

theorem Consistent.length_getNewBlocks (hcons : Consistent env s free) {n : ℕ}
    {newBlocks : List ℕ} {p : BlockPool}
    (hok : s.blockPool.getNewBlocks n = .ok (newBlocks, p)) : newBlocks.length = n := by
  obtain ⟨-, rfl, -⟩ := hcons.sharing.allocate (0, "") hok
  rw [List.length_take, min_eq_left (hcons.sharing.valid.getNewBlocks_le hok)]

theorem moves_allocateNewBlocks (careful : Prop) (hfree : env.CollisionFree)
    (hcons : Consistent env s free)
    (hok : s.allocateNewBlocks r numTokens = .ok (s', newBlocks)) :
    (∃ free', Moves env careful (s, free) (s', free')) ∧ Allocated s s' r newBlocks ∧
      ∀ g < s.numKvCacheGroups,
        cdiv numTokens (s.managers g).blockSize ≤ (s'.tables (g, r)).length := by
  have hloop := foldlM_range (P := fun k (x : KVCacheManager × List (List ℕ)) =>
    x.2.length = k ∧ (∃ free', Moves env careful (s, free) (x.1, free')) ∧
      Allocated s x.1 r x.2 ∧
      ∀ g < k, cdiv numTokens (s.managers g).blockSize ≤ (x.1.tables (g, r)).length) hok
    ⟨rfl, ⟨free, .refl⟩, allocated_refl s r, nofun⟩ ?_
  · exact hloop.2
  · rintro k hk ⟨s₁, done⟩ ⟨_, _⟩ ⟨rfl, ⟨free₁, hmoves⟩, hdone, hlong⟩ hstep
    dsimp only at hdone hk hmoves hlong
    obtain ⟨⟨_, _, p⟩, halloc, hstep⟩ := bind_eq_ok.mp hstep
    cases hstep
    have hshape := hmoves.sameShape.numKvCacheGroups
    have hsize : (s₁.managers done.length).blockSize = (s.managers done.length).blockSize :=
      congrArg KVCacheSpec.blockSize (congrFun hmoves.sameShape.spec done.length)
    refine ⟨by simp, ?_⟩
    rcases SingleTypeManager.allocateNewBlocks_eq_ok halloc with
      ⟨henough, rfl, rfl, rfl⟩ | ⟨hfew, hnew, rfl⟩
    · -- nothing changes in this group
      have hself : s₁.setGroup done.length (s₁.managers done.length) s₁.blockPool = s₁ := by
        rw [setGroup, update_eq_self]
      dsimp only
      rw [hself]
      refine ⟨⟨free₁, hmoves⟩, ⟨hdone.hashes, hdone.nullBlock, hdone.numCached, ?_, hdone.others,
        ?_, ?_⟩, ?_⟩
      · intro g
        rw [hdone.tables, getD_concat]
        split
        · rename_i hg
          simp [hg]
        · rfl
      · simpa using hdone.free
      · simpa using hdone.counts
      · intro g hg
        by_cases hlast : g = done.length
        · subst hlast
          rw [← hsize]
          exact henough
        · exact hlong g (by omega)
    · obtain ⟨hcons₁, -⟩ := hmoves.consistent hfree hcons
      refine ⟨⟨_, hmoves.tail (Move.allocate (hshape ▸ hk) hnew)⟩, hdone.concat hcons₁ hnew, ?_⟩
      have hlen := hcons₁.length_getNewBlocks hnew
      intro g hg
      dsimp only at hg
      change _ ≤ ((s₁.setGroup done.length _ p).tables (g, r)).length
      rw [tables_setBlocks]
      by_cases hlast : g = done.length
      · subst hlast
        rw [update_self, length_append, hlen, ← hsize]
        dsimp only at hfew ⊢
        omega
      · have hx : (g, r) ≠ (done.length, r) := fun heq => hlast (mk.inj heq).1
        rw [update_of_ne hx]
        exact hlong g (by omega)

theorem div_le_cdiv {numTokens numSlots : ℕ} (h : numTokens ≤ numSlots) (blockSize : ℕ) :
    numTokens / blockSize ≤ cdiv numSlots blockSize := by
  rcases Nat.eq_zero_or_pos blockSize with rfl | hpos
  · simp
  · exact Nat.div_le_div_right (by omega)

/-! ### Caching -/

/-- The full blocks of a request with `numTokens` tokens are among its blocks, and not fewer than
those that are cached. -/
def KVCacheManager.FullBlocksGrow (s : KVCacheManager) (requestId : String) (numTokens : ℕ) :
    Prop :=
  ∀ g < s.numKvCacheGroups, ∀ numCached,
    (s.managers g).numCachedBlock requestId = some numCached →
      numCached ≤ numTokens / (s.managers g).blockSize ∧
        numTokens / (s.managers g).blockSize ≤ (s.tables (g, requestId)).length

/-- The step of the loop over the groups. -/
def KVCacheManager.cacheGroup (env : HashEnv) (r : Request) (numTokens : ℕ) (s : KVCacheManager)
    (g : ℕ) : Except KvError KVCacheManager := do
  let (m, p, hashes) ← (s.managers g).cacheBlocks env s.blockPool g r
    (s.reqToBlockHashes r.requestId) numTokens
  return { s.setGroup g m p with
    reqToBlockHashes := update s.reqToBlockHashes r.requestId hashes }

theorem cacheBlocks_eq (env : HashEnv) (s : KVCacheManager) (r : Request) (numTokens : ℕ) :
    s.cacheBlocks env r numTokens =
      (List.range s.numKvCacheGroups).foldlM (cacheGroup env r numTokens) s :=
  rfl

/-- What stays the same while the first `k` groups cache their blocks. -/
structure Cached (s s' : KVCacheManager) (k : ℕ) : Prop where
  tables : s'.tables = s.tables
  counts : s'.blockPool.refCnt = s.blockPool.refCnt
  nullBlock : s'.blockPool.nullBlock = s.blockPool.nullBlock
  later : ∀ g, k ≤ g → s'.managers g = s.managers g

/-- The first groups cache their blocks. -/
theorem moves_cacheGroups (hfree : env.CollisionFree) (hcons : Consistent env s free)
    {r : Request} {numTokens k : ℕ} (hk : k ≤ s.numKvCacheGroups)
    (hcaching : s.enableCaching = true)
    (hgrow : careful → s.FullBlocksGrow r.requestId numTokens)
    (hnull : s.NewBlocksNotNull r.requestId numTokens fun _ => 0)
    (hok : (List.range k).foldlM (cacheGroup env r numTokens) s = .ok s') :
    (∃ free', Moves env careful (s, free) (s', free')) ∧ Cached s s' k := by
  -- After `j` rounds the tables are the same, and the groups from `j` on are as they were.
  refine foldlM_range (P := fun k s' =>
    (∃ free', Moves env careful (s, free) (s', free')) ∧ Cached s s' k) hok
    ⟨⟨free, .refl⟩, rfl, rfl, rfl, fun _ _ => rfl⟩ ?_
  rintro j hj s₁ _ ⟨⟨_, hmoves⟩, hcached⟩ hstep
  obtain ⟨⟨_, p, hashes⟩, hcache, hstep⟩ := bind_eq_ok.mp hstep
  cases hstep
  have hshape := hmoves.sameShape
  have hlt : j < s.numKvCacheGroups := by omega
  have hlt₁ : j < s₁.numKvCacheGroups := hshape.numKvCacheGroups ▸ hlt
  unfold SingleTypeManager.cacheBlocks at hcache
  split at hcache
  · cases hcache
  · rename_i numCached hnum
    obtain ⟨⟨p', hashes'⟩, hfull, hcache⟩ := bind_eq_ok.mp hcache
    obtain ⟨rfl, rfl, rfl⟩ : _ ∧ p' = p ∧ hashes' = hashes := by
      simpa [pure, Except.pure] using hcache
    have hmanager := hcached.later j le_rfl
    have hnum₀ : (s.managers j).numCachedBlock r.requestId = some numCached := hmanager ▸ hnum
    have hgrow₁ : careful → numCached ≤ numTokens / (s₁.managers j).blockSize ∧
        numTokens / (s₁.managers j).blockSize ≤ (s₁.tables (j, r.requestId)).length := by
      intro h
      rw [hcached.tables, hmanager]
      exact hgrow h j hlt numCached hnum₀
    -- What the condition says of the start holds here: no round changes a table.
    have hnotMem : s₁.blockPool.nullBlock ∉ BlockPool.newFullBlocks
        (s₁.tables (j, r.requestId)) numCached (numTokens / (s₁.managers j).blockSize) := by
      intro hmem
      obtain ⟨i, hi, hfew, hsome⟩ := Sharing.mem_newFullBlocks.mp hmem
      rw [hcached.tables, hcached.nullBlock] at hsome
      rw [hmanager] at hfew
      exact (hnull j hlt numCached hnum₀ i hi hfew).2 hsome
    have hcache₁ : s₁.enableCaching = true := hshape.enableCaching.trans hcaching
    obtain ⟨hcons₁, -⟩ := hmoves.consistent hfree hcons
    obtain ⟨-, hsame, hcnt⟩ :=
      hcons₁.sharing.cache (hcons₁.caching.trans hcache₁) hnotMem hfull
    refine ⟨⟨_, hmoves.tail (Move.cache hlt₁ hcache₁ hnum hgrow₁ hnotMem hfull)⟩, ?_,
      hcnt.trans hcached.counts, hsame.nullBlock.trans hcached.nullBlock, ?_⟩
    · change (s₁.setGroup j _ p').tables = _
      rw [tables_setNumCached, tables_setGroup_self, hcached.tables]
    · intro g hg
      rw [← hcached.later g (by omega)]
      exact managers_setGroup_of_ne (p := p') (by omega)

/-! ### Release -/

theorem moves_free (env : HashEnv) (careful : Prop) (hok : s.free r = .ok s') (free : List ℕ) :
    (∃ free', Moves env careful (s, free) (s', free')) ∧
      (∀ g < s.numKvCacheGroups, s'.tables (g, r) = []) ∧
      (∀ g r', r' ≠ r → s'.tables (g, r') = s.tables (g, r')) ∧
      s'.reqToBlockHashes = s.reqToBlockHashes := by
  have hloop := foldlM_range (P := fun k s' =>
    (∃ free', Moves env careful (s, free) (s', free')) ∧ (∀ g < k, s'.tables (g, r) = []) ∧
      (∀ g r', r' ≠ r → s'.tables (g, r') = s.tables (g, r')) ∧
      s'.reqToBlockHashes = s.reqToBlockHashes) hok
    ⟨⟨free, .refl⟩, nofun, fun _ _ _ => rfl, rfl⟩ ?_
  · exact hloop
  · rintro k hk s₁ _ ⟨⟨_, hmoves⟩, hdone, hothers, hhashes⟩ hstep
    obtain ⟨⟨_, _⟩, hrelease, hstep⟩ := bind_eq_ok.mp hstep
    cases hstep
    obtain ⟨_, hfree, hrelease⟩ := bind_eq_ok.mp hrelease
    cases hrelease
    have hk₁ : k < s₁.numKvCacheGroups := hmoves.sameShape.numKvCacheGroups ▸ hk
    refine ⟨⟨_, hmoves.tail (Move.release hk₁ hfree)⟩, ?_, ?_, hhashes⟩
    · intro g hg
      rw [tables_setNumCached, tables_setBlocks]
      by_cases hgk : g = k
      · rw [hgk, update_self]
      · have hx : (g, r) ≠ (k, r) := fun heq => hgk (mk.inj heq).1
        rw [update_of_ne hx]
        exact hdone g (by omega)
    · intro g r' hr
      have hx : (g, r') ≠ (k, r) := fun heq => hr (mk.inj heq).2
      rw [tables_setNumCached, tables_setBlocks, update_of_ne hx]
      exact hothers g r' hr

/-! ### Lookups -/

/-- A lookup computes the hashes of a request if it has none, and returns hits. -/
theorem moves_getComputedBlocks (careful : Prop) (hcons : Consistent env s free) {r : Request}
    {hits : List (List ℕ)} {hitLength : ℕ}
    (hok : s.getComputedBlocks env r = .ok (s', hits, hitLength)) :
    Moves env careful (s, free) (s', free) ∧
      Hits s'.blockPool s'.spec (s'.reqToBlockHashes r.requestId) s'.numKvCacheGroups hits ∧
      (∃ hashes, s' = { s with reqToBlockHashes := hashes }) ∧ hitLength ≤ r.numTokens ∧
      ∀ g, (hits.getD g []).length ≤ hitLength / (s.managers g).blockSize := by
  unfold KVCacheManager.getComputedBlocks at hok
  split at hok
  · obtain ⟨rfl, rfl, rfl⟩ : s = s' ∧ s.createEmptyBlockList = hits ∧ 0 = hitLength := by
      simpa [pure, Except.pure] using hok
    refine ⟨.refl, hits_createEmptyBlockList s _ _ _, ⟨_, rfl⟩, Nat.zero_le _, ?_⟩
    intro g
    rw [createEmptyBlockList_getD]
    exact Nat.zero_le _
  · obtain ⟨hashes, hhashes, hok⟩ := bind_eq_ok.mp hok
    obtain ⟨⟨hits', hitLength'⟩, hfind, hok⟩ := bind_eq_ok.mp hok
    obtain ⟨rfl, rfl, rfl⟩ : _ = s' ∧ hits' = hits ∧ hitLength' = hitLength := by
      simpa [pure, Except.pure] using hok
    obtain ⟨hfound, hle, hlength⟩ := Coordinator.hits_findLongestCacheHit hcons.wellFormed hfind
    refine ⟨?_, ?_, ⟨_, rfl⟩, by omega, ?_⟩
    · unfold requestHashes at hhashes
      split at hhashes
      · rename_i blockSize hempty _
        exact .single (Move.hash (.inl hempty) (hashChain_hashRequestTokens hhashes))
      · cases hhashes
      · cases hhashes
        rw [update_eq_self]
    · dsimp only
      rw [update_self]
      exact hfound
    · intro g
      by_cases hg : g < hits'.length
      · have hget := List.Forall₂.get hlength (i := g) (by rw [hlength.length_eq]; exact hg) hg
        rw [get_eq_getElem, get_eq_getElem, getElem_range] at hget
        rw [getD_eq_getElem?_getD, getElem?_eq_getElem hg, Option.getD_some]
        exact hget
      · rw [getD_eq_getElem?_getD, getElem?_eq_none (not_lt.mp hg)]
        exact Nat.zero_le _

/-! ### Calls -/

/-- What the new blocks of a call are: no table held them, and one table holds them now. -/
def NewBlocksSingle (s' : KVCacheManager) (r : String) (newBlocks : List (List ℕ)) : Prop :=
  ∀ g, ∀ b ∈ newBlocks.getD g [], b ≠ s'.blockPool.nullBlock ∧ s'.blockPool.refCnt b = 1 ∧
    b ∈ s'.tables (g, r)

theorem Allocated.newBlocksSingle
    (h : Allocated s s' r newBlocks) : NewBlocksSingle s' r newBlocks := by
  intro g b hb
  have hmem : b ∈ newBlocks.flatten := by
    rw [mem_flatten]
    refine ⟨newBlocks.getD g [], ?_, hb⟩
    rw [getD_eq_getElem?_getD] at hb ⊢
    cases hget : newBlocks[g]? with
    | none =>
      rw [hget] at hb
      cases hb
    | some blocks => exact mem_of_getElem? hget
  refine ⟨?_, ?_, ?_⟩
  · rw [h.nullBlock]
    exact (h.free b hmem).1
  · rw [h.counts, if_pos hmem]
  · rw [h.tables]
    exact mem_append_right _ hb

/-- The tokens of a request fit the model, and its hits and its cached blocks are full with
`numTokens` of them. -/
structure KVCacheManager.HitsAndBlocksFit (s : KVCacheManager) (r : Request)
    (hits : List (List ℕ)) (numTokens : ℕ) : Prop where
  maxModelLen : r.numTokens ≤ s.maxModelLen
  hits : ∀ g, (hits.getD g []).length ≤ numTokens / (s.managers g).blockSize
  known : ∀ g < s.numKvCacheGroups, ∀ numCached,
    (s.managers g).numCachedBlock r.requestId = some numCached →
      numCached ≤ numTokens / (s.managers g).blockSize

/-- The part of an allocation before its blocks are cached. -/
def KVCacheManager.prepareSlots (s : KVCacheManager) (r : Request)
    (numNewTokens numNewComputedTokens : ℕ) (newComputedBlocks : List (List ℕ))
    (numLookaheadTokens : ℕ) : Except KvError (KVCacheManager × Option (List (List ℕ))) := do
  if numNewTokens = 0 then throw (.valueError "num_new_tokens must be greater than 0")
  let s ← s.removeSkippedBlocks r.requestId r.numComputedTokens
  let numTokensNeedSlot :=
    min (r.numComputedTokens + numNewComputedTokens + numNewTokens + numLookaheadTokens)
      s.maxModelLen
  if s.blockPool.getNumFreeBlocks <
      s.getNumBlocksToAllocate r.requestId numTokensNeedSlot newComputedBlocks then
    return (s, none)
  let s ← s.takeComputedBlocks r.requestId newComputedBlocks
  let (s, newBlocks) ← s.allocateNewBlocks r.requestId numTokensNeedSlot
  return (s, some newBlocks)

theorem allocateSlots_eq (env : HashEnv) (s : KVCacheManager) (r : Request)
    (numNewTokens numNewComputedTokens : ℕ) (hits : List (List ℕ)) (numLookaheadTokens : ℕ)
    (delayCacheBlocks : Bool) :
    s.allocateSlots env r numNewTokens numNewComputedTokens hits numLookaheadTokens
        delayCacheBlocks =
      (s.prepareSlots r numNewTokens numNewComputedTokens hits numLookaheadTokens >>= fun x =>
        match x.2 with
        | none => .ok (x.1, none)
        | some newBlocks =>
          if !x.1.enableCaching || delayCacheBlocks then .ok (x.1, some newBlocks)
          else x.1.cacheBlocks env r
            (min (r.numComputedTokens + numNewComputedTokens + numNewTokens) r.numTokens) >>=
              fun s => .ok (s, some newBlocks)) := by
  unfold KVCacheManager.allocateSlots KVCacheManager.prepareSlots
  split
  · rfl
  · dsimp only
    cases s.removeSkippedBlocks r.requestId r.numComputedTokens with
    | error e => rfl
    | ok s₁ =>
      simp only [bind, Except.bind, pure, Except.pure]
      split
      · rfl
      · cases s₁.takeComputedBlocks r.requestId hits with
        | error e => rfl
        | ok s₂ =>
          dsimp only
          cases s₂.allocateNewBlocks r.requestId _ with
          | error e => rfl
          | ok x =>
            dsimp only

/-- What an allocation has prepared when it caches blocks: a group either takes its hits or keeps
the blocks that are not skipped, and gets new blocks for all slots. -/
structure Prepared (s s' : KVCacheManager) (r : String) (numComputedTokens numSlots : ℕ)
    (hits newBlocks : List (List ℕ)) : Prop where
  nullBlock : s'.blockPool.nullBlock = s.blockPool.nullBlock
  single : NewBlocksSingle s' r newBlocks
  length : ∀ g < s.numKvCacheGroups,
    cdiv numSlots (s.managers g).blockSize ≤ (s'.tables (g, r)).length
  blocks : ∀ g < s.numKvCacheGroups,
    ∃ old, s'.tables (g, r) = old ++ newBlocks.getD g [] ∧
      (((s.managers g).numCachedBlock r = none ∧ old = hits.getD g [] ∧
          (s'.managers g).numCachedBlock r = some (hits.getD g []).length) ∨
        ((s.managers g).numCachedBlock r ≠ none ∧
          (s'.managers g).numCachedBlock r = (s.managers g).numCachedBlock r ∧
          old.length = (s.tables (g, r)).length ∧
          ∀ i, (s.managers g).numSkippedBlocks r numComputedTokens ≤ i →
            old[i]? = (s.tables (g, r))[i]?))

variable {newBlocks : Option (List (List ℕ))}

variable {numNewTokens numNewComputedTokens numLookaheadTokens : ℕ}

theorem moves_prepareSlots (careful : Prop) (hfree : env.CollisionFree)
    (hcons : Consistent env s free) {r : Request}
    {hits : List (List ℕ)}
    (hhits : Hits s.blockPool s.spec (s.reqToBlockHashes r.requestId) s.numKvCacheGroups hits)
    (hok : s.prepareSlots r numNewTokens numNewComputedTokens hits numLookaheadTokens =
      .ok (s', newBlocks)) :
    (∃ free', Moves env careful (s, free) (s', free')) ∧
      s'.reqToBlockHashes = s.reqToBlockHashes ∧
      ∀ blocks, newBlocks = some blocks → Prepared s s' r.requestId r.numComputedTokens
        (min (r.numComputedTokens + numNewComputedTokens + numNewTokens + numLookaheadTokens)
          s.maxModelLen) hits blocks := by
  unfold KVCacheManager.prepareSlots at hok
  split at hok
  · cases hok
  · obtain ⟨s₁, hskip, hok⟩ := bind_eq_ok.mp hok
    obtain ⟨⟨free₁, hmoves₁⟩, hskipped⟩ := moves_removeSkippedBlocks env careful hskip free
    have hshape₁ := hmoves₁.sameShape
    dsimp only at hok
    split at hok
    · -- The pool has too few blocks. The skipped ones are given back all the same.
      obtain ⟨rfl, rfl⟩ : s₁ = s' ∧ none = newBlocks := by
        simpa [pure, Except.pure] using hok
      exact ⟨⟨free₁, hmoves₁⟩, hskipped.hashes, nofun⟩
    · -- Hits are taken first and new blocks after them; each step is consistent with the last.
      obtain ⟨s₂, htake, hok⟩ := bind_eq_ok.mp hok
      obtain ⟨⟨s₃, blocks⟩, halloc, hok⟩ := bind_eq_ok.mp hok
      obtain ⟨rfl, rfl⟩ : s₃ = s' ∧ some blocks = newBlocks := by
        simpa [pure, Except.pure] using hok
      have htaken := move_takeComputedBlocks env careful (hskipped.hits hshape₁ hhits) htake free₁
      have hmoves₂ : Moves env careful _ _ := hmoves₁.tail htaken
      obtain ⟨hcons₁, -⟩ := hmoves₁.consistent hfree hcons
      obtain ⟨hcons₂, -⟩ := hmoves₂.consistent hfree hcons
      obtain ⟨⟨free₃, hmoves₃⟩, hallocated, hlong⟩ :=
        moves_allocateNewBlocks careful hfree hcons₂ halloc
      obtain ⟨htakenHashes, -, hgroups⟩ := takeComputedBlocks_numCached htake
      refine ⟨⟨free₃, hmoves₂.trans hmoves₃⟩, ?_, ?_⟩
      · rw [hallocated.hashes, htakenHashes, hskipped.hashes]
      rintro _ ⟨⟩
      refine ⟨?_, hallocated.newBlocksSingle, ?_, ?_⟩
      · rw [hallocated.nullBlock, (htaken.consistent hfree hcons₁).2.nullBlock, hskipped.nullBlock]
      · intro g hg
        have hsize : (s₂.managers g).blockSize = (s.managers g).blockSize :=
          congrArg KVCacheSpec.blockSize (congrFun hmoves₂.sameShape.spec g)
        have hlen := hlong g (hmoves₂.sameShape.numKvCacheGroups ▸ hg)
        rw [hsize, hshape₁.maxModelLen] at hlen
        exact hlen
      · intro g hg
        refine ⟨s₂.tables (g, r.requestId), hallocated.tables g, ?_⟩
        rw [hallocated.numCached g]
        -- A request that is new to the group takes its hits; another keeps its table.
        rcases hgroups g (hshape₁.numKvCacheGroups ▸ hg) with
          ⟨hnone, -, hnum, htable⟩ | ⟨hsome, -, hnum, htable⟩
        · rw [hskipped.numCached g] at hnone
          exact .inl ⟨hnone, htable, hnum⟩
        · rw [hskipped.numCached g] at hsome hnum
          refine .inr ⟨hsome, hnum, ?_, ?_⟩
          · rw [htable, hskipped.length g]
          · intro i hi
            rw [htable, hskipped.kept g i hi]

section Prepared

variable {r : String} {numComputedTokens numSlots numTokens : ℕ} {hits newBlocks : List (List ℕ)}

/-- The new full blocks are real ones, before and after the preparation. -/
theorem Prepared.newBlocksNotNull
    (h : Prepared s s' r numComputedTokens numSlots hits newBlocks) (hshape : SameShape s s')
    (hnull : s.NewBlocksNotNull r numTokens fun g =>
      (s.managers g).numSkippedBlocks r numComputedTokens) :
    s'.NewBlocksNotNull r numTokens fun _ => 0 := by
  intro g hg numCached hcached i hi hlt
  rw [hshape.numKvCacheGroups] at hg
  have hsize : (s'.managers g).blockSize = (s.managers g).blockSize :=
    congrArg KVCacheSpec.blockSize (congrFun hshape.spec g)
  rw [hsize] at hlt
  refine ⟨Nat.zero_le i, ?_⟩
  intro hsome
  obtain ⟨old, htable, hold⟩ := h.blocks g hg
  rw [htable, getElem?_append] at hsome
  split at hsome
  · rename_i hin
    rcases hold with ⟨-, rfl, hnum⟩ | ⟨-, hnum, -, hkept⟩
    · rw [hnum, Option.some.injEq] at hcached
      omega
    · rw [hnum] at hcached
      obtain ⟨hskipped, hne⟩ := hnull g hg numCached hcached i hi hlt
      rw [hkept i hskipped, h.nullBlock] at hsome
      exact hne hsome
  · exact (h.single g _ (mem_of_getElem? hsome)).1 rfl

/-- The full blocks are among those that were prepared, and not fewer than before. -/
theorem Prepared.fullBlocksGrow {r : Request}
    (h : Prepared s s' r.requestId numComputedTokens numSlots hits newBlocks)
    (hshape : SameShape s s') (hslots : numTokens ≤ numSlots)
    (hfit : s.HitsAndBlocksFit r hits numTokens) : s'.FullBlocksGrow r.requestId numTokens := by
  intro g hg numCached hcached
  rw [hshape.numKvCacheGroups] at hg
  have hsize : (s'.managers g).blockSize = (s.managers g).blockSize :=
    congrArg KVCacheSpec.blockSize (congrFun hshape.spec g)
  rw [hsize]
  refine ⟨?_, ?_⟩
  · obtain ⟨_, -, ⟨-, -, hnum⟩ | ⟨-, hnum, -⟩⟩ := h.blocks g hg
    · rw [hnum, Option.some.injEq] at hcached
      rw [← hcached]
      exact hfit.hits g
    · rw [hnum] at hcached
      exact hfit.known g hg numCached hcached
  · exact (div_le_cdiv hslots _).trans (h.length g hg)

theorem Prepared.fullBlocksGrow_min {r : Request} {numComputedTokens n numLookaheadTokens : ℕ}
    (h : Prepared s s' r.requestId numComputedTokens
      (min (n + numLookaheadTokens) s.maxModelLen) hits newBlocks) (hshape : SameShape s s')
    (hfit : s.HitsAndBlocksFit r hits (min n r.numTokens)) :
    s'.FullBlocksGrow r.requestId (min n r.numTokens) := by
  refine h.fullBlocksGrow hshape ?_ hfit
  have := hfit.maxModelLen
  omega

end Prepared

theorem moves_allocateSlots (careful : Prop) (hfree : env.CollisionFree)
    (hcons : Consistent env s free) {r : Request}
    {hits : List (List ℕ)} {delayCacheBlocks : Bool}
    (hhits : Hits s.blockPool s.spec (s.reqToBlockHashes r.requestId) s.numKvCacheGroups hits)
    (hgrow : careful → delayCacheBlocks = false → s.HitsAndBlocksFit r hits
      (min (r.numComputedTokens + numNewComputedTokens + numNewTokens) r.numTokens))
    (hnull : s.enableCaching = true → delayCacheBlocks = false → newBlocks ≠ none →
      s.NewBlocksNotNull r.requestId
        (min (r.numComputedTokens + numNewComputedTokens + numNewTokens) r.numTokens) fun g =>
          (s.managers g).numSkippedBlocks r.requestId r.numComputedTokens)
    (hok : s.allocateSlots env r numNewTokens numNewComputedTokens hits numLookaheadTokens
      delayCacheBlocks = .ok (s', newBlocks)) :
    (∃ free', Moves env careful (s, free) (s', free')) ∧
      ∀ blocks, newBlocks = some blocks → NewBlocksSingle s' r.requestId blocks := by
  rw [allocateSlots_eq] at hok
  obtain ⟨⟨s₁, prepared⟩, hprepare, hok⟩ := bind_eq_ok.mp hok
  obtain ⟨⟨free₁, hmoves₁⟩, -, hprep⟩ :=
    moves_prepareSlots careful hfree hcons hhits hprepare
  cases prepared with
  -- Refused: nothing is cached.
  | none =>
    cases hok
    exact ⟨⟨free₁, hmoves₁⟩, nofun⟩
  | some blocks =>
    have hblocks := hprep blocks rfl
    dsimp only at hok
    split at hok
    · -- Nothing is cached here either: caching is off, or it is delayed.
      cases hok
      refine ⟨⟨free₁, hmoves₁⟩, ?_⟩
      rintro _ ⟨⟩
      exact hblocks.single
    · rename_i hcaching
      obtain ⟨hcaching, hdelay⟩ : s₁.enableCaching = true ∧ delayCacheBlocks = false := by
        simpa using hcaching
      obtain ⟨_, hcache, hok⟩ := bind_eq_ok.mp hok
      cases hok
      obtain ⟨hcons₁, -⟩ := hmoves₁.consistent hfree hcons
      rw [cacheBlocks_eq] at hcache
      obtain ⟨⟨free₂, hmoves₂⟩, hcached⟩ := moves_cacheGroups hfree hcons₁ le_rfl hcaching
        (fun h => hblocks.fullBlocksGrow_min hmoves₁.sameShape (hgrow h hdelay))
        (hblocks.newBlocksNotNull hmoves₁.sameShape
          (hnull (hmoves₁.sameShape.enableCaching ▸ hcaching) hdelay (Option.some_ne_none _)))
        hcache
      refine ⟨⟨free₂, hmoves₁.trans hmoves₂⟩, ?_⟩
      rintro _ ⟨⟩
      intro g b hb
      obtain ⟨hne, hone, hmem⟩ := hblocks.single g b hb
      rw [hcached.nullBlock, hcached.counts, hcached.tables]
      exact ⟨hne, hone, hmem⟩

/-- The scheduler is careful with the tokens of a request: there are at most as many as the model
allows, and those that are scheduled fill at least the blocks that are cached. -/
def KVCacheManager.TokensGrow (s : KVCacheManager) : Call → Prop
  | .allocateComputed r numNewTokens _ false | .allocateSlots r numNewTokens _ false =>
    s.HitsAndBlocksFit r [] (min (r.numComputedTokens + numNewTokens) r.numTokens)
  | .cacheBlocks r numComputedTokens =>
    numComputedTokens ≤ r.numTokens ∧ s.FullBlocksGrow r.requestId numComputedTokens
  | _ => True

theorem fits_createEmptyBlockList {r : Request} (h : s.HitsAndBlocksFit r [] numTokens) :
    s.HitsAndBlocksFit r s.createEmptyBlockList numTokens := by
  refine ⟨h.maxModelLen, ?_, h.known⟩
  intro g
  rw [createEmptyBlockList_getD]
  exact Nat.zero_le _

theorem KVCacheManager.HitsAndBlocksFit.getComputedBlocks {r : Request} {hits : List (List ℕ)}
    {hitLength numNewTokens : ℕ}
    (h : s.HitsAndBlocksFit r [] (min (r.numComputedTokens + numNewTokens) r.numTokens))
    (hle : hitLength ≤ r.numTokens)
    (hlen : ∀ g, (hits.getD g []).length ≤ hitLength / (s.managers g).blockSize)
    (hashes : String → List BlockHash) :
    HitsAndBlocksFit { s with reqToBlockHashes := hashes } r hits
      (min (r.numComputedTokens + hitLength + numNewTokens) r.numTokens) := by
  refine ⟨h.maxModelLen, ?_, ?_⟩
  · intro g
    exact (hlen g).trans (Nat.div_le_div_right (by omega))
  · intro g hg numCached hcached
    exact (h.known g hg numCached hcached).trans (Nat.div_le_div_right (by omega))

theorem NewBlocksNotNull.mono {numTokens numTokens' : ℕ} {skipped : ℕ → ℕ}
    (h : s.NewBlocksNotNull r numTokens skipped) (hle : numTokens' ≤ numTokens) :
    s.NewBlocksNotNull r numTokens' skipped := by
  intro g hg numCached hcached i hi hlt
  exact h g hg numCached hcached i hi (hlt.trans_le (Nat.div_le_div_right hle))

/-- The request that a call gives new blocks to. -/
def Call.requestId : Call → String
  | .getComputedBlocks r | .allocateComputed r _ _ _ | .allocateSlots r _ _ _ | .cacheBlocks r _ =>
    r.requestId
  | .preempt requestId | .finish requestId => requestId
  | .resetPrefixCache => ""

/-- A call that returns and caches no null block is a sequence of moves. -/
theorem moves_call (hfree : env.CollisionFree) (hcons : Consistent env s free) {c : Call}
    (hgrow : careful → s.TokensGrow c) (hnull : s.NullFree env c)
    (hok : s.call env c = .ok (s', newBlocks)) :
    (∃ free', Moves env careful (s, free) (s', free')) ∧
      ∀ blocks, newBlocks = some blocks → NewBlocksSingle s' c.requestId blocks := by
  -- A call that hands out blocks is not one that was refused.
  have hreturned : newBlocks ≠ none → ∀ s₁, s.call env c ≠ .ok (s₁, none) := by
    rintro hne s₁ hcall
    rw [hok] at hcall
    cases hcall
    exact hne rfl
  cases c with
  | getComputedBlocks r =>
    obtain ⟨⟨s₁, hits, hitLength⟩, hget, hok⟩ := bind_eq_ok.mp hok
    cases hok
    exact ⟨⟨free, (moves_getComputedBlocks careful hcons hget).1⟩, nofun⟩
  | allocateComputed r numNewTokens numLookaheadTokens delayCacheBlocks =>
    -- The lookup changes the hashes of the request only; then the slots are allocated.
    obtain ⟨⟨s₁, hits, hitLength⟩, hget, hok⟩ := bind_eq_ok.mp hok
    obtain ⟨hmoves₁, hhits, ⟨hashes, rfl⟩, hle, hlen⟩ :=
      moves_getComputedBlocks careful hcons hget
    obtain ⟨hcons₁, -⟩ := hmoves₁.consistent hfree hcons
    have halloc := moves_allocateSlots (s := { s with reqToBlockHashes := hashes }) careful
      hfree hcons₁ hhits ?_ ?_ hok
    · obtain ⟨⟨free₂, hmoves₂⟩, hsingle⟩ := halloc
      exact ⟨⟨free₂, hmoves₁.trans hmoves₂⟩, hsingle⟩
    · rintro h rfl
      exact (hgrow h).getComputedBlocks hle hlen hashes
    · rintro hcaching rfl hne
      exact NewBlocksNotNull.mono (hnull ⟨hcaching, rfl, hreturned hne⟩) (min_le_right _ _)
  | allocateSlots r numNewTokens numLookaheadTokens delayCacheBlocks =>
    refine moves_allocateSlots careful hfree hcons (hits_createEmptyBlockList s _ _ _) ?_ ?_ hok
    · rintro h rfl
      exact fits_createEmptyBlockList (hgrow h)
    · rintro hcaching rfl hne
      exact hnull ⟨hcaching, rfl, hreturned hne⟩
  | preempt requestId =>
    obtain ⟨s₁, hfree₁, hok⟩ := bind_eq_ok.mp hok
    cases hok
    exact ⟨(moves_free env careful hfree₁ free).1, nofun⟩
  | finish requestId =>
    obtain ⟨s₁, hfree₁, hok⟩ := bind_eq_ok.mp hok
    cases hok
    obtain ⟨⟨free₁, hmoves⟩, hinside, -, -⟩ := moves_free env careful hfree₁ free
    obtain ⟨hcons₁, -⟩ := hmoves.consistent hfree hcons
    -- The blocks are gone, so that no hash of the request names one when they are dropped.
    have hempty : ∀ g, s₁.tables (g, requestId) = [] := by
      intro g
      by_cases hg : g < s.numKvCacheGroups
      · exact hinside g hg
      · exact hcons₁.outside g requestId
          (hmoves.sameShape.numKvCacheGroups ▸ not_lt.mp hg)
    exact ⟨⟨free₁, hmoves.tail (Move.hash (.inr hempty) (hashChain_nil env))⟩, nofun⟩
  | cacheBlocks r numComputedTokens =>
    obtain ⟨s₁, hcache, hok⟩ := bind_eq_ok.mp hok
    cases hok
    unfold cacheRequestBlocks at hcache
    split at hcache
    · rename_i hcaching
      rw [cacheBlocks_eq] at hcache
      refine ⟨?_, nofun⟩
      exact (moves_cacheGroups hfree hcons le_rfl hcaching (fun h => (hgrow h).2)
        (hnull ⟨hcaching, trivial⟩) hcache).1
    · cases hcache
      exact ⟨⟨free, .refl⟩, nofun⟩
  | resetPrefixCache =>
    cases hok
    exact ⟨⟨free, .single .reset⟩, nofun⟩

/-! ### Runs -/

/-- A call that returns and caches no null block. -/
def NullFreeStep (env : HashEnv) (s : KVCacheManager) (c : Call) (s' : KVCacheManager) : Prop :=
  s.NullFree env c ∧ s.Step env c s'

theorem consistent_new {cfg : KVCacheConfig} {maxModelLen : ℕ}
    {enableCaching useEagle enableKvCacheEvents : Bool}
    (hok : new cfg maxModelLen enableCaching useEagle enableKvCacheEvents = .ok s) :
    ∃ free, Consistent env s free := by
  obtain ⟨hpool, hwf, htables, hhashes, -⟩ := new_eq_ok hok
  obtain ⟨free, hvalid, -, -, hcaching, -, hblocks, -⟩ := BlockPool.valid_new hpool
  have hempty : ∀ x, s.tables x = [] := fun x => (htables x.1 x.2).1
  have hfinite : Tables.FinitelyMany s.tables := by
    simp [Tables.FinitelyMany, hempty]
  refine ⟨free, ⟨⟨hvalid, hfinite, ?_, ?_, ?_, (hblocks _).2, ?_, ?_, ?_⟩, hcaching,
    fun g r _ => hempty (g, r), hwf⟩⟩
  · intro x b hb
    rw [hempty] at hb
    cases hb
  · intro x
    rw [hempty]
    exact nodup_nil
  · intro b _
    rw [(hblocks b).1]
    have hzero : Tables.numHolders s.tables b = 0 := by
      rw [Tables.numHolders_eq_zero_iff hfinite]
      intro x
      simp [hempty]
    exact_mod_cast hzero.symm
  · intro b _ _
    rw [(hblocks b).1]
    exact Int.zero_le_ofNat 1
  · intro g r i b key hb
    rw [hempty] at hb
    cases hb
  · intro r
    rw [hhashes]
    exact hashChain_nil env

/-- One call after the other. -/
def KVCacheManager.runCalls (env : HashEnv) (s : KVCacheManager) (calls : List Call) :
    Except KvError KVCacheManager :=
  calls.foldlM (fun s c => do
    let (s, _) ← s.call env c
    return s) s

theorem execution_runCalls {calls : List Call} (hok : s.runCalls env calls = .ok s') :
    Transition.Execution (Step env) s calls s' := by
  induction calls generalizing s with
  | nil =>
    cases hok
    exact .start
  | cons c calls ih =>
    obtain ⟨_, hfirst, hrest⟩ := foldlM_cons_eq_ok.mp hok
    obtain ⟨⟨_, newBlocks⟩, hcall, hs⟩ := bind_eq_ok.mp hfirst
    cases hs
    exact Transition.Execution.append (.single ⟨newBlocks, hcall⟩) (ih hrest)

/-- A run is a sequence of moves from a new manager. -/
theorem moves_of_execution (hfree : env.CollisionFree) (hcons : Consistent env s free)
    {calls : List Call} (run : Transition.Execution (NullFreeStep env) s calls s') :
    ∃ free', Moves env False (s, free) (s', free') := by
  induction run with
  | start => exact ⟨free, .refl⟩
  | extend _ last ih =>
    obtain ⟨_, hmoves⟩ := ih
    obtain ⟨hcons₁, -⟩ := hmoves.consistent hfree hcons
    obtain ⟨hnull, _, hok⟩ := last
    obtain ⟨⟨free₂, hmoves₂⟩, -⟩ := moves_call hfree hcons₁ False.elim hnull hok
    exact ⟨free₂, hmoves.trans hmoves₂⟩

end Kv
