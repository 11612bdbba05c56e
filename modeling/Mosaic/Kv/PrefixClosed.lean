import Mosaic.Kv.Conservation

/-!
# Cached prefixes

The hits of full attention end at the first hash that is not cached, which is right only if no
later hash is cached. This holds because blocks are evicted in the order of the queue, and because
a block without references stands in the queue before a block with the hash of its parent, unless
the parent is in use. It fails if the null block is cached.
-/

namespace Kv

open List Function Option

/-- The hash `h` follows the hash `h'` in a chain. -/
def IsParent (env : HashEnv) (h' h : BlockHash) : Prop :=
  ∃ hs k, HashChain env hs ∧ hs[k]? = some h' ∧ hs[k + 1]? = some h

/-- In every chain with the hash, its parent is the hash before it. -/
theorem IsParent.getElem? {env : HashEnv} {h h' : BlockHash} (hparent : IsParent env h' h)
    (hfree : env.CollisionFree) {hs : List BlockHash} {i : ℕ} (hchain : HashChain env hs)
    (hi : hs[i]? = some h) : ∃ k, i = k + 1 ∧ hs[k]? = some h' := by
  obtain ⟨hs', k, hchain', hk, hsucc⟩ := hparent
  obtain ⟨rfl, htake⟩ := hchain.eq_of_getElem?_eq hfree hchain' hi hsucc
  refine ⟨k, rfl, ?_⟩
  have hget := congrArg (fun l => l[k]?) htake
  simp only [getElem?_take, show k < k + 1 + 1 by omega, if_true] at hget
  rw [hget, hk]

/-- Two elements of a list in their order. -/
theorem pair_sublist {l : List ℕ} {i j a b : ℕ} (hi : l[i]? = some a) (hj : l[j]? = some b)
    (hij : i < j) : [a, b].Sublist l := by
  have ha : [a].Sublist (l.take j) := by
    rw [singleton_sublist]
    exact mem_of_getElem? (i := i) (by rw [getElem?_take, if_pos hij, hi])
  have hb : [b].Sublist (l.drop j) := by
    rw [singleton_sublist]
    exact mem_of_getElem? (i := 0) (by rw [getElem?_drop, add_zero, hj])
  have happend := ha.append hb
  rwa [take_append_drop] at happend

theorem pair_sublist_filter {l : List ℕ} {a b : ℕ} {q : ℕ → Bool} (h : [a, b].Sublist l)
    (ha : q a = true) (hb : q b = true) : [a, b].Sublist (l.filter q) := by
  have hfilter := h.filter q
  rwa [filter_cons_of_pos ha, filter_cons_of_pos hb, filter_nil] at hfilter

/-- Children are evicted before their parents: of the groups in `full`, the blocks with a hash are
leading ones in each table, and each block in the queue has a parent in use or behind it. -/
structure EvictionOrder (env : HashEnv) (full : ℕ → Prop) (p : BlockPool) (t : RequestTables)
    (free : List ℕ) : Prop where
  /-- Hashes belong to chains. -/
  rooted : ∀ b key, p.blockHash b = some key →
    ∃ (hs : List BlockHash) (i : ℕ), HashChain env hs ∧ hs[i]? = some key.blockHash
  leading : ∀ (g : ℕ) (r : String) (i j b : ℕ), full g → i < j → (t (g, r))[j]? = some b →
    (p.blockHash b).isSome → ∃ b', (t (g, r))[i]? = some b' ∧ (p.blockHash b').isSome
  queued : ∀ b ∈ free, ∀ g h h', full g → p.blockHash b = some ⟨h, g⟩ → IsParent env h' h →
    ∃ b', p.blockHash b' = some ⟨h', g⟩ ∧ (p.refCnt b' ≠ 0 ∨ [b, b'].Sublist free)

namespace EvictionOrder

variable {env : HashEnv} {full : ℕ → Prop} {p p' : BlockPool} {t t' : RequestTables}
  {hs : String → List BlockHash} {free : List ℕ}

section

variable (h : EvictionOrder env full p t free) (hsharing : Sharing env p t hs free)
  (hfree : env.CollisionFree)
include h hsharing hfree

/-- The parent of a block of a table stands before it in the table. -/
theorem parent_of_table {g i b : ℕ} {r : String} {h₁ h' : BlockHash} (hg : full g)
    (hb : (t (g, r))[i]? = some b) (hhash : p.blockHash b = some ⟨h₁, g⟩)
    (hparent : IsParent env h' h₁) :
    ∃ k b', i = k + 1 ∧ (t (g, r))[k]? = some b' ∧ p.blockHash b' = some ⟨h', g⟩ := by
  obtain ⟨-, hname⟩ := hsharing.named g r i b _ hb hhash
  obtain ⟨k, rfl, hk⟩ := hparent.getElem? hfree (hsharing.chain r) hname
  obtain ⟨b', hb', hsome⟩ := h.leading g r k (k + 1) b hg k.lt_succ_self hb (by simp [hhash])
  obtain ⟨key, hkey⟩ := isSome_iff_exists.mp hsome
  obtain ⟨rfl, hname'⟩ := hsharing.named g r k b' key hb' hkey
  refine ⟨k, b', rfl, hb', ?_⟩
  rw [hkey, some.inj (hk.symm.trans hname')]

/-- The parent of a cached block is cached. -/
theorem parent {g b : ℕ} {h₁ h' : BlockHash} (hg : full g) (hhash : p.blockHash b = some ⟨h₁, g⟩)
    (hparent : IsParent env h' h₁) : ∃ b', p.blockHash b' = some ⟨h', g⟩ := by
  have hnull := hsharing.ne_null hhash
  by_cases hb : b ∈ free
  · obtain ⟨b', hb', -⟩ := h.queued b hb g h₁ h' hg hhash hparent
    exact ⟨b', hb'⟩
  · have hused : Tables.numHolders t b ≠ 0 := by
      intro hzero
      refine hb ((hsharing.valid.mem_free b).mpr ⟨hsharing.valid.hash_lt b _ hhash, hnull, ?_⟩)
      rw [hsharing.count b hnull]
      exact_mod_cast hzero
    rw [Ne, Tables.numHolders_eq_zero_iff hsharing.finite, not_forall_not] at hused
    obtain ⟨⟨g', r⟩, hmem⟩ := hused
    obtain ⟨i, hi⟩ := mem_iff_getElem?.mp hmem
    obtain rfl := (hsharing.named g' r i b _ hi hhash).1
    obtain ⟨_, b', -, -, hb'⟩ := h.parent_of_table hsharing hfree hg hi hhash hparent
    exact ⟨b', hb'⟩

end

/-- Blocks are released whose parents, if any, are released after them. -/
theorem release (h : EvictionOrder env full p t free) (hsharing : Sharing env p t hs free)
    {x : ℕ × String} {removed : List ℕ} (hin : ∀ b ∈ removed, b ∈ t x)
    (hhash : p'.blockHash = p.blockHash)
    (hvalid' : p'.Valid (free ++ releasedBlocks p removed)) (hsame : BlockPool.Same p p')
    (hleading : ∀ (g : ℕ) (r : String) (i j b : ℕ), full g → i < j → (t' (g, r))[j]? = some b →
      (p.blockHash b).isSome → ∃ b', (t' (g, r))[i]? = some b' ∧ (p.blockHash b').isSome)
    (hremoved : ∀ b ∈ removed, ∀ g h h', full g → p.blockHash b = some ⟨h, g⟩ →
      IsParent env h' h → ∃ b', p.blockHash b' = some ⟨h', g⟩ ∧ [b, b'].Sublist removed) :
    EvictionOrder env full p' t' (free ++ releasedBlocks p removed) where
  rooted := hhash ▸ h.rooted
  leading := hhash ▸ hleading
  queued := by
    -- a parent without references is in the queue, and was released if it was not there before
    have hfreed : ∀ b' key, p.blockHash b' = some key → p'.refCnt b' = 0 → b' ∉ free →
        b' ∈ releasedBlocks p removed := by
      intro b' key hkey hzero hnot
      have hne : b' ≠ p'.nullBlock := by
        rw [hsame.nullBlock]
        rintro rfl
        rw [hsharing.null] at hkey
        cases hkey
      have hmem := (hvalid'.mem_free b').mpr ⟨hvalid'.hash_lt b' key (hhash ▸ hkey), hne, hzero⟩
      exact (mem_append.mp hmem).resolve_left hnot
    intro b hb g h₁ h' hg hkey hparent
    rw [hhash] at hkey ⊢
    rcases mem_append.mp hb with hb | hb
    · obtain ⟨b', hkey', hor⟩ := h.queued b hb g h₁ h' hg hkey hparent
      refine ⟨b', hkey', ?_⟩
      by_cases hzero : p'.refCnt b' = 0
      · right
        by_cases hmem : b' ∈ free
        · have hcnt := ((hsharing.valid.mem_free b').mp hmem).2.2
          exact (hor.resolve_left (not_not.mpr hcnt)).trans (sublist_append_left _ _)
        · have hmem' := hfreed b' _ hkey' hzero hmem
          exact List.Sublist.append (singleton_sublist.mpr hb)
            (singleton_sublist.mpr hmem')
      · exact .inl hzero
    · obtain ⟨hmem, hlast⟩ := mem_filter.mp hb
      obtain ⟨b', hkey', hsub⟩ := hremoved b hmem g h₁ h' hg hkey hparent
      refine ⟨b', hkey', ?_⟩
      by_cases hzero : p'.refCnt b' = 0
      · right
        have hnot : b' ∉ free := fun hmem' =>
          hsharing.notMem_of_free hmem' x (hin b' (hsub.subset (by simp)))
        have hmem' := hfreed b' _ hkey' hzero hnot
        exact (pair_sublist_filter hsub hlast (mem_filter.mp hmem').2).trans
          (sublist_append_right _ _)
      · exact .inl hzero

/-- Blocks are taken out of the queue and keep their hashes. -/
theorem take (h : EvictionOrder env full p t free) (hnodup : free.Nodup) {taken : List ℕ}
    (hhash : p'.blockHash = p.blockHash)
    (hcnt : ∀ b, b ≠ p.nullBlock → p'.refCnt b = p.refCnt b + if b ∈ taken then 1 else 0)
    (hnonneg : ∀ b, b ≠ p.nullBlock → 0 ≤ p.refCnt b)
    (hnull : p.blockHash p.nullBlock = none)
    (hleading : ∀ (g : ℕ) (r : String) (i j b : ℕ), full g → i < j → (t' (g, r))[j]? = some b →
      (p.blockHash b).isSome → ∃ b', (t' (g, r))[i]? = some b' ∧ (p.blockHash b').isSome) :
    EvictionOrder env full p' t' (free.diff taken) where
  rooted := hhash ▸ h.rooted
  leading := hhash ▸ hleading
  queued := by
    intro b hb g h₁ h' hg hkey hparent
    have hdiff : free.diff taken = free.filter (· ∉ taken) := hnodup.sdiff_eq_filter
    rw [hdiff] at hb ⊢
    obtain ⟨hb, hnot⟩ := mem_filter.mp hb
    rw [hhash] at hkey ⊢
    obtain ⟨b', hkey', hor⟩ := h.queued b hb g h₁ h' hg hkey hparent
    have hne : b' ≠ p.nullBlock := by
      rintro rfl
      rw [hnull] at hkey'
      cases hkey'
    refine ⟨b', hkey', ?_⟩
    have hpos := hnonneg b' hne
    rw [hcnt b' hne]
    by_cases htaken : b' ∈ taken
    · left
      rw [if_pos htaken]
      omega
    · rw [if_neg htaken, add_zero]
      exact hor.imp_right fun hsub => pair_sublist_filter hsub hnot (by simpa using htaken)

/-- The blocks at the front of the queue are evicted. -/
theorem allocate (h : EvictionOrder env full p t free) (hsharing : Sharing env p t hs free)
    {n : ℕ} (hhash : ∀ b, p'.blockHash b = if b ∈ free.take n then none else p.blockHash b)
    (hcnt : ∀ b, p'.refCnt b = if b ∈ free.take n then 1 else p.refCnt b) (x : ℕ × String) :
    EvictionOrder env full p' (update t x (t x ++ free.take n)) (free.drop n) where
  rooted := by
    intro b key hkey
    rw [hhash] at hkey
    split at hkey
    · cases hkey
    · exact h.rooted b key hkey
  leading := by
    intro g r i j b hg hij hb hsome
    have hnot : b ∉ free.take n := by
      intro hmem
      rw [hhash, if_pos hmem] at hsome
      cases hsome
    rw [hhash, if_neg hnot] at hsome
    -- the block stands where it stood, and so do the blocks before it
    have hold : (t (g, r))[j]? = some b := by
      by_cases hx : (g, r) = x
      · rw [hx, update_self, getElem?_append] at hb
        split at hb
        · exact hx ▸ hb
        · exact absurd (mem_of_getElem? hb) hnot
      · rwa [update_of_ne hx] at hb
    obtain ⟨b', hb', hsome'⟩ := h.leading g r i j b hg hij hold hsome
    refine ⟨b', ?_, ?_⟩
    · by_cases hx : (g, r) = x
      · have hlt := (List.getElem?_eq_some_iff.mp hb').1
        rw [hx] at hb' hlt
        rw [hx, update_self, getElem?_append_left hlt, hb']
      · rwa [update_of_ne hx]
    · rw [hhash, if_neg]
      · exact hsome'
      · intro hmem
        exact hsharing.notMem_of_free (mem_of_mem_take hmem) _ (mem_of_getElem? hb')
  queued := by
    have hnodup := hsharing.valid.queue.nodup
    have hdisj : ∀ b ∈ free.drop n, b ∉ free.take n := fun b hb hb' =>
      disjoint_take_drop hnodup le_rfl hb' hb
    intro b hb g h₁ h' hg hkey hparent
    rw [hhash, if_neg (hdisj b hb)] at hkey
    obtain ⟨b', hkey', hor⟩ := h.queued b (mem_of_mem_drop hb) g h₁ h' hg hkey hparent
    refine ⟨b', ?_⟩
    rcases hor with hcnt' | hsub
    · have hnot : b' ∉ free.take n := fun hmem =>
        hcnt' ((hsharing.valid.mem_free b').mp (mem_of_mem_take hmem)).2.2
      rw [hhash, hcnt, if_neg hnot, if_neg hnot]
      exact ⟨hkey', .inl hcnt'⟩
    · have hdrop : [b, b'].Sublist (free.drop n) := by
        rw [← take_append_drop n free, sublist_append_iff] at hsub
        obtain ⟨l₁, _, hl, hl₁, hl₂⟩ := hsub
        cases l₁ with
        | nil => exact hl ▸ hl₂
        | cons a l₁ =>
          obtain ⟨rfl, -⟩ := List.cons.inj hl
          exact absurd (hl₁.subset (mem_cons_self ..)) (hdisj b hb)
      rw [hhash, if_neg (hdisj b' (hdrop.subset (by simp)))]
      exact ⟨hkey', .inr hdrop⟩

section Caching

variable {r : Request} {hashes : List BlockHash} {numCached numFull blockSize g : ℕ}

/-- The hashes that blocks have before a request caches its full blocks. -/
theorem isSome_of_prevBlockHashValue {parent : Option ℤ} {blocks : List ℕ} (hpos : numCached ≠ 0)
    (hparent : p.prevBlockHashValue blocks numCached = .ok parent) :
    ∃ b, blocks[numCached - 1]? = some b ∧ (p.blockHash b).isSome := by
  unfold BlockPool.prevBlockHashValue at hparent
  rw [if_neg hpos] at hparent
  split at hparent
  · cases hparent
  · rename_i b hb
    split at hparent
    · cases hparent
    · rename_i key hkey
      exact ⟨b, hb, by simp [hkey]⟩

/-- Full blocks are cached after the leading blocks of their table. -/
theorem cache (h : EvictionOrder env full p t free) (hsharing : Sharing env p t hs free)
    (hnull : p.nullBlock ∉ BlockPool.newFullBlocks (t (g, r.requestId)) numCached numFull)
    (hok : p.cacheFullBlocks env r (t (g, r.requestId)) (hs r.requestId) numCached numFull
      blockSize g = .ok (p', hashes)) :
    EvictionOrder env full p' t free := by
  rcases BlockPool.cacheFullBlocks_eq_ok hok with
    ⟨-, rfl, rfl⟩ | ⟨-, parent, hparent, hcaches, -, hchain⟩
  · exact h
  · -- Caching gives hashes to blocks that had none, and takes none away.
    have hkept : ∀ b key, p.blockHash b = some key → p'.blockHash b = some key := by
      intro b key hkey
      rw [hcaches.others b, hkey]
      intro hmem
      rw [hcaches.fresh b hmem] at hkey
      cases hkey
    have hkeptSome : ∀ b, (p.blockHash b).isSome → (p'.blockHash b).isSome := by
      intro b hsome
      obtain ⟨key, hkey⟩ := isSome_iff_exists.mp hsome
      rw [hkept b key hkey]
      rfl
    refine ⟨?_, ?_, ?_⟩
    · -- rooted: the chain of a new hash is the list of the request's hashes.
      intro b key hkey
      by_cases hmem : b ∈ BlockPool.newFullBlocks (t (g, r.requestId)) numCached numFull
      · obtain ⟨i, hi⟩ := mem_iff_getElem?.mp hmem
        obtain ⟨h', hh', hkey'⟩ := hcaches.cached i b hi
        cases hkey.symm.trans hkey'
        exact ⟨hashes, numCached + i,
          hchain (hsharing.chain _)
            (((hsharing.blockPool_named _ _).parentNamed _).parent_eq_prevValue hparent),
            hh'⟩
      · rw [hcaches.others b hmem] at hkey
        exact h.rooted b key hkey
    · -- leading: what is cached anew follows blocks that are cached, old or new.
      intro g' r' i j b hg hij hb hsome
      by_cases hmem : b ∈ BlockPool.newFullBlocks (t (g, r.requestId)) numCached numFull
      · have hne : b ≠ p.nullBlock := fun heq => hnull (heq ▸ hmem)
        obtain ⟨_, -, hlt, hpos⟩ := Sharing.mem_newFullBlocks.mp hmem
        obtain ⟨hx, rfl⟩ :=
          hsharing.unique_of_blockHash_eq_none (hcaches.fresh b hmem) hne hb hpos
        obtain ⟨rfl, rfl⟩ := Prod.mk.inj hx
        by_cases hi : numCached ≤ i
        · have hlen := (List.getElem?_eq_some_iff.mp hpos).1
          have hget : (t (g', r.requestId))[i]? = some (t (g', r.requestId))[i] :=
            getElem?_eq_getElem (by omega)
          have hmem' := Sharing.mem_newFullBlocks.mpr ⟨i, hi, hij.trans hlt, hget⟩
          obtain ⟨i', hi'⟩ := mem_iff_getElem?.mp hmem'
          obtain ⟨h', -, hkey⟩ := hcaches.cached i' _ hi'
          exact ⟨_, hget, by rw [hkey]; rfl⟩
        · obtain ⟨b₀, hb₀, hsome₀⟩ := isSome_of_prevBlockHashValue (by omega) hparent
          by_cases hlast : i = numCached - 1
          · exact ⟨b₀, hlast ▸ hb₀, hkeptSome b₀ hsome₀⟩
          · obtain ⟨b', hb', hsome'⟩ :=
              h.leading g' r.requestId i (numCached - 1) b₀ hg (by omega) hb₀ hsome₀
            exact ⟨b', hb', hkeptSome b' hsome'⟩
      · rw [hcaches.others b hmem] at hsome
        obtain ⟨b', hb', hsome'⟩ := h.leading g' r' i j b hg hij hb hsome
        exact ⟨b', hb', hkeptSome b' hsome'⟩
    · -- queued: a free block is in no table, so it is none of those cached.
      intro b hb g' h₁ h' hg hkey hparent'
      have hnot : b ∉ BlockPool.newFullBlocks (t (g, r.requestId)) numCached numFull := by
        intro hmem
        obtain ⟨i, -, -, hi⟩ := Sharing.mem_newFullBlocks.mp hmem
        exact hsharing.notMem_of_free hb _ (mem_of_getElem? hi)
      rw [hcaches.others b hnot] at hkey
      obtain ⟨b', hkey', hor⟩ := h.queued b hb g' h₁ h' hg hkey hparent'
      rw [hcaches.refCnt]
      exact ⟨b', hkept b' _ hkey', hor⟩

end Caching

/-- Without hashes there is no order. -/
theorem of_blockHash_eq_none (hnone : ∀ b, p.blockHash b = none) :
    EvictionOrder env full p t free where
  rooted b key hkey := by
    rw [hnone] at hkey
    cases hkey
  leading g r i j b _ _ _ hsome := by
    rw [hnone] at hsome
    cases hsome
  queued b _ g h₁ h' _ hkey := by
    rw [hnone] at hkey
    cases hkey

end EvictionOrder

/-! ### Moves -/

namespace KVCacheManager

/-- The groups of full attention. -/
def IsFull (s : KVCacheManager) (g : ℕ) : Prop := (s.spec g).isFullAttention = true

end KVCacheManager

open KVCacheManager

variable {env : HashEnv} {s s' : KVCacheManager} {free : List ℕ}

/-- Moves preserve the order of eviction. -/
theorem Move.evictionOrder (hfree : env.CollisionFree) {careful : Prop}
    {x y : KVCacheManager × List ℕ} (hmove : Move env careful x y) (hcons : Consistent env x.1 x.2)
    (h : EvictionOrder env x.1.IsFull x.1.blockPool x.1.tables x.2) :
    EvictionOrder env y.1.IsFull y.1.blockPool y.1.tables y.2 := by
  have hsharing := hcons.sharing
  have hsharing' := (hmove.consistent hfree hcons).1.sharing
  have hsame := (hmove.consistent hfree hcons).2
  have hfull : y.1.IsFull = x.1.IsFull := by
    funext g
    rw [IsFull, IsFull, hmove.sameShape.spec]
  rw [hfull]
  cases hmove with
  | @skip s free g n r blocks removed p hg hzero hloop hok =>
    obtain ⟨-, hsub, -⟩ := removeLoop_mem hloop (hsharing.nodup (g, r))
    obtain ⟨queue, hp⟩ := BlockPool.freeBlocks_eq_ok hok
    have hhash : p.blockHash = s.blockPool.blockHash := by
      rw [hp]
    have hkept : s.IsFull g → (removed = [] ∧ blocks = s.tables (g, r)) := by
      intro hg
      obtain rfl := hzero hg
      cases hloop
      exact ⟨rfl, rfl⟩
    refine h.release hsharing hsub hhash hsharing'.valid hsame ?_ ?_
    · rw [KVCacheManager.tables_setBlocks]
      intro g' r' i j b hg' hij hb hsome
      by_cases hx : (g', r') = (g, r)
      · obtain ⟨rfl, rfl⟩ := Prod.mk.inj hx
        rw [update_self, (hkept hg').2] at hb ⊢
        exact h.leading g' r' i j b hg' hij hb hsome
      · rw [update_of_ne hx] at hb ⊢
        exact h.leading g' r' i j b hg' hij hb hsome
    · -- a group of full attention skips nothing
      intro b hb g' h₁ h' hg' hkey _
      obtain ⟨i, hi⟩ := mem_iff_getElem?.mp (hsub b hb)
      obtain rfl := (hsharing.named g r i b _ hi hkey).1
      rw [(hkept hg').1] at hb
      cases hb
  | @release s free g r p hg hok =>
    obtain ⟨queue, hp⟩ := BlockPool.freeBlocks_eq_ok hok
    have hhash : p.blockHash = s.blockPool.blockHash := by
      rw [hp]
    refine h.release hsharing (x := (g, r)) (fun b hb => mem_reverse.mp hb) hhash
      hsharing'.valid hsame ?_ ?_
    · rw [KVCacheManager.tables_setNumCached, KVCacheManager.tables_setBlocks]
      intro g' r' i j b hg' hij hb hsome
      by_cases hx : (g', r') = (g, r)
      · rw [hx, update_self] at hb
        cases hb
      · rw [update_of_ne hx] at hb ⊢
        exact h.leading g' r' i j b hg' hij hb hsome
    · intro b hb g' h₁ h' hg' hkey hparent
      obtain ⟨i, hi⟩ := mem_iff_getElem?.mp (mem_reverse.mp hb)
      obtain rfl := (hsharing.named g r i b _ hi hkey).1
      obtain ⟨k, b', rfl, hb', hkey'⟩ := h.parent_of_table hsharing hfree hg' hi hkey hparent
      exact ⟨b', hkey', (pair_sublist hb' hi k.lt_succ_self).reverse⟩
  | @take s s' free r hits p hhits hok hsave =>
    obtain ⟨htables, -, hfresh⟩ := tables_saveNewComputedBlocks hsave
    obtain ⟨_, rfl, -, -⟩ := saveNewComputedBlocks_eq_ok hsave
    obtain ⟨-, hhash, hcnt, -⟩ := hsharing.take hfree hhits hfresh hok
    refine h.take hsharing.valid.queue.nodup hhash hcnt hsharing.valid.nonneg hsharing.null ?_
    rw [htables]
    intro g r' i j b hg hij hb hsome
    by_cases hx : g < s.numKvCacheGroups ∧ r' = r
    · obtain ⟨hlt, rfl⟩ := hx
      rw [Sharing.takeHits_self hlt] at hb ⊢
      rcases hfresh g hlt with hempty | hempty
      · -- all hits of full attention are cached
        rw [hempty, nil_append] at hb ⊢
        have hlen := (List.getElem?_eq_some_iff.mp hb).1
        have hget : (hits.getD g [])[i]? = some (hits.getD g [])[i] :=
          getElem?_eq_getElem (hij.trans hlen)
        refine ⟨_, hget, ?_⟩
        rcases Sharing.hits_getD hhits hlt hget with ⟨h', -, hhead⟩ | ⟨-, hnot⟩
        · rw [(hsharing.valid.mem_cached _ _).mp (mem_of_mem_head? hhead)]
          rfl
        · rw [IsFull, hnot] at hg
          cases hg
      · rw [hempty, append_nil] at hb ⊢
        exact h.leading g r' i j b hg hij hb hsome
    · rw [Sharing.takeHits_of_ne hx] at hb ⊢
      exact h.leading g r' i j b hg hij hb hsome
  | @allocate s free g n r newBlocks p hg hok =>
    obtain ⟨-, rfl, hhash, hcnt, -⟩ := hsharing.allocate (g, r) hok
    rw [KVCacheManager.tables_setBlocks]
    exact h.allocate hsharing hhash hcnt (g, r)
  | @cache s free g numCached numFull blockSize r p hashes hg hcache _ _ hnull hok =>
    change EvictionOrder env _ p (KVCacheManager.setGroup _ _ _ p).tables _
    rw [KVCacheManager.tables_setNumCached, KVCacheManager.tables_setGroup_self]
    exact h.cache hsharing hnull hok
  | @hash s free r hashes hempty hchain => exact ⟨h.rooted, h.leading, h.queued⟩
  | @reset s free =>
    change EvictionOrder env _ s.blockPool.resetPrefixCache.2 s.tables free
    rcases hsharing.valid.resetPrefixCache with hsame | ⟨-, -, -, -, hhash, -⟩
    · rw [hsame]
      exact h
    · exact .of_blockHash_eq_none hhash

theorem Moves.evictionOrder (hfree : env.CollisionFree) {careful : Prop}
    {x y : KVCacheManager × List ℕ} (hmoves : Moves env careful x y)
    (hcons : Consistent env x.1 x.2)
    (h : EvictionOrder env x.1.IsFull x.1.blockPool x.1.tables x.2) :
    EvictionOrder env y.1.IsFull y.1.blockPool y.1.tables y.2 := by
  induction hmoves with
  | refl => exact h
  | tail hmoves hmove ih =>
    exact hmove.evictionOrder hfree (Moves.consistent hfree hmoves hcons).1 ih

/-! ### Closed prefixes -/

namespace KVCacheManager

/-- A hash for which a group has a block. -/
def IsCached (s : KVCacheManager) (g : ℕ) (h : BlockHash) : Prop :=
  s.blockPool.cachedBlockHashToBlock ⟨h, g⟩ ≠ []

/-- If a group of full attention has a block for a hash of a chain, then it has one for the hash
before it. -/
def PrefixClosed (env : HashEnv) (s : KVCacheManager) : Prop :=
  ∀ g, s.IsFull g → ∀ (hs : List BlockHash) (k : ℕ) (h : BlockHash), HashChain env hs →
    hs[k + 1]? = some h → s.IsCached g h → ∃ h', hs[k]? = some h' ∧ s.IsCached g h'

/-- The hits of full attention are those hashes of the chain that are cached in all groups, up to
the maximal length; a drafter that needs the last one again gives it up. -/
def LongestHits (env : HashEnv) (s : KVCacheManager) : Prop :=
  ∀ groupIds : List ℕ, groupIds ≠ [] → (∀ g ∈ groupIds, s.IsFull g) →
    ∀ (hs : List BlockHash) (maxLength blockSize : ℕ) (useEagle : Bool), HashChain env hs →
      ∃ n, (∀ k, k < n ↔ k < maxLength / blockSize ∧
          ∃ h, hs[k]? = some h ∧ ∀ g ∈ groupIds, s.IsCached g h) ∧
        Rows (HitAt s.blockPool hs) (if useEagle then n - 1 else n) groupIds
          (fullAttentionHit s.blockPool hs maxLength groupIds blockSize useEagle)

end KVCacheManager

theorem isCached_iff (hvalid : s.blockPool.CacheValid) {g : ℕ} {h : BlockHash} :
    s.IsCached g h ↔ ∃ b, s.blockPool.blockHash b = some ⟨h, g⟩ := by
  rw [IsCached, ne_nil_iff_exists_cons]
  constructor
  · rintro ⟨b, _, heq⟩
    exact ⟨b, (hvalid.mem_cached _ b).mp (heq ▸ mem_cons_self ..)⟩
  · rintro ⟨b, hb⟩
    exact exists_cons_of_ne_nil (ne_nil_of_mem ((hvalid.mem_cached _ b).mpr hb))

theorem EvictionOrder.prefixClosed (hfree : env.CollisionFree) (hcons : Consistent env s free)
    (h : EvictionOrder env s.IsFull s.blockPool s.tables free) : s.PrefixClosed env := by
  intro g hg hs k h₁ hchain hk hcached
  have hlt := (List.getElem?_eq_some_iff.mp hk).1
  have hget : hs[k]? = some hs[k] := getElem?_eq_getElem (by omega)
  have hvalid := hcons.sharing.valid.toCacheValid
  refine ⟨hs[k], hget, ?_⟩
  rw [isCached_iff hvalid] at hcached ⊢
  obtain ⟨_, hb⟩ := hcached
  exact h.parent hcons.sharing hfree hg hb ⟨hs, k, hchain, hget, hk⟩

/-- If prefixes are closed, then the first hash that is missing is the only one that matters. -/
theorem KVCacheManager.PrefixClosed.longestHits (h : s.PrefixClosed env) : s.LongestHits env := by
  intro groupIds hne hfull hs maxLength blockSize useEagle hchain
  obtain ⟨n, hrows, hfound, hmissing⟩ :=
    rows_fullAttentionHit s.blockPool hs maxLength groupIds blockSize useEagle
  refine ⟨n, ?_, hrows⟩
  have hrow : ∀ h₁ : BlockHash, (cachedRow s.blockPool groupIds h₁).isSome ↔
      ∀ g ∈ groupIds, s.IsCached g h₁ := cachedRow_isSome_iff hne
  -- the hashes from the first missing one on are all missing
  have hlater : ∀ k, n ≤ k → k < maxLength / blockSize → ∀ h₁, hs[k]? = some h₁ →
      ¬ ∀ g ∈ groupIds, s.IsCached g h₁ := by
    intro k hk
    induction k, hk using Nat.le_induction with
    | base =>
      intro hlt h₁ hh₁ hall
      have hnone := hmissing hlt h₁ hh₁
      rw [← hrow, hnone] at hall
      cases hall
    | succ k hk ih =>
      intro hlt h₁ hh₁ hall
      have hlen := (List.getElem?_eq_some_iff.mp hh₁).1
      have hget : hs[k]? = some hs[k] := getElem?_eq_getElem (by omega)
      refine ih (by omega) hs[k] hget ?_
      intro g hg
      obtain ⟨h', hh', hcached⟩ := h g (hfull g hg) hs k h₁ hchain hh₁ (hall g hg)
      rw [some.inj (hget.symm.trans hh')]
      exact hcached
  intro k
  constructor
  · intro hk
    obtain ⟨hlt, h₁, hh₁, hsome⟩ := hfound k hk
    exact ⟨hlt, h₁, hh₁, (hrow h₁).mp hsome⟩
  · rintro ⟨hlt, h₁, hh₁, hall⟩
    by_contra hk
    exact hlater k (not_lt.mp hk) hlt h₁ hh₁ hall

/-- In every run that caches no null block, every cached hash belongs to a chain, the cached hashes
of each chain are closed under parents, and the hits of full attention are the longest ones. -/
theorem prefixClosed_of_run (hfree : env.CollisionFree) {cfg : KVCacheConfig} {maxModelLen : ℕ}
    {enableCaching useEagle enableKvCacheEvents : Bool}
    (hnew : new cfg maxModelLen enableCaching useEagle enableKvCacheEvents = .ok s)
    {calls : List Call} (run : Transition.Execution (NullFreeStep env) s calls s') :
    (∀ g h, s'.IsCached g h →
      ∃ (hs : List BlockHash) (k : ℕ), HashChain env hs ∧ hs[k]? = some h) ∧
      s'.PrefixClosed env ∧ s'.LongestHits env := by
  obtain ⟨_, hcons⟩ := consistent_new hnew
  obtain ⟨_, hmoves⟩ := moves_of_execution hfree hcons run
  obtain ⟨hcons', -⟩ := hmoves.consistent hfree hcons
  have hnone : ∀ b, s.blockPool.blockHash b = none := by
    obtain ⟨hpool, -⟩ := new_eq_ok hnew
    obtain ⟨-, -, -, -, -, -, hblocks, -⟩ := BlockPool.valid_new hpool
    exact fun b => (hblocks b).2
  have horder := hmoves.evictionOrder hfree hcons (.of_blockHash_eq_none hnone)
  have hclosed := horder.prefixClosed hfree hcons'
  refine ⟨?_, hclosed, hclosed.longestHits⟩
  intro g h hcached
  obtain ⟨b, hb⟩ := (isCached_iff hcons'.sharing.valid.toCacheValid).mp hcached
  exact horder.rooted b _ hb

/-! ### A parent that is missing -/

section Example

/-- A request whose tokens are all one. -/
def ones (requestId : String) (numTokens numComputedTokens : ℕ) : Request where
  requestId := requestId
  allTokenIds := List.replicate numTokens 1
  numComputedTokens := numComputedTokens

/-- The second request finds its first block in the cache, but its local layer takes the null block
for it, and continues from the hash of the null block. -/
def missingParentCalls : List Call :=
  nullCachingCalls ++
  [.finish "a",
    .allocateComputed (ones "b" 5 0) 5 0 false,
    .preempt "b",
    .allocateComputed (ones "b" 5 0) 1 0 false,
    .allocateSlots (ones "b" 6 5) 3 0 false,
    .allocateSlots (ones "b" 9 8) 1 0 false]

/-- The hash of a block of zeros, and the hash of a block of ones below it. -/
def zerosOnesChain : List BlockHash :=
  let first := hashBlockTokens encodedHash none [0, 0, 0, 0] none
  [first, hashBlockTokens encodedHash (some first.hashValue) [1, 1, 1, 1] none]

theorem hashChain_zerosOnesChain : HashChain encodedHash zerosOnesChain := by
  intro i h hi
  match i with
  | 0 =>
    cases hi
    exact extends_hashBlockTokens _ _ _ _
  | 1 =>
    cases hi
    exact extends_hashBlockTokens _ _ _ _
  | i + 2 => cases hi

/-- After the run the second hash of a chain is cached for full attention, but the first one is
not. -/
theorem cached_without_parent : encodedHash.CollisionFree ∧
    ∃ s s', new (localAndFull 6) 100 true false false = .ok s ∧
      Transition.Execution (Step encodedHash) s missingParentCalls s' ∧
      s'.IsFull 1 ∧ ¬ s'.PrefixClosed encodedHash := by
  have hfinal : (finalState (localAndFull 6) missingParentCalls).map (fun s =>
      ((s.spec 1).isFullAttention, zerosOnesChain.map fun h =>
        s.blockPool.cachedBlockHashToBlock ⟨h, 1⟩)) = some (true, [[], [1]]) := by
    decide +kernel
  obtain ⟨s', hs', hvalues⟩ := map_eq_some_iff.mp hfinal
  obtain ⟨hfull, hfirst, hsecond⟩ : (s'.spec 1).isFullAttention = true ∧
      s'.blockPool.cachedBlockHashToBlock ⟨_, 1⟩ = [] ∧
      s'.blockPool.cachedBlockHashToBlock ⟨_, 1⟩ = [1] := by
    simpa [zerosOnesChain] using hvalues
  obtain ⟨s, hnew, hrun⟩ := finalState_eq_some hs'
  refine ⟨encodedHash_collisionFree, s, s', hnew, hrun, hfull, ?_⟩
  intro hclosed
  obtain ⟨h', hh', hcached⟩ := hclosed 1 hfull zerosOnesChain 0 _ hashChain_zerosOnesChain rfl
    (by rw [IsCached, hsecond]; exact cons_ne_nil _ _)
  cases hh'
  exact hcached hfirst

/-- Prefixes are closed when a request has hit three blocks of another one. -/
theorem prefixClosed_hit_after_finish :
    ∃ s s', new (localAndFull 12) 100 true false false = .ok s ∧
      Transition.Execution (NullFreeStep encodedHash) s hitAfterFinishCalls s' ∧
      s'.tables (1, "b") = [4, 5, 6, 8] ∧
      s'.PrefixClosed encodedHash ∧ s'.LongestHits encodedHash := by
  obtain ⟨s, s', hnew, hrun, htable⟩ := run_hit_after_finish
  exact ⟨s, s', hnew, hrun, htable, (prefixClosed_of_run encodedHash_collisionFree hnew hrun).2⟩

end Example

end Kv
