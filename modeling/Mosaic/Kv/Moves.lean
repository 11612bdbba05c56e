import Mosaic.Kv.Sharing
import Mathlib.Logic.Relation

/-!
# Moves of the cache manager

A call of the scheduler is a sequence of moves: blocks are skipped or released, hits are taken,
new blocks are allocated, full blocks are cached, and hashes are computed or dropped. Every
invariant is proved of the moves.
-/

namespace Kv

open List Fallible Function

/-! ### Skipped blocks -/

variable {blocks blocks' removed : List ℕ} {nullBlock n : ℕ}

section

variable (hok : SingleTypeManager.removeLoop nullBlock n blocks = .ok (blocks', removed))
include hok

/-- The blocks from some index `k` to `n` are replaced, and none of them was the null block. -/
theorem removeLoop_eq_ok : ∃ k, k ≤ n ∧ n ≤ blocks.length ∧
      blocks' = blocks.take k ++ List.replicate (n - k) nullBlock ++ blocks.drop n ∧
      removed = ((blocks.take n).drop k).reverse ∧ nullBlock ∉ removed ∧
      (k = 0 ∨ blocks[k - 1]? = some nullBlock) := by
  -- The loop goes down from the last skipped block and stops at the first null block.
  induction n generalizing blocks removed with
  | zero =>
    cases hok
    exact ⟨0, le_rfl, Nat.zero_le _, by simp, by simp, by simp, .inl rfl⟩
  | succ i ih =>
    rw [SingleTypeManager.removeLoop] at hok
    split at hok
    · cases hok
    · rename_i b hb
      have hlt := (List.getElem?_eq_some_iff.mp hb).1
      split at hok
      · rename_i hnull
        cases hok
        exact ⟨i + 1, le_rfl, hlt, by simp, by simp, by simp, .inr (hnull ▸ hb)⟩
      · rename_i hnull
        obtain ⟨⟨blocks₁, removed₁⟩, hloop, hok⟩ := bind_eq_ok.mp hok
        cases hok
        obtain ⟨k, hk, -, hblocks, hremoved, hnot, hstop⟩ := ih hloop
        have htake : ∀ j ≤ i, (blocks.set i nullBlock).take j = blocks.take j := by
          intro j hj
          rw [take_set_of_le hj]
        -- The block of this round is the last of the slice, and the first of those removed.
        have hslice : (blocks.take (i + 1)).drop k = (blocks.take i).drop k ++ [b] := by
          rw [take_add_one, hb, Option.toList_some, drop_append_of_le_length]
          rw [List.length_take]
          omega
        refine ⟨k, by omega, hlt, ?_, ?_, ?_, ?_⟩
        · have hdrop : (blocks.set i nullBlock).drop i = nullBlock :: blocks.drop (i + 1) := by
            rw [drop_eq_getElem_cons (by simpa using hlt), getElem_set_self,
              drop_set_of_lt (by omega)]
          rw [hblocks, htake k hk, hdrop, Nat.succ_sub hk, replicate_succ',
            append_assoc, append_assoc, append_assoc]
          rfl
        · rw [hslice, reverse_append, hremoved, htake i le_rfl]
          rfl
        · rw [mem_cons, not_or]
          exact ⟨Ne.symm hnull, hnot⟩
        · rcases hstop with hzero | hstop
          · exact .inl hzero
          · cases k with
            | zero => exact .inl rfl
            | succ k =>
              right
              rw [Nat.add_sub_cancel, getElem?_set_ne (by omega)] at hstop
              exact hstop

/-- What is left of a table stands where it stood. -/
theorem removeLoop_getElem? :
    (∀ (i b : ℕ), blocks'[i]? = some b → b ≠ nullBlock → blocks[i]? = some b) ∧
      (∀ i, n ≤ i → blocks'[i]? = blocks[i]?) ∧ blocks'.length = blocks.length := by
  obtain ⟨k, hk, hn, rfl, -, -, -⟩ := removeLoop_eq_ok hok
  have hlen : (blocks.take k ++ List.replicate (n - k) nullBlock).length = n := by
    rw [length_append, List.length_take, length_replicate]
    omega
  refine ⟨?_, ?_, ?_⟩
  · intro i b hb hnull
    rw [getElem?_append, hlen] at hb
    split at hb
    · rw [getElem?_append] at hb
      split at hb
      · rw [getElem?_take] at hb
        split at hb
        · exact hb
        · cases hb
      · exact absurd (eq_of_mem_replicate (mem_of_getElem? hb)) hnull
    · rw [getElem?_drop] at hb
      rw [← hb]
      congr 1
      omega
  · intro i hi
    rw [getElem?_append_right (by omega), hlen, getElem?_drop]
    congr 1
    omega
  · rw [length_append, hlen, length_drop]
    omega

/-- For blocks other than the null block, a table is what is left of it and what was removed. -/
theorem removeLoop_mem (hnodup : (blocks.filter (· ≠ nullBlock)).Nodup) :
    (removed.filter (· ≠ nullBlock)).Nodup ∧ (∀ b ∈ removed, b ∈ blocks) ∧
      ∀ b, b ≠ nullBlock → (b ∈ blocks' ↔ b ∈ blocks ∧ b ∉ removed) := by
  obtain ⟨k, hk, -, rfl, rfl, -, -⟩ := removeLoop_eq_ok hok
  have hsplit : blocks = blocks.take k ++ (blocks.take n).drop k ++ blocks.drop n := by
    have htake : blocks.take k ++ (blocks.take n).drop k = blocks.take n := by
      have := take_append_drop k (blocks.take n)
      rwa [take_take, min_eq_left hk] at this
    rw [htake, take_append_drop]
  have hslice : ((blocks.take n).drop k).Sublist blocks :=
    (drop_sublist _ _).trans (take_sublist _ _)
  refine ⟨?_, ?_, ?_⟩
  · rw [filter_reverse, nodup_reverse]
    exact hnodup.sublist (hslice.filter _)
  · intro b hb
    exact hslice.subset (mem_reverse.mp hb)
  · intro b hnull
    rw [mem_append, mem_append, mem_reverse]
    constructor
    · intro hb
      have hb : b ∈ blocks.take k ∨ b ∈ blocks.drop n := by
        rcases hb with (hb | hb) | hb
        · exact .inl hb
        · exact absurd (eq_of_mem_replicate hb) hnull
        · exact .inr hb
      refine ⟨?_, ?_⟩
      · rcases hb with hb | hb
        · exact mem_of_mem_take hb
        · exact mem_of_mem_drop hb
      · -- a block does not stand both inside and outside of the slice
        intro hmid
        rw [hsplit, filter_append, filter_append, nodup_append, nodup_append] at hnodup
        obtain ⟨⟨-, -, hleft⟩, -, hright⟩ := hnodup
        have hfilter : ∀ {l : List ℕ}, b ∈ l → b ∈ l.filter (· ≠ nullBlock) :=
          fun hl => mem_filter.mpr ⟨hl, by simpa using hnull⟩
        rcases hb with hb | hb
        · exact hleft b (hfilter hb) b (hfilter hmid) rfl
        · exact hright b (mem_append_right _ (hfilter hmid)) b (hfilter hb) rfl
    · rintro ⟨hb, hmid⟩
      rw [hsplit, mem_append, mem_append] at hb
      rcases hb with (hb | hb) | hb
      · exact .inl (.inl hb)
      · exact absurd hb hmid
      · exact .inr hb

/-! ### Moves -/

end

namespace KVCacheManager

/-- The tables of all groups. -/
def tables (s : KVCacheManager) : RequestTables := fun x => (s.managers x.1).reqToBlocks x.2

theorem managers_setGroup_of_ne {s : KVCacheManager} {g g' : ℕ} {m : SingleTypeManager}
    {p : BlockPool} (hg : g' ≠ g) : (s.setGroup g m p).managers g' = s.managers g' :=
  update_of_ne hg _ _

section

variable (s : KVCacheManager)
include s

@[simp] theorem managers_setGroup_self (g : ℕ) (m : SingleTypeManager) (p : BlockPool) :
    (s.setGroup g m p).managers g = m := by
  simp [setGroup]

theorem tables_setGroup (g : ℕ) (m : SingleTypeManager) (p : BlockPool) (x : ℕ × String) :
    (s.setGroup g m p).tables x =
      if x.1 = g then m.reqToBlocks x.2 else s.tables x := by
  by_cases hg : x.1 = g
  · simp [tables, setGroup, hg]
  · simp [tables, setGroup, hg]

@[simp] theorem tables_setBlocks (g : ℕ) (r : String) (blocks : List ℕ) (p : BlockPool) :
    (s.setGroup g ((s.managers g).setBlocks r blocks) p).tables =
      update s.tables (g, r) blocks := by
  funext ⟨g', r'⟩
  rw [tables_setGroup]
  by_cases hg : g' = g
  · subst hg
    by_cases hr : r' = r
    · simp [hr]
    · simp [hr, tables]
  · simp [hg]

@[simp] theorem tables_setNumCached (g : ℕ) (m : SingleTypeManager) (r : String)
    (numCached : Option ℕ) (p : BlockPool) :
    (s.setGroup g (m.setNumCached r numCached) p).tables = (s.setGroup g m p).tables := by
  funext x
  rw [tables_setGroup, tables_setGroup]
  rfl

@[simp] theorem tables_setGroup_self (g : ℕ) (p : BlockPool) :
    (s.setGroup g (s.managers g) p).tables = s.tables := by
  funext x
  rw [tables_setGroup]
  split
  · rename_i hg
    rw [tables, hg]
  · rfl

@[simp] theorem numCachedBlock_setBlocks (g g' : ℕ) (r : String) (blocks : List ℕ) (p : BlockPool) :
    ((s.setGroup g ((s.managers g).setBlocks r blocks) p).managers g').numCachedBlock =
      (s.managers g').numCachedBlock := by
  by_cases hg : g' = g
  · simp [hg]
  · rw [managers_setGroup_of_ne hg]

theorem numCachedBlock_setNumCached (g g' : ℕ) (m : SingleTypeManager) (r r' : String)
    (numCached : Option ℕ) (p : BlockPool) :
    ((s.setGroup g (m.setNumCached r numCached) p).managers g').numCachedBlock r' =
      if (g', r') = (g, r) then numCached
      else ((s.setGroup g m p).managers g').numCachedBlock r' := by
  by_cases hg : g' = g
  · subst hg
    by_cases hr : r' = r
    · simp [hr]
    · simp [hr]
  · simp [managers_setGroup_of_ne hg, hg]

end

theorem spec_setGroup {s : KVCacheManager} {g : ℕ} {m : SingleTypeManager} {p : BlockPool}
    (hm : m.kvCacheSpec = (s.managers g).kvCacheSpec) : (s.setGroup g m p).spec = s.spec := by
  funext g'
  by_cases hg : g' = g
  · subst hg
    simp [spec, setGroup, hm]
  · simp [spec, setGroup, hg]

end KVCacheManager

/-- The released blocks that no table holds any more. -/
def releasedBlocks (p : BlockPool) (blocks : List ℕ) : List ℕ :=
  blocks.filter fun b => b ≠ p.nullBlock ∧ p.refCnt b = 1

/-- What can happen at once to the manager and to the list of its free blocks. If the scheduler is
careful, then the full blocks of a request are among its blocks, and do not become fewer. -/
inductive Move (env : HashEnv) (careful : Prop) :
    KVCacheManager × List ℕ → KVCacheManager × List ℕ → Prop where
  /-- A request drops blocks that are no longer attended to. -/
  | skip {s : KVCacheManager} {free : List ℕ} {g n : ℕ} {r : String} {blocks removed : List ℕ}
      {p : BlockPool} (hg : g < s.numKvCacheGroups)
      (hfull : (s.spec g).isFullAttention = true → n = 0)
      (hloop : SingleTypeManager.removeLoop s.blockPool.nullBlock n (s.tables (g, r)) =
        .ok (blocks, removed))
      (hok : s.blockPool.freeBlocks removed = .ok p) :
      Move env careful (s, free) (s.setGroup g ((s.managers g).setBlocks r blocks) p,
        free ++ releasedBlocks s.blockPool removed)
  /-- A request drops its blocks in one group. -/
  | release {s : KVCacheManager} {free : List ℕ} {g : ℕ} {r : String} {p : BlockPool}
      (hg : g < s.numKvCacheGroups)
      (hok : s.blockPool.freeBlocks (s.tables (g, r)).reverse = .ok p) :
      Move env careful (s, free)
        (s.setGroup g (((s.managers g).setBlocks r []).setNumCached r none) p,
        free ++ releasedBlocks s.blockPool (s.tables (g, r)).reverse)
  /-- A request takes blocks that it has found in the cache. -/
  | take {s s' : KVCacheManager} {free : List ℕ} {r : String} {hits : List (List ℕ)}
      {p : BlockPool}
      (hhits : Hits s.blockPool s.spec (s.reqToBlockHashes r) s.numKvCacheGroups hits)
      (hok : s.blockPool.touch hits = .ok p)
      (hsave : KVCacheManager.saveNewComputedBlocks { s with blockPool := p } r hits = .ok s') :
      Move env careful (s, free) (s', free.diff hits.flatten)
  /-- A request gets new blocks in one group. -/
  | allocate {s : KVCacheManager} {free : List ℕ} {g n : ℕ} {r : String} {newBlocks : List ℕ}
      {p : BlockPool} (hg : g < s.numKvCacheGroups)
      (hok : s.blockPool.getNewBlocks n = .ok (newBlocks, p)) :
      Move env careful (s, free)
        (s.setGroup g ((s.managers g).setBlocks r (s.tables (g, r) ++ newBlocks)) p, free.drop n)
  /-- Full blocks of a request are cached in one group. -/
  | cache {s : KVCacheManager} {free : List ℕ} {g numCached numFull blockSize : ℕ} {r : Request}
      {p : BlockPool} {hashes : List BlockHash} (hg : g < s.numKvCacheGroups)
      (hcache : s.enableCaching = true)
      (hnum : (s.managers g).numCachedBlock r.requestId = some numCached)
      (hcareful : careful →
        numCached ≤ numFull ∧ numFull ≤ (s.tables (g, r.requestId)).length)
      (hnull : s.blockPool.nullBlock ∉
        BlockPool.newFullBlocks (s.tables (g, r.requestId)) numCached numFull)
      (hok : s.blockPool.cacheFullBlocks env r (s.tables (g, r.requestId))
        (s.reqToBlockHashes r.requestId) numCached numFull blockSize g = .ok (p, hashes)) :
      Move env careful (s, free)
        ({ s.setGroup g ((s.managers g).setNumCached r.requestId (some numFull)) p with
          reqToBlockHashes := update s.reqToBlockHashes r.requestId hashes }, free)
  /-- The hashes of a request are computed or dropped. -/
  | hash {s : KVCacheManager} {free : List ℕ} {r : String} {hashes : List BlockHash}
      (hempty : s.reqToBlockHashes r = [] ∨ ∀ g, s.tables (g, r) = [])
      (hchain : HashChain env hashes) :
      Move env careful (s, free)
        ({ s with reqToBlockHashes := update s.reqToBlockHashes r hashes }, free)
  | reset {s : KVCacheManager} {free : List ℕ} :
      Move env careful (s, free) (s.resetPrefixCache.2, free)

/-! ### Hits are saved -/

section Save

variable {r : String} {hits : List (List ℕ)}

theorem SingleTypeManager.saveNewComputedBlocks_eq_ok {m m' : SingleTypeManager} {blocks : List ℕ}
    (hok : m.saveNewComputedBlocks r blocks = .ok m') :
    m'.kvCacheSpec = m.kvCacheSpec ∧ (m.reqToBlocks r = [] ∨ blocks = []) ∧
      m'.reqToBlocks = update m.reqToBlocks r (m.reqToBlocks r ++ blocks) ∧
      ((m.numCachedBlock r = none ∧ m.reqToBlocks r = [] ∧
          m' = (m.setBlocks r blocks).setNumCached r (some blocks.length)) ∨
        (m.numCachedBlock r ≠ none ∧ blocks = [] ∧ m' = m)) := by
  unfold saveNewComputedBlocks at hok
  split at hok
  · rename_i hnone
    split at hok
    · cases hok
    · rename_i hempty
      cases hok
      have hempty : m.reqToBlocks r = [] := not_not.mp hempty
      exact ⟨rfl, .inl hempty, by rw [hempty]; rfl, .inl ⟨hnone, hempty, rfl⟩⟩
  · rename_i numCached hsome
    split at hok
    · cases hok
    · rename_i hempty
      cases hok
      have hempty : blocks = [] := not_not.mp hempty
      refine ⟨rfl, .inr hempty, ?_, .inr ⟨by simp [hsome], hempty, rfl⟩⟩
      rw [hempty, append_nil, update_eq_self]

section

variable {s s' : KVCacheManager} (hok : s.saveNewComputedBlocks r hits = .ok s')
include hok

theorem saveNewComputedBlocks_eq_ok : ∃ managers, s' = { s with managers := managers } ∧
      (∀ g, s.numKvCacheGroups ≤ g → managers g = s.managers g) ∧
      ∀ g < s.numKvCacheGroups,
        (s.managers g).saveNewComputedBlocks r (hits.getD g []) = .ok (managers g) := by
  have hloop := foldlM_range (P := fun k s' => ∃ managers,
    s' = { s with managers := managers } ∧ (∀ g, k ≤ g → managers g = s.managers g) ∧
      ∀ g < k, (s.managers g).saveNewComputedBlocks r (hits.getD g []) = .ok (managers g)) hok
    ⟨s.managers, rfl, fun _ _ => rfl, nofun⟩ ?_
  · exact hloop
  · rintro k - _ _ ⟨managers, rfl, hlater, hdone⟩ hstep
    obtain ⟨m, hm, hstep⟩ := bind_eq_ok.mp hstep
    cases hstep
    refine ⟨update managers k m, rfl, ?_, ?_⟩
    · intro g hg
      rw [update_of_ne (by omega)]
      exact hlater g (by omega)
    · intro g hg
      by_cases hgk : g = k
      · subst hgk
        rw [update_self, ← hlater g le_rfl]
        exact hm
      · rw [update_of_ne hgk]
        exact hdone g (by omega)

/-- The tables of the request take the hits. -/
theorem tables_saveNewComputedBlocks :
    s'.tables = Sharing.takeHits s.tables r s.numKvCacheGroups hits ∧ s'.spec = s.spec ∧
      ∀ g < s.numKvCacheGroups, s.tables (g, r) = [] ∨ hits.getD g [] = [] := by
  obtain ⟨_, rfl, houtside, hinside⟩ := saveNewComputedBlocks_eq_ok hok
  refine ⟨?_, ?_, ?_⟩
  · funext ⟨g, r'⟩
    by_cases hg : g < s.numKvCacheGroups
    · obtain ⟨-, -, hblocks, -⟩ := SingleTypeManager.saveNewComputedBlocks_eq_ok (hinside g hg)
      by_cases hr : r' = r
      · subst hr
        rw [Sharing.takeHits_self hg]
        simp [KVCacheManager.tables, hblocks]
      · rw [Sharing.takeHits_of_ne (by simp [hr])]
        simp [KVCacheManager.tables, hblocks, hr]
    · rw [Sharing.takeHits_of_ne (by simp [hg])]
      simp [KVCacheManager.tables, houtside g (not_lt.mp hg)]
  · funext g
    by_cases hg : g < s.numKvCacheGroups
    · exact (SingleTypeManager.saveNewComputedBlocks_eq_ok (hinside g hg)).1
    · simp [KVCacheManager.spec, houtside g (not_lt.mp hg)]
  · intro g hg
    exact (SingleTypeManager.saveNewComputedBlocks_eq_ok (hinside g hg)).2.1

end

end Save

/-! ### Consistency -/

/-- The blocks of the manager are shared as its counts say, its pool caches if it does, and its
coordinator fits its groups. -/
structure Consistent (env : HashEnv) (s : KVCacheManager) (free : List ℕ) : Prop where
  sharing : Sharing env s.blockPool s.tables s.reqToBlockHashes free
  caching : s.blockPool.enableCaching = s.enableCaching
  outside : ∀ g r, s.numKvCacheGroups ≤ g → s.tables (g, r) = []
  wellFormed : s.coordinator.WellFormed s.spec s.numKvCacheGroups

theorem Consistent.outside_update {env : HashEnv} {s : KVCacheManager} {free : List ℕ}
    (h : Consistent env s free) {g : ℕ} (hg : g < s.numKvCacheGroups) (r : String)
    (blocks : List ℕ) (g' : ℕ) (r' : String) (hg' : s.numKvCacheGroups ≤ g') :
    update s.tables (g, r) blocks (g', r') = [] := by
  have hne : (g', r') ≠ (g, r) := by
    intro heq
    have := (Prod.mk.inj heq).1
    omega
  rw [update_of_ne hne]
  exact h.outside g' r' hg'

section

variable {env : HashEnv} {careful : Prop} {x y : KVCacheManager × List ℕ}

/-- The shape of a manager does not change. -/
structure SameShape (s s' : KVCacheManager) : Prop where
  maxModelLen : s'.maxModelLen = s.maxModelLen
  enableCaching : s'.enableCaching = s.enableCaching
  useEagle : s'.useEagle = s.useEagle
  blockSize : s'.blockSize = s.blockSize
  coordinator : s'.coordinator = s.coordinator
  numKvCacheGroups : s'.numKvCacheGroups = s.numKvCacheGroups
  spec : s'.spec = s.spec

theorem SameShape.refl (s : KVCacheManager) : SameShape s s := ⟨rfl, rfl, rfl, rfl, rfl, rfl, rfl⟩

theorem SameShape.trans {s s' s'' : KVCacheManager} (h : SameShape s s') (h' : SameShape s' s'') :
    SameShape s s'' :=
  ⟨h'.1.trans h.1, h'.2.trans h.2, h'.3.trans h.3, h'.4.trans h.4, h'.5.trans h.5, h'.6.trans h.6,
    h'.7.trans h.7⟩

theorem SameShape.wellFormed {s s' : KVCacheManager} (h : SameShape s s')
    (hwf : s.coordinator.WellFormed s.spec s.numKvCacheGroups) :
    s'.coordinator.WellFormed s'.spec s'.numKvCacheGroups := by
  rw [h.coordinator, h.spec, h.numKvCacheGroups]
  exact hwf

theorem Move.sameShape (hmove : Move env careful x y) : SameShape x.1 y.1 := by
  cases hmove with
  | skip | release | allocate =>
    exact ⟨rfl, rfl, rfl, rfl, rfl, rfl, KVCacheManager.spec_setGroup rfl⟩
  | @cache s free g _ _ _ r p =>
    exact ⟨rfl, rfl, rfl, rfl, rfl, rfl, KVCacheManager.spec_setGroup (p := p) rfl⟩
  | take hhits hok hsave =>
    obtain ⟨-, hspec, -⟩ := tables_saveNewComputedBlocks hsave
    obtain ⟨_, rfl, -, -⟩ := saveNewComputedBlocks_eq_ok hsave
    exact ⟨rfl, rfl, rfl, rfl, rfl, rfl, hspec⟩
  | hash | reset => exact ⟨rfl, rfl, rfl, rfl, rfl, rfl, rfl⟩

/-- Moves preserve consistency and the null block. -/
theorem Move.consistent (hfree : env.CollisionFree) (hmove : Move env careful x y)
    (h : Consistent env x.1 x.2) :
    Consistent env y.1 y.2 ∧ BlockPool.Same x.1.blockPool y.1.blockPool := by
  have hwf := hmove.sameShape.wellFormed h.wellFormed
  cases hmove with
  | @skip s free g n r blocks removed p hg _ hloop hok =>
    -- The loop replaces blocks by the null block, so those that it removes are given back.
    obtain ⟨hnodup, hsub, hmem⟩ := removeLoop_mem hloop (h.sharing.nodup (g, r))
    obtain ⟨hsharing, -, hsame⟩ := h.sharing.release hnodup (fun b hb _ => hsub b hb) hmem
      (removeLoop_getElem? hloop).1 hok
    refine ⟨⟨?_, hsame.enableCaching.trans h.caching, ?_, hwf⟩, hsame⟩
    · rw [KVCacheManager.tables_setBlocks]
      exact hsharing
    · rw [KVCacheManager.tables_setBlocks]
      exact h.outside_update hg r blocks
  | @release s free g r p hg hok =>
    -- The table goes back as a whole, the last block first, and the null block is not counted.
    have hnodup : ((s.tables (g, r)).reverse.filter (· ≠ s.blockPool.nullBlock)).Nodup := by
      rw [filter_reverse, nodup_reverse]
      exact h.sharing.nodup (g, r)
    have hgone : ∀ b, b ≠ s.blockPool.nullBlock →
        (b ∈ ([] : List ℕ) ↔ b ∈ s.tables (g, r) ∧ b ∉ (s.tables (g, r)).reverse) := by
      simp
    obtain ⟨hsharing, -, hsame⟩ := h.sharing.release hnodup
      (fun b hb _ => mem_reverse.mp hb) hgone nofun hok
    refine ⟨⟨?_, hsame.enableCaching.trans h.caching, ?_, hwf⟩, hsame⟩
    · rw [KVCacheManager.tables_setNumCached, KVCacheManager.tables_setBlocks]
      exact hsharing
    · rw [KVCacheManager.tables_setNumCached, KVCacheManager.tables_setBlocks]
      exact h.outside_update hg r []
  | @take s s' free r hits p hhits hok hsave =>
    -- The table was empty or the group has no hits, so no hit is listed twice.
    obtain ⟨htables, -, hfresh⟩ := tables_saveNewComputedBlocks hsave
    obtain ⟨_, rfl, -, -⟩ := saveNewComputedBlocks_eq_ok hsave
    obtain ⟨hsharing, -, -, hsame⟩ := h.sharing.take hfree hhits hfresh hok
    refine ⟨⟨?_, hsame.enableCaching.trans h.caching, ?_, hwf⟩, hsame⟩
    · rw [htables]
      exact hsharing
    · intro g r' hg
      rw [htables, Sharing.takeHits_of_ne fun hx => absurd hx.1 (not_lt.mpr hg)]
      exact h.outside g r' hg
  | @allocate s free g n r newBlocks p hg hok =>
    obtain ⟨hsharing, -, -, -, hsame⟩ := h.sharing.allocate (g, r) hok
    refine ⟨⟨?_, hsame.enableCaching.trans h.caching, ?_, hwf⟩, hsame⟩
    · rw [KVCacheManager.tables_setBlocks]
      exact hsharing
    · rw [KVCacheManager.tables_setBlocks]
      exact h.outside_update hg r _
  | @cache s free g numCached numFull blockSize r p hashes hg hcache _ _ hnull hok =>
    obtain ⟨hsharing, hsame, -⟩ :=
      h.sharing.cache (h.caching.trans hcache) hnull hok
    refine ⟨⟨?_, hsame.enableCaching.trans h.caching, ?_, hwf⟩, hsame⟩
    · change Sharing env p (KVCacheManager.setGroup _ _ _ p).tables _ _
      rw [KVCacheManager.tables_setNumCached, KVCacheManager.tables_setGroup_self]
      exact hsharing
    · change ∀ g' r', _ → (KVCacheManager.setGroup s _ _ p).tables (g', r') = []
      rw [KVCacheManager.tables_setNumCached, KVCacheManager.tables_setGroup_self]
      exact h.outside
  | @hash s free r hashes hempty hchain =>
    exact ⟨⟨h.sharing.setHashes hempty hchain, h.caching, h.outside, hwf⟩, BlockPool.Same.refl _⟩
  | @reset s free =>
    obtain ⟨hsharing, hsame⟩ := h.sharing.reset
    exact ⟨⟨hsharing, hsame.enableCaching.trans h.caching, h.outside, hwf⟩, hsame⟩

/-- A sequence of moves. -/
abbrev Moves (env : HashEnv) (careful : Prop) := Relation.ReflTransGen (Move env careful)

theorem Moves.sameShape (hmoves : Moves env careful x y) : SameShape x.1 y.1 := by
  induction hmoves with
  | refl => exact SameShape.refl _
  | tail _ hmove ih => exact ih.trans hmove.sameShape

theorem Moves.consistent (hfree : env.CollisionFree) (hmoves : Moves env careful x y)
    (h : Consistent env x.1 x.2) :
    Consistent env y.1 y.2 ∧ BlockPool.Same x.1.blockPool y.1.blockPool := by
  induction hmoves with
  | refl => exact ⟨h, BlockPool.Same.refl _⟩
  | tail _ hmove ih =>
    obtain ⟨hcons, hsame⟩ := ih
    obtain ⟨hcons', hsame'⟩ := hmove.consistent hfree hcons
    exact ⟨hcons', hsame.trans hsame'⟩

end

end Kv
