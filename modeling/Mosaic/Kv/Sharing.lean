import Mosaic.Kv.Hits
import Mosaic.Memory.Holders

/-!
# Sharing of blocks

The tables of the requests share the blocks of the pool. The count of a block is the number of
tables that hold it, a block without a hash is in one table at most, and a block with a hash stands
at the position of its hash in every table that holds it. This file says what each change of pool
and tables does to these facts.
-/

namespace Kv

open List Function

open Tables (numHolders FinitelyMany nodup_filter_of_getElem? getElem?_inj_of_nodup_filter)

/-- The tables of the requests, one for each group. -/
abbrev RequestTables := ℕ × String → List ℕ

/-- Pool, tables and the hashes of the requests agree. -/
structure Sharing (env : HashEnv) (p : BlockPool) (t : RequestTables)
    (hs : String → List BlockHash) (free : List ℕ) : Prop where
  valid : p.Valid free
  finite : FinitelyMany t
  bound : ∀ x, ∀ b ∈ t x, b < p.numGpuBlocks
  nodup : ∀ x, ((t x).filter (· ≠ p.nullBlock)).Nodup
  count : ∀ b, b ≠ p.nullBlock → p.refCnt b = numHolders t b
  null : p.blockHash p.nullBlock = none
  exclusive : ∀ b, b ≠ p.nullBlock → p.blockHash b = none → p.refCnt b ≤ 1
  named : ∀ (g : ℕ) (r : String) (i b : ℕ) (key : BlockHashWithGroupId),
    (t (g, r))[i]? = some b → p.blockHash b = some key →
      key.groupId = g ∧ (hs r)[i]? = some key.blockHash
  chain : ∀ r, HashChain env (hs r)

/-- The cached blocks of a table have the hashes of a request. -/
def BlockPool.Named (p : BlockPool) (blocks : List ℕ) (hashes : List BlockHash) : Prop :=
  ∀ (i b : ℕ) (key : BlockHashWithGroupId), blocks[i]? = some b → p.blockHash b = some key →
    hashes[i]? = some key.blockHash

/-- The block before the new full blocks has the hash of a request, if it is cached. -/
def BlockPool.ParentNamed (p : BlockPool) (blocks : List ℕ) (hashes : List BlockHash)
    (numCached : ℕ) : Prop :=
  0 < numCached → ∀ (b : ℕ) (key : BlockHashWithGroupId), blocks[numCached - 1]? = some b →
    p.blockHash b = some key → hashes[numCached - 1]? = some key.blockHash

theorem BlockPool.Named.parentNamed {p : BlockPool} {blocks : List ℕ} {hashes : List BlockHash}
    (h : p.Named blocks hashes) (numCached : ℕ) : p.ParentNamed blocks hashes numCached :=
  fun _ => h (numCached - 1)

/-- The hash before the new full blocks is the one that stands there. -/
theorem BlockPool.ParentNamed.parent_eq_prevValue {p : BlockPool} {blocks : List ℕ}
    {hashes : List BlockHash} {numCached : ℕ} {parent : Option ℤ}
    (h : p.ParentNamed blocks hashes numCached)
    (hparent : p.prevBlockHashValue blocks numCached = .ok parent) :
    parent = prevValue hashes numCached := by
  unfold BlockPool.prevBlockHashValue at hparent
  split at hparent
  · rename_i hzero
    cases hparent
    rw [hzero]
    rfl
  · rename_i hpos
    split at hparent
    · cases hparent
    · rename_i b hb
      split at hparent
      · cases hparent
      · rename_i key hkey
        cases hparent
        rw [prevValue, if_neg hpos, h (Nat.pos_of_ne_zero hpos) b key hb hkey]
        rfl

namespace Sharing

variable {env : HashEnv} {p p' : BlockPool} {t : RequestTables} {hs : String → List BlockHash}
  {free : List ℕ}

theorem ne_null (h : Sharing env p t hs free) {b : ℕ} {key : BlockHashWithGroupId}
    (hb : p.blockHash b = some key) : b ≠ p.nullBlock := by
  rintro rfl
  rw [h.null] at hb
  cases hb

theorem blockPool_named (h : Sharing env p t hs free) (g : ℕ) (r : String) :
    p.Named (t (g, r)) (hs r) := fun i b key hi hkey =>
  (h.named g r i b key hi hkey).2

variable {x : ℕ × String}

section

variable (h : Sharing env p t hs free)
include h

/-- A block of a table has references. -/
theorem refCnt_pos {b : ℕ} (hb : b ∈ t x) (hnull : b ≠ p.nullBlock) : 1 ≤ p.refCnt b := by
  rw [h.count b hnull]
  exact_mod_cast Tables.numHolders_pos h.finite hb

/-- A free block is in no table. -/
theorem notMem_of_free {b : ℕ} (hb : b ∈ free) (x : ℕ × String) : b ∉ t x := by
  intro hmem
  obtain ⟨-, hnull, hzero⟩ := (h.valid.mem_free b).mp hb
  have := h.refCnt_pos hmem hnull
  omega

theorem position_inj {i j b : ℕ} (hi : (t x)[i]? = some b) (hj : (t x)[j]? = some b)
    (hnull : b ≠ p.nullBlock) : i = j :=
  getElem?_inj_of_nodup_filter (h.nodup x) hi hj hnull

/-- A block without a hash is in one table only, and stands there once. -/
theorem unique_of_blockHash_eq_none {x y : ℕ × String} {i j b : ℕ} (hnone : p.blockHash b = none)
    (hnull : b ≠ p.nullBlock) (hi : (t x)[i]? = some b) (hj : (t y)[j]? = some b) :
    x = y ∧ i = j := by
  have hone : numHolders t b ≤ 1 := by
    have := h.exclusive b hnull hnone
    rw [h.count b hnull] at this
    exact_mod_cast this
  obtain rfl := Tables.eq_of_numHolders_le_one h.finite hone (mem_of_getElem? hi)
    (mem_of_getElem? hj)
  exact ⟨rfl, h.position_inj hi hj hnull⟩

end

/-- A table releases blocks and keeps the others at their positions. -/
theorem release (h : Sharing env p t hs free) {x : ℕ × String} {blocks removed : List ℕ}
    (hnodup : (removed.filter (· ≠ p.nullBlock)).Nodup)
    (hremoved : ∀ b ∈ removed, b ≠ p.nullBlock → b ∈ t x)
    (hmem : ∀ b, b ≠ p.nullBlock → (b ∈ blocks ↔ b ∈ t x ∧ b ∉ removed))
    (hkeep : ∀ (i b : ℕ), blocks[i]? = some b → b ≠ p.nullBlock → (t x)[i]? = some b)
    (hok : p.freeBlocks removed = .ok p') :
    Sharing env p' (update t x blocks) hs
        (free ++ removed.filter fun b => b ≠ p.nullBlock ∧ p.refCnt b = 1) ∧
      p'.blockHash = p.blockHash ∧ BlockPool.Same p p' := by
  obtain ⟨_, hq, hvalid, hcnt, hhash, hsame⟩ := h.valid.freeBlocks hnodup fun b hb hnull =>
    ⟨h.bound x b (hremoved b hb hnull), h.refCnt_pos (hremoved b hb hnull) hnull⟩
  cases hq.symm.trans hok
  refine ⟨⟨hvalid, h.finite.update x blocks, ?_, ?_, ?_, ?_, ?_, ?_, h.chain⟩, hhash, hsame⟩
  · intro y b hb
    rw [hsame.numGpuBlocks]
    by_cases hy : y = x
    · rw [hy, update_self] at hb
      by_cases hnull : b = p.nullBlock
      · exact hnull ▸ h.valid.null_lt
      · exact h.bound x b ((hmem b hnull).mp hb).1
    · rw [update_of_ne hy] at hb
      exact h.bound y b hb
  · intro y
    rw [hsame.nullBlock]
    by_cases hy : y = x
    · rw [hy, update_self]
      refine nodup_filter_of_getElem? fun i j b hi hj hnull => ?_
      exact h.position_inj (hkeep i b hi hnull) (hkeep j b hj hnull) hnull
    · rw [update_of_ne hy]
      exact h.nodup y
  · intro b hnull
    rw [hsame.nullBlock] at hnull
    rw [hcnt, h.count b hnull, Tables.numHolders_update h.finite]
    have hiff := hmem b hnull
    by_cases hb : b ∈ removed
    · have hcount : removed.count b = 1 := by
        rw [← count_filter (p := fun b => decide (b ≠ p.nullBlock)) (by simpa using hnull)]
        exact count_eq_one_of_mem hnodup (mem_filter.mpr ⟨hb, by simpa using hnull⟩)
      have hnot : b ∉ blocks := fun hmem' => (hiff.mp hmem').2 hb
      simp [hcount, hremoved b hb hnull, hnot]
    · rw [count_eq_zero_of_not_mem hb]
      by_cases hold : b ∈ t x
      · simp [hold, hiff.mpr ⟨hold, hb⟩]
      · have hnot : b ∉ blocks := fun hmem' => hold (hiff.mp hmem').1
        simp [hold, hnot]
  · rw [hsame.nullBlock, hhash]
    exact h.null
  · intro b hnull hnone
    rw [hsame.nullBlock] at hnull
    rw [hhash] at hnone
    rw [hcnt]
    have := h.exclusive b hnull hnone
    omega
  · intro g r i b key hb hkey
    rw [hhash] at hkey
    by_cases hx : (g, r) = x
    · rw [hx, update_self] at hb
      exact h.named g r i b key (hx ▸ hkeep i b hb (h.ne_null hkey)) hkey
    · rw [update_of_ne hx] at hb
      exact h.named g r i b key hb hkey

/-- A table gets new blocks. -/
theorem allocate (h : Sharing env p t hs free) (x : ℕ × String) {n : ℕ} {newBlocks : List ℕ}
    (hok : p.getNewBlocks n = .ok (newBlocks, p')) :
    Sharing env p' (update t x (t x ++ newBlocks)) hs (free.drop n) ∧
      newBlocks = free.take n ∧
      (∀ b, p'.blockHash b = if b ∈ newBlocks then none else p.blockHash b) ∧
      (∀ b, p'.refCnt b = if b ∈ newBlocks then 1 else p.refCnt b) ∧
      BlockPool.Same p p' := by
  obtain ⟨_, hq, hvalid, hcnt, hhash, hsame⟩ :=
    h.valid.getNewBlocks (h.valid.getNewBlocks_le hok)
  cases hq.symm.trans hok
  -- The new blocks were free, so no table holds one.
  have hfree : ∀ b ∈ free.take n, b ∈ free := fun b hb => mem_of_mem_take hb
  have hnew : ∀ b ∈ free.take n, ∀ y, b ∉ t y := fun b hb => h.notMem_of_free (hfree b hb)
  refine ⟨⟨hvalid, h.finite.update x _, ?_, ?_, ?_, ?_, ?_, ?_, h.chain⟩, rfl, hhash, hcnt, hsame⟩
  · intro y b hb
    rw [hsame.numGpuBlocks]
    by_cases hy : y = x
    · rw [hy, update_self, mem_append] at hb
      rcases hb with hb | hb
      · exact h.bound x b hb
      · exact ((h.valid.mem_free b).mp (hfree b hb)).1
    · rw [update_of_ne hy] at hb
      exact h.bound y b hb
  · intro y
    rw [hsame.nullBlock]
    by_cases hy : y = x
    · rw [hy, update_self, filter_append]
      have hnodup := h.valid.queue.nodup.sublist (take_sublist n free)
      refine (h.nodup x).append (hnodup.filter _) ?_
      intro b hb hb'
      exact hnew b (mem_filter.mp hb').1 x (mem_filter.mp hb).1
    · rw [update_of_ne hy]
      exact h.nodup y
  · -- count: a new block goes from no holder to one.
    intro b hnull
    rw [hsame.nullBlock] at hnull
    rw [hcnt, Tables.numHolders_update h.finite]
    by_cases hb : b ∈ free.take n
    · have hzero : numHolders t b = 0 := (Tables.numHolders_eq_zero_iff h.finite).mpr (hnew b hb)
      simp [hb, hnew b hb x, hzero]
    · rw [if_neg hb, h.count b hnull]
      by_cases hold : b ∈ t x
      · simp [hold]
      · simp [hold, hb]
  · rw [hsame.nullBlock, hhash, h.null, ite_self]
  · intro b hnull hnone
    rw [hsame.nullBlock] at hnull
    rw [hcnt]
    split
    · exact le_rfl
    · rename_i hb
      rw [hhash, if_neg hb] at hnone
      exact h.exclusive b hnull hnone
  · -- named: `getNewBlocks` drops the hashes of the blocks it hands out.
    intro g r i b key hb hkey
    rw [hhash] at hkey
    split at hkey
    · cases hkey
    · rename_i hnot
      by_cases hx : (g, r) = x
      · rw [hx, update_self, getElem?_append] at hb
        split at hb
        · exact h.named g r i b key (hx ▸ hb) hkey
        · exact absurd (mem_of_getElem? hb) hnot
      · rw [update_of_ne hx] at hb
        exact h.named g r i b key hb hkey

/-! ### Hits -/

variable {r : String}

/-- The blocks that hits have at their positions are cached there. -/
theorem hit_blockHash (h : Sharing env p t hs free) {spec : ℕ → KVCacheSpec}
    {g i b : ℕ} (hit : HitOrSkipped p spec (hs r) g i b) (hnull : b ≠ p.nullBlock) :
    ∃ h', (hs r)[i]? = some h' ∧ p.blockHash b = some ⟨h', g⟩ := by
  rcases hit with ⟨h', hh', hhead⟩ | ⟨hb, -⟩
  · exact ⟨h', hh', (h.valid.mem_cached _ b).mp (mem_of_mem_head? hhead)⟩
  · exact absurd hb hnull

/-- The tables of a request take the hits. -/
def takeHits (t : RequestTables) (r : String) (numGroups : ℕ) (hits : List (List ℕ)) :
    RequestTables := fun x =>
  if x.1 < numGroups ∧ x.2 = r then t x ++ hits.getD x.1 [] else t x

theorem takeHits_self {numGroups g : ℕ} {hits : List (List ℕ)} (hg : g < numGroups) :
    takeHits t r numGroups hits (g, r) = t (g, r) ++ hits.getD g [] := by
  simp [takeHits, hg]

theorem takeHits_of_ne {numGroups : ℕ} {hits : List (List ℕ)}
    (hx : ¬ (x.1 < numGroups ∧ x.2 = r)) : takeHits t r numGroups hits x = t x :=
  if_neg hx

section Hits

variable {spec : ℕ → KVCacheSpec} {r : String} {numGroups : ℕ} {hits : List (List ℕ)}

theorem hits_getD (hhits : Hits p spec (hs r) numGroups hits) {g i b : ℕ} (hg : g < numGroups)
    (hb : (hits.getD g [])[i]? = some b) : HitOrSkipped p spec (hs r) g i b := by
  have hlen : hits.length = numGroups := by
    simpa using hhits.length_eq.symm
  have hlt : g < hits.length := hlen ▸ hg
  rw [getD_eq_getElem?_getD, getElem?_eq_getElem hlt, Option.getD_some] at hb
  have hrow := List.Forall₂.get hhits (i := g) (by simpa using hg) hlt
  simp only [get_eq_getElem, getElem_range] at hrow
  exact hrow i b hb

theorem mem_hits (hhits : Hits p spec (hs r) numGroups hits) {b : ℕ} :
    b ∈ hits.flatten ↔ ∃ g < numGroups, b ∈ hits.getD g [] := by
  have hlen : hits.length = numGroups := by
    simpa using hhits.length_eq.symm
  rw [mem_flatten]
  constructor
  · rintro ⟨_, hl, hb⟩
    obtain ⟨g, hg, rfl⟩ := mem_iff_getElem.mp hl
    refine ⟨g, hlen ▸ hg, ?_⟩
    rwa [getD_eq_getElem?_getD, getElem?_eq_getElem hg, Option.getD_some]
  · rintro ⟨g, hg, hb⟩
    have hlt : g < hits.length := hlen ▸ hg
    rw [getD_eq_getElem?_getD, getElem?_eq_getElem hlt, Option.getD_some] at hb
    exact ⟨_, getElem_mem hlt, hb⟩

section

variable (h : Sharing env p t hs free)
include h

/-- A block is a hit of the group of its hash only. -/
theorem hit_group (hhits : Hits p spec (hs r) numGroups hits) {g g' b : ℕ} (hg : g < numGroups)
    (hg' : g' < numGroups) (hb : b ∈ hits.getD g []) (hb' : b ∈ hits.getD g' [])
    (hnull : b ≠ p.nullBlock) : g = g' := by
  obtain ⟨_, hi⟩ := mem_iff_getElem?.mp hb
  obtain ⟨_, hj⟩ := mem_iff_getElem?.mp hb'
  obtain ⟨h₁, -, hkey⟩ := h.hit_blockHash (hits_getD hhits hg hi) hnull
  obtain ⟨h₂, -, hkey'⟩ := h.hit_blockHash (hits_getD hhits hg' hj) hnull
  rw [hkey, Option.some.injEq, BlockHashWithGroupId.mk.injEq] at hkey'
  exact hkey'.2

theorem hit_position (hfree : env.CollisionFree) (hhits : Hits p spec (hs r) numGroups hits)
    {g i j b : ℕ} (hg : g < numGroups) (hi : (hits.getD g [])[i]? = some b)
    (hj : (hits.getD g [])[j]? = some b) (hnull : b ≠ p.nullBlock) : i = j := by
  obtain ⟨h₁, hh₁, hkey⟩ := h.hit_blockHash (hits_getD hhits hg hi) hnull
  obtain ⟨h₂, hh₂, hkey'⟩ := h.hit_blockHash (hits_getD hhits hg hj) hnull
  rw [hkey, Option.some.injEq, BlockHashWithGroupId.mk.injEq] at hkey'
  obtain ⟨rfl, -⟩ := hkey'
  exact ((h.chain r).eq_of_getElem?_eq hfree (h.chain r) hh₁ hh₂).1

/-- No block is hit twice. -/
theorem count_hits (hfree : env.CollisionFree) (hhits : Hits p spec (hs r) numGroups hits) {b : ℕ}
    (hnull : b ≠ p.nullBlock) : hits.flatten.count b = if b ∈ hits.flatten then 1 else 0 := by
  have hlen : hits.length = numGroups := by
    simpa using hhits.length_eq.symm
  have hget : ∀ g (hg : g < hits.length), hits.getD g [] = hits[g] := by
    intro g hg
    rw [getD_eq_getElem?_getD, getElem?_eq_getElem hg, Option.getD_some]
  have hnodup : (hits.flatten.filter (· ≠ p.nullBlock)).Nodup := by
    rw [filter_flatten, nodup_flatten]
    constructor
    · intro l hl
      obtain ⟨_, hl', rfl⟩ := mem_map.mp hl
      obtain ⟨g, hg, rfl⟩ := mem_iff_getElem.mp hl'
      refine nodup_filter_of_getElem? fun i j b hi hj hb => ?_
      rw [← hget g hg] at hi hj
      exact h.hit_position hfree hhits (hlen ▸ hg) hi hj hb
    · rw [pairwise_map, pairwise_iff_getElem]
      intro g g' hg hg' hlt b hb hb'
      obtain ⟨hmem, hb⟩ := mem_filter.mp hb
      rw [← hget g hg] at hmem
      have hmem' := (mem_filter.mp hb').1
      rw [← hget g' hg'] at hmem'
      have := h.hit_group hhits (hlen ▸ hg) (hlen ▸ hg') hmem hmem' (by simpa using hb)
      omega
  split
  · rename_i hmem
    rw [← count_filter (p := fun b => decide (b ≠ p.nullBlock)) (by simpa using hnull)]
    exact count_eq_one_of_mem hnodup (mem_filter.mpr ⟨hmem, by simpa using hnull⟩)
  · rename_i hmem
    exact count_eq_zero_of_not_mem hmem

theorem numHolders_takeHits (hhits : Hits p spec (hs r) numGroups hits)
    (hfresh : ∀ g < numGroups, t (g, r) = [] ∨ hits.getD g [] = []) {b : ℕ}
    (hnull : b ≠ p.nullBlock) : numHolders (takeHits t r numGroups hits) b =
      numHolders t b + if b ∈ hits.flatten then 1 else 0 := by
  split
  · rename_i hmem
    obtain ⟨g, hg, hb⟩ := (mem_hits hhits).mp hmem
    have hempty : t (g, r) = [] := (hfresh g hg).resolve_right (ne_nil_of_mem hb)
    refine Tables.numHolders_of_insert (x := (g, r)) h.finite (by simp [hempty]) ?_ ?_
    · rw [takeHits_self hg]
      exact mem_append_right _ hb
    · rintro ⟨g', r'⟩ hne
      by_cases hx : g' < numGroups ∧ r' = r
      · obtain ⟨hg', rfl⟩ := hx
        rw [takeHits_self hg', mem_append, or_iff_left]
        intro hb'
        exact hne (by rw [h.hit_group hhits hg hg' hb hb' hnull])
      · rw [takeHits_of_ne hx]
  · rename_i hmem
    rw [add_zero]
    apply Tables.numHolders_congr
    rintro ⟨g, r'⟩
    by_cases hx : g < numGroups ∧ r' = r
    · obtain ⟨hg, rfl⟩ := hx
      rw [takeHits_self hg, mem_append, or_iff_left]
      intro hb
      exact hmem ((mem_hits hhits).mpr ⟨g, hg, hb⟩)
    · rw [takeHits_of_ne hx]

end

/-- A request without blocks takes the hits. -/
theorem take (h : Sharing env p t hs free) (hfree : env.CollisionFree)
    (hhits : Hits p spec (hs r) numGroups hits)
    (hfresh : ∀ g < numGroups, t (g, r) = [] ∨ hits.getD g [] = [])
    (hok : p.touch hits = .ok p') :
    Sharing env p' (takeHits t r numGroups hits) hs (free.diff hits.flatten) ∧
      p'.blockHash = p.blockHash ∧
      (∀ b, b ≠ p.nullBlock → p'.refCnt b = p.refCnt b + if b ∈ hits.flatten then 1 else 0) ∧
      BlockPool.Same p p' := by
  have hbound : ∀ b ∈ hits.flatten, b < p.numGpuBlocks := by
    intro b hb
    obtain ⟨g, hg, hb⟩ := (mem_hits hhits).mp hb
    obtain ⟨i, hi⟩ := mem_iff_getElem?.mp hb
    by_cases hnull : b = p.nullBlock
    · exact hnull ▸ h.valid.null_lt
    · obtain ⟨h', -, hkey⟩ := h.hit_blockHash (hits_getD hhits hg hi) hnull
      exact h.valid.hash_lt b _ hkey
  obtain ⟨q, hq, hvalid, hcnt, hhash, hsame⟩ := h.valid.touch hbound
  obtain rfl := Except.ok.inj (hq.symm.trans hok)
  have hcount : ∀ b, b ≠ p.nullBlock →
      q.refCnt b = p.refCnt b + if b ∈ hits.flatten then 1 else 0 := by
    intro b hnull
    rw [hcnt, h.count_hits hfree hhits hnull]
    split <;> rfl
  refine ⟨⟨hvalid, ?_, ?_, ?_, ?_, ?_, ?_, ?_, h.chain⟩, hhash, hcount, hsame⟩
  · -- Only the tables of the request that takes the hits change.
    have hfinite := (Set.finite_lt_nat numGroups).image fun g => (g, r)
    refine Tables.finitelyMany_of_subset h.finite hfinite ?_
    rintro ⟨g, r'⟩ hx
    apply takeHits_of_ne
    rintro ⟨hg, rfl⟩
    exact hx ⟨g, hg, rfl⟩
  · -- bound: a hit is a block with a hash, and such a block is one of the pool's.
    rintro ⟨g, r'⟩ b hb
    rw [hsame.numGpuBlocks]
    by_cases hx : g < numGroups ∧ r' = r
    · obtain ⟨hg, rfl⟩ := hx
      rw [takeHits_self hg, mem_append] at hb
      rcases hb with hb | hb
      · exact h.bound _ b hb
      · exact hbound b ((mem_hits hhits).mpr ⟨g, hg, hb⟩)
    · rw [takeHits_of_ne hx] at hb
      exact h.bound _ b hb
  · -- nodup: the hits of a group stand at the positions that their hashes name.
    rintro ⟨g, r'⟩
    rw [hsame.nullBlock]
    by_cases hx : g < numGroups ∧ r' = r
    · obtain ⟨hg, rfl⟩ := hx
      rw [takeHits_self hg]
      rcases hfresh g hg with hempty | hempty
      · rw [hempty, nil_append]
        exact nodup_filter_of_getElem? fun i j b hi hj hb =>
          h.hit_position hfree hhits hg hi hj hb
      · rw [hempty, append_nil]
        exact h.nodup _
    · rw [takeHits_of_ne hx]
      exact h.nodup _
  · -- count: `touch` counts a hit once, and one table of the request gets it.
    intro b hnull
    rw [hsame.nullBlock] at hnull
    rw [hcount b hnull, h.count b hnull, h.numHolders_takeHits hhits hfresh hnull]
    split <;> simp
  · rw [hsame.nullBlock, hhash]
    exact h.null
  · -- exclusive: a block without a hash is no hit.
    intro b hnull hnone
    rw [hsame.nullBlock] at hnull
    rw [hhash] at hnone
    rw [hcount b hnull, if_neg]
    · simpa using h.exclusive b hnull hnone
    · intro hmem
      obtain ⟨g, hg, hb⟩ := (mem_hits hhits).mp hmem
      obtain ⟨i, hi⟩ := mem_iff_getElem?.mp hb
      obtain ⟨h', -, hkey⟩ := h.hit_blockHash (hits_getD hhits hg hi) hnull
      rw [hkey] at hnone
      cases hnone
  · -- named: a hit has the hash of its position, by the lookup.
    intro g r' i b key hb hkey
    rw [hhash] at hkey
    by_cases hx : g < numGroups ∧ r' = r
    · obtain ⟨hg, rfl⟩ := hx
      rw [takeHits_self hg] at hb
      rcases hfresh g hg with hempty | hempty
      · rw [hempty, nil_append] at hb
        obtain ⟨h', hh', hkey'⟩ := h.hit_blockHash (hits_getD hhits hg hb) (h.ne_null hkey)
        rw [hkey', Option.some.injEq] at hkey
        subst hkey
        exact ⟨rfl, hh'⟩
      · rw [hempty, append_nil] at hb
        exact h.named g r' i b key hb hkey
    · rw [takeHits_of_ne hx] at hb
      exact h.named g r' i b key hb hkey

end Hits

/-! ### Caching -/

section Caching

variable {r : Request} {hashes : List BlockHash} {numCached numFull blockSize g : ℕ}

theorem mem_newFullBlocks {blocks : List ℕ} {b : ℕ} :
    b ∈ BlockPool.newFullBlocks blocks numCached numFull ↔
      ∃ i, numCached ≤ i ∧ i < numFull ∧ blocks[i]? = some b := by
  unfold BlockPool.newFullBlocks
  rw [mem_iff_getElem?]
  constructor
  · rintro ⟨i, hi⟩
    rw [getElem?_drop, getElem?_take] at hi
    split at hi
    · exact ⟨numCached + i, by omega, by omega, hi⟩
    · cases hi
  · rintro ⟨i, hle, hlt, hi⟩
    refine ⟨i - numCached, ?_⟩
    rw [getElem?_drop, getElem?_take, if_pos (by omega), ← hi]
    congr 1
    omega

/-- Full blocks are cached, and the null block is not among them. -/
theorem cache (h : Sharing env p t hs free) (hcaching : p.enableCaching = true)
    (hnull : p.nullBlock ∉ BlockPool.newFullBlocks (t (g, r.requestId)) numCached numFull)
    (hok : p.cacheFullBlocks env r (t (g, r.requestId)) (hs r.requestId) numCached numFull
      blockSize g = .ok (p', hashes)) :
    Sharing env p' t (update hs r.requestId hashes) free ∧ BlockPool.Same p p' ∧
      p'.refCnt = p.refCnt := by
  rcases BlockPool.cacheFullBlocks_eq_ok hok with
    ⟨-, rfl, rfl⟩ | ⟨-, parent, hparent, hcaches, hvalid, hchain⟩
  · rw [update_eq_self]
    exact ⟨h, BlockPool.Same.refl _, rfl⟩
  · have hmem : ∀ b ∈ BlockPool.newFullBlocks (t (g, r.requestId)) numCached numFull,
        b ∈ t (g, r.requestId) := by
      intro b hb
      obtain ⟨i, -, -, hi⟩ := mem_newFullBlocks.mp hb
      exact mem_of_getElem? hi
    -- The pool without its hashes is unchanged, so the first conjuncts carry over.
    have hcache := hvalid h.valid.toCacheValid hcaching fun b hb => h.bound _ b (hmem b hb)
    have hsame := hcaches.same
    refine ⟨⟨⟨hcache, ?_, ?_, ?_, ?_⟩, h.finite, ?_, ?_, ?_, ?_, ?_, ?_, ?_⟩, hsame,
      hcaches.refCnt⟩
    · rw [hcaches.freeBlockQueue]
      exact h.valid.queue
    · intro b
      rw [hsame.numGpuBlocks, hsame.nullBlock, hcaches.refCnt]
      exact h.valid.mem_free b
    · rw [hsame.nullBlock, hcaches.refCnt]
      exact h.valid.nonneg
    · rw [hsame.numGpuBlocks, hsame.nullBlock]
      exact h.valid.null_lt
    · rw [hsame.numGpuBlocks]
      exact h.bound
    · rw [hsame.nullBlock]
      exact h.nodup
    · rw [hsame.nullBlock, hcaches.refCnt]
      exact h.count
    · rw [hsame.nullBlock, hcaches.others _ hnull]
      exact h.null
    · -- exclusive: a block that still has no hash was not cached, so nothing changed for it.
      intro b hb hnone
      rw [hsame.nullBlock] at hb
      rw [hcaches.refCnt]
      have hnot : b ∉ BlockPool.newFullBlocks (t (g, r.requestId)) numCached numFull := by
        intro hmem'
        obtain ⟨i, hi⟩ := mem_iff_getElem?.mp hmem'
        obtain ⟨h', -, hkey⟩ := hcaches.cached i b hi
        rw [hkey] at hnone
        cases hnone
      rw [hcaches.others b hnot] at hnone
      exact h.exclusive b hb hnone
    · -- named: the hashes of a request only grow, so an old name keeps its position.
      intro g' r' i b key hb hkey
      have hext : ∀ (j : ℕ) (h' : BlockHash), (hs r')[j]? = some h' →
          (update hs r.requestId hashes r')[j]? = some h' := by
        intro j h' hj
        by_cases hr : r' = r.requestId
        · obtain ⟨_, hlater⟩ := hcaches.extended
          subst hr
          have hlt := (List.getElem?_eq_some_iff.mp hj).1
          rw [update_self, ← hlater, getElem?_append_left hlt, hj]
        · rw [update_of_ne hr, hj]
      by_cases hnew : b ∈ BlockPool.newFullBlocks (t (g, r.requestId)) numCached numFull
      · -- A new name: the block had none, hence this table is the only one that holds it.
        have hnullb : b ≠ p.nullBlock := fun heq => hnull (heq ▸ hnew)
        obtain ⟨j, hj⟩ := mem_iff_getElem?.mp hnew
        obtain ⟨h', hh', hkey'⟩ := hcaches.cached j b hj
        have hpos : (t (g, r.requestId))[numCached + j]? = some b := by
          rw [BlockPool.newFullBlocks, getElem?_drop, getElem?_take] at hj
          split at hj
          · exact hj
          · cases hj
        obtain ⟨hx, rfl⟩ :=
          h.unique_of_blockHash_eq_none (hcaches.fresh b hnew) hnullb hb hpos
        obtain ⟨rfl, rfl⟩ := Prod.mk.inj hx
        rw [hkey', Option.some.injEq] at hkey
        subst hkey
        exact ⟨rfl, by rw [update_self]; exact hh'⟩
      · rw [hcaches.others b hnew] at hkey
        obtain ⟨hgroup, hname⟩ := h.named g' r' i b key hb hkey
        exact ⟨hgroup, hext i _ hname⟩
    · intro r'
      by_cases hr : r' = r.requestId
      · rw [hr, update_self]
        exact hchain (h.chain _)
          (((h.blockPool_named _ _).parentNamed _).parent_eq_prevValue hparent)
      · rw [update_of_ne hr]
        exact h.chain r'

end Caching

/-! ### Hashes -/

/-- A request gets hashes, if none of its blocks has one. -/
theorem setHashes (h : Sharing env p t hs free) {hashes : List BlockHash}
    (hempty : hs r = [] ∨ ∀ g, t (g, r) = []) (hchain : HashChain env hashes) :
    Sharing env p t (update hs r hashes) free := by
  refine ⟨h.valid, h.finite, h.bound, h.nodup, h.count, h.null, h.exclusive, ?_, ?_⟩
  · intro g r' i b key hb hkey
    obtain ⟨hgroup, hname⟩ := h.named g r' i b key hb hkey
    refine ⟨hgroup, ?_⟩
    by_cases hr : r' = r
    · subst hr
      rcases hempty with hempty | hempty
      · rw [hempty] at hname
        cases hname
      · rw [hempty g] at hb
        cases hb
    · rwa [update_of_ne hr]
  · intro r'
    by_cases hr : r' = r
    · rwa [hr, update_self]
    · rw [update_of_ne hr]
      exact h.chain r'

/-- If all blocks but one are free, then no other block has references. -/
theorem refCnt_eq_zero (h : Sharing env p t hs free) (hfull : p.numGpuBlocks = free.length + 1)
    {b : ℕ} (hnull : b ≠ p.nullBlock) : p.refCnt b = 0 := by
  by_cases hlt : b < p.numGpuBlocks
  · have hsub : free.toFinset ⊆ (Finset.range p.numGpuBlocks).erase p.nullBlock := by
      intro b' hb'
      obtain ⟨hlt', hnull', -⟩ := (h.valid.mem_free b').mp (mem_toFinset.mp hb')
      exact Finset.mem_erase.mpr ⟨hnull', Finset.mem_range.mpr hlt'⟩
    have hcard : ((Finset.range p.numGpuBlocks).erase p.nullBlock).card ≤ free.toFinset.card := by
      rw [Finset.card_erase_of_mem (Finset.mem_range.mpr h.valid.null_lt), Finset.card_range,
        toFinset_card_of_nodup h.valid.queue.nodup]
      omega
    have hmem : b ∈ free.toFinset := by
      rw [Finset.eq_of_subset_of_card_le hsub hcard]
      exact Finset.mem_erase.mpr ⟨hnull, Finset.mem_range.mpr hlt⟩
    exact ((h.valid.mem_free b).mp (mem_toFinset.mp hmem)).2.2
  · rw [h.count b hnull]
    have hzero : numHolders t b = 0 := by
      rw [Tables.numHolders_eq_zero_iff h.finite]
      intro x hb
      exact hlt (h.bound x b hb)
    exact_mod_cast hzero

/-- All hashes are forgotten if no block is in use. -/
theorem reset (h : Sharing env p t hs free) :
    Sharing env p.resetPrefixCache.2 t hs free ∧ BlockPool.Same p p.resetPrefixCache.2 := by
  rcases h.valid.resetPrefixCache with hsame | ⟨hfull, -, hvalid, hcnt, hhash, hsame⟩
  · rw [hsame]
    exact ⟨h, BlockPool.Same.refl p⟩
  · refine ⟨⟨hvalid, h.finite, ?_, ?_, ?_, hhash _, ?_, ?_, h.chain⟩, hsame⟩
    · rw [hsame.numGpuBlocks]
      exact h.bound
    · rw [hsame.nullBlock]
      exact h.nodup
    · rw [hsame.nullBlock, hcnt]
      exact h.count
    · intro b hnull _
      rw [hsame.nullBlock] at hnull
      rw [hcnt, h.refCnt_eq_zero hfull hnull]
      exact Int.zero_le_ofNat 1
    · intro g r i b key _ hkey
      rw [hhash] at hkey
      cases hkey

end Sharing

end Kv
