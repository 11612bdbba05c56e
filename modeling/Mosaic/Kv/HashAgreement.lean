import Mosaic.Kv.Isolation

/-!
# Hashes that are computed while tokens are appended

The hashes of a prompt are computed in one loop, with a running index into the items. The hash of a
block that is completed later considers the last item only, and counts it also if it ends where the
block starts. A follow-up request that has all tokens as its prompt gets the same hashes only if
both ways name the same items.
-/

namespace Kv

open List

section Chains

variable {env : HashEnv}

theorem Extends.unique {parent : Option ℤ} {b b' : BlockHash} (h : Extends env parent b)
    (h' : Extends env parent b') (htokens : b.tokenIds = b'.tokenIds)
    (hkeys : b.extraKeys = b'.extraKeys) : b = b' := by
  have hvalue : b.hashValue = b'.hashValue := by
    rw [h, h', htokens, hkeys]
  cases b
  cases b'
  simp_all

/-- A chain is determined by the tokens and keys of its blocks. -/
theorem HashChain.isPrefix {hs hs' : List BlockHash} (h : HashChain env hs)
    (h' : HashChain env hs') (hlength : hs.length ≤ hs'.length)
    (hsame : ∀ (j : ℕ) (b b' : BlockHash), hs[j]? = some b → hs'[j]? = some b' →
      b.tokenIds = b'.tokenIds ∧ b.extraKeys = b'.extraKeys) : hs <+: hs' := by
  have hstep : ∀ j (hj : j < hs.length), prevValue hs j = prevValue hs' j →
      hs'[j]? = some hs[j] := by
    intro j hj hprev
    have hget := getElem?_eq_getElem hj
    have hget' := getElem?_eq_getElem (hj.trans_le hlength)
    obtain ⟨htokens, hkeys⟩ := hsame j _ _ hget hget'
    rw [hget', Option.some.injEq]
    exact ((h j _ hget).unique (hprev ▸ h' j _ hget') htokens hkeys).symm
  rw [prefix_iff_getElem?]
  intro j hj
  induction j with
  | zero => exact hstep 0 hj rfl
  | succ j ih =>
    refine hstep _ hj ?_
    rw [prevValue_succ, prevValue_succ, ih (by omega), getElem?_eq_getElem]

end Chains

/-! ### Items that are named in both ways -/

namespace Request

variable {r : Request} {startTokenIdx endTokenIdx : ℕ}

/-- No item is in the block but the last one, and that one does not end where the block starts. -/
structure LastReaches (r : Request) (startTokenIdx endTokenIdx : ℕ) : Prop where
  others : ∀ item ∈ r.mmItems.dropLast, ¬ Reaches startTokenIdx endTokenIdx item.1
  ended : ∀ item ∈ r.mmItems.getLast?, item.1.offset < startTokenIdx →
    item.1.offset + item.1.length ≠ startTokenIdx

/-- Equal keys name the same hashes. -/
theorem keysOf_eq_iff {items items' : List (PlaceholderRange × String)} :
    r.keysOf startTokenIdx items = r.keysOf startTokenIdx items' ↔
      items.map Prod.snd = items'.map Prod.snd := by
  have hmap : ∀ l : List (PlaceholderRange × String),
      l.map (fun item => ExtraKey.str item.2) = (l.map Prod.snd).map .str := fun l => by
    rw [map_map]
    rfl
  unfold keysOf
  rw [hmap, hmap]
  constructor
  · intro h
    have hkeys : ∀ a b : List ExtraKey, (if a.isEmpty then none else some a) =
        (if b.isEmpty then none else some b) → a = b := by
      intro a b hab
      cases a <;> cases b <;> simp_all
    have hmm := append_cancel_left (append_cancel_right (hkeys _ _ h))
    have hinj : Function.Injective ExtraKey.str := fun _ _ heq => ExtraKey.str.inj heq
    exact hinj.list_map hmm
  · intro h
    rw [h]

/-- Both ways name the same items exactly if only the last one is in the block, and it did not end
where the block starts. -/
theorem keysOf_lastReached_eq_iff (hsorted : r.MmSorted) (hlt : startTokenIdx < endTokenIdx) :
    r.keysOf startTokenIdx (r.lastReached startTokenIdx endTokenIdx) =
        r.keysOf startTokenIdx (r.reached startTokenIdx endTokenIdx) ↔
      r.LastReaches startTokenIdx endTokenIdx := by
  rw [keysOf_eq_iff]
  cases hlast : r.mmItems.getLast? with
  | none =>
    have hitems := getLast?_eq_none_iff.mp hlast
    refine iff_of_true ?_ ⟨by simp [hitems], by simp [hitems]⟩
    simp [lastReached, reached, hitems]
  | some last =>
    obtain ⟨earlier, hitems⟩ := getLast?_eq_some_iff.mp hlast
    have hpairs := hsorted.pairwise_mmItems
    rw [hitems] at hpairs
    have hbefore : ∀ item ∈ earlier, item.1.offset + item.1.length ≤ last.1.offset :=
      fun item hi => (pairwise_append.mp hpairs).2.2 item hi last (mem_singleton_self _)
    have hreached : r.reached startTokenIdx endTokenIdx =
        earlier.filter (fun item => Reaches startTokenIdx endTokenIdx item.1) ++
          if Reaches startTokenIdx endTokenIdx last.1 then [last] else [] := by
      rw [reached, hitems, filter_append, filter_singleton]
      simp
    have hlastReached : r.lastReached startTokenIdx endTokenIdx =
        if last.1.offset < endTokenIdx ∧ startTokenIdx ≤ last.1.offset + last.1.length then [last]
        else [] := by
      rw [lastReached, hlast, Option.toList_some, filter_singleton]
      simp
    rw [hreached, hlastReached]
    constructor
    · intro h
      -- an item before the last one is in the block only if the last one is not over
      have hnone : ∀ item ∈ earlier, ¬ Reaches startTokenIdx endTokenIdx item.1 := by
        intro item hitem hreaches
        have hmem : item ∈ earlier.filter
            (fun item => Reaches startTokenIdx endTokenIdx item.1) :=
          mem_filter.mpr ⟨hitem, decide_eq_true hreaches⟩
        have hpos := length_pos_of_mem hmem
        have hlens := congrArg List.length h
        have := hbefore item hitem
        have := hreaches.2
        simp only [length_map, length_append] at hlens
        split at hlens
        · rw [if_pos ⟨by omega, by omega⟩] at hlens
          omega
        · simp only [length_nil] at hlens
          omega
      refine ⟨?_, ?_⟩
      · rwa [hitems, dropLast_concat]
      · intro item hitem hstart hend
        obtain rfl : last = item := Option.some.inj (hlast.symm.trans hitem)
        have hfilter : earlier.filter
            (fun item => Reaches startTokenIdx endTokenIdx item.1) = [] :=
          filter_eq_nil_iff.mpr fun item hi h => hnone item hi (of_decide_eq_true h)
        rw [hfilter, if_pos (by omega), if_neg (by unfold Reaches; omega)] at h
        cases h
    · rintro ⟨hothers, hended⟩
      rw [hitems, dropLast_concat] at hothers
      have hfilter : earlier.filter
          (fun item => Reaches startTokenIdx endTokenIdx item.1) = [] :=
        filter_eq_nil_iff.mpr fun item hi h => hothers item hi (of_decide_eq_true h)
      have hsame : (last.1.offset < endTokenIdx ∧
          startTokenIdx ≤ last.1.offset + last.1.length) ↔
            Reaches startTokenIdx endTokenIdx last.1 := by
        have := hended last hlast
        unfold Reaches
        omega
      rw [hfilter, nil_append, if_congr hsame rfl rfl]

/-- Another request with all tokens as its prompt. -/
def followUp (q : Request) (requestId : String) : Request :=
  { q with requestId := requestId, numComputedTokens := 0 }

end Request

/-! ### The hashes that a request collects -/

section Accumulated

variable {env : HashEnv} {q : Request} {blockSize n : ℕ} {hashes full : List BlockHash}

/-- The hashes of a request after a lookup, if there was one, and calls that cache blocks while
tokens are appended. The first `n` hashes are those of the lookup. The block before the new ones is
filed under the hash that the request has there. -/
inductive Accumulated (env : HashEnv) (q : Request) (blockSize : ℕ) :
    ℕ → List BlockHash → Prop
  | skipped : Accumulated env q blockSize 0 []
  | lookup {r : Request} {hashes : List BlockHash} (hsnap : r.SnapshotOf q)
      (hok : hashRequestTokens env blockSize r = .ok hashes) :
      Accumulated env q blockSize (r.numTokens / blockSize) hashes
  | cached {n : ℕ} {hashes hashes' : List BlockHash} {r : Request} {p p' : BlockPool}
      {blocks : List ℕ} {numCached numFull group : ℕ} (prior : Accumulated env q blockSize n hashes)
      (hsnap : r.SnapshotOf q) (hnamed : p.ParentNamed blocks hashes numCached)
      (hok : p.cacheFullBlocks env r blocks hashes numCached numFull blockSize group =
        .ok (p', hashes')) : Accumulated env q blockSize n hashes'

/-- The contents of the hash of a block: only hashes of the lookup name all items. -/
def Request.CollectedHash (q : Request) (blockSize n j : ℕ) (b : BlockHash) : Prop :=
  (j + 1) * blockSize ≤ q.numTokens ∧ b.tokenIds = q.blockTokens blockSize j ∧
    b.extraKeys = q.keysOf (j * blockSize)
      (if j < n then q.reached (j * blockSize) ((j + 1) * blockSize)
        else q.lastReached (j * blockSize) ((j + 1) * blockSize))

theorem Request.SnapshotOf.numTokens_le {r : Request} (h : r.SnapshotOf q) :
    r.numTokens ≤ q.numTokens := by
  obtain ⟨_, _, rfl⟩ := h
  exact length_take_le' _ _

theorem Accumulated.collected (hsorted : q.MmSorted) (h : Accumulated env q blockSize n hashes) :
    HashChain env hashes ∧ n ≤ hashes.length ∧
      ∀ j b, hashes[j]? = some b → q.CollectedHash blockSize n j b := by
  induction h with
  | skipped => exact ⟨hashChain_nil env, le_rfl, nofun⟩
  | lookup hsnap hok =>
    rename_i r hashes
    have htokens := hsnap.numTokens_le
    have hsorted' : r.MmSorted := by
      obtain ⟨k, m, rfl⟩ := hsnap
      exact hsorted
    obtain ⟨hlength, hprompt⟩ := promptHash_hashRequestTokens hsorted' hok
    refine ⟨hashChain_hashRequestTokens hok, hlength.ge, ?_⟩
    intro j b hj
    obtain ⟨htok, hkeys⟩ := hprompt j b hj
    have hlt := (List.getElem?_eq_some_iff.mp hj).1
    have hfull := (Nat.mul_le_mul_right blockSize (show j + 1 ≤ r.numTokens / blockSize by
      omega)).trans (Nat.div_mul_le_self _ blockSize)
    refine ⟨hfull.trans htokens, htok.trans (hsnap.blockTokens_eq hfull), ?_⟩
    rw [if_pos (hlength ▸ hlt), hkeys]
    obtain ⟨k, m, rfl⟩ := hsnap
    rfl
  | cached prior hsnap hnamed hok ih =>
    rename_i n hashes hashes' r p p' blocks numCached numFull group
    obtain ⟨hchain, hn, hcollected⟩ := ih
    have hmore : HashChain env hashes' ∧ hashes.length ≤ hashes'.length := by
      rcases BlockPool.cacheFullBlocks_eq_ok hok with
        ⟨-, -, rfl⟩ | ⟨-, parent, hparent, hcaches, -, hkeep⟩
      · exact ⟨hchain, le_rfl⟩
      · exact ⟨hkeep hchain (hnamed.parent_eq_prevValue hparent), hcaches.extended.length_le⟩
    refine ⟨hmore.1, hn.trans hmore.2, cacheFullBlocks_forall hcollected ?_ hok⟩
    intro j hj _ hfull parent keys next hkeys
    refine ⟨hfull.trans hsnap.numTokens_le, hsnap.blockTokens_eq hfull, ?_⟩
    obtain ⟨k, m, rfl⟩ := hsnap
    rw [if_neg (by omega)]
    exact generateBlockHashExtraKeys_last hsorted hkeys

end Accumulated

/-! ### An image that ends with a block -/

section Example

/-- An image takes the first four of eight tokens. -/
def imageFirst : Request where
  requestId := "x"
  allTokenIds := List.replicate 8 0
  mmPositions := [⟨0, 4⟩]
  mmHashes := ["a"]

/-- A pool with a hash for one block. -/
def firstFiled (h : BlockHash) : BlockPool where
  numGpuBlocks := 12
  enableCaching := true
  enableKvCacheEvents := false
  nullBlock := 0
  refCnt _ := 0
  blockHash := Function.update (fun _ => none) 1 (some ⟨h, 0⟩)
  freeBlockQueue := Linked.Queue.ofList []
  cachedBlockHashToBlock _ := []
  kvEventQueue := []

/-- Four tokens are looked up, and the block of the next four is completed later. -/
theorem accumulated_second {env : HashEnv} {q r r' : Request} {h : BlockHash} {p' : BlockPool}
    {hashes : List BlockHash} (hsnap : r.SnapshotOf q) (hfour : r.numTokens = 4)
    (hlookup : hashRequestTokens env 4 r = .ok [h]) (hsnap' : r'.SnapshotOf q)
    (hok : (firstFiled h).cacheFullBlocks env r' [1, 2] [h] 1 2 4 0 = .ok (p', hashes)) :
    Accumulated env q 4 1 hashes := by
  have hnamed : (firstFiled h).ParentNamed [1, 2] [h] 1 := by
    rintro - b key ⟨⟩ ⟨⟩
    rfl
  have hprior : Accumulated env q 4 (r.numTokens / 4) [h] := .lookup hsnap hlookup
  rw [hfour] at hprior
  exact .cached hprior hsnap' hnamed hok

theorem accumulated_imageFirst (env : HashEnv) : ∃ h h', Accumulated env imageFirst 4 1 [h, h'] ∧
    h'.extraKeys = some [.str "a"] := by
  obtain ⟨h, hlookup⟩ : ∃ h, hashRequestTokens env 4
      { imageFirst with allTokenIds := imageFirst.allTokenIds.take 4 } = .ok [h] := ⟨_, rfl⟩
  have hlater : imageFirst.SnapshotOf imageFirst := ⟨8, 0, rfl⟩
  exact ⟨h, _, accumulated_second ⟨4, 0, rfl⟩ rfl hlookup hlater rfl, rfl⟩

/-- An image that ends inside the first block. -/
def imageInside : Request where
  requestId := "x"
  allTokenIds := List.replicate 8 0
  mmPositions := [⟨0, 3⟩]
  mmHashes := ["a"]

theorem accumulated_imageInside (env : HashEnv) :
    ∃ h h', Accumulated env imageInside 4 1 [h, h'] := by
  obtain ⟨h, hlookup⟩ : ∃ h, hashRequestTokens env 4
      { imageInside with allTokenIds := imageInside.allTokenIds.take 4 } = .ok [h] := ⟨_, rfl⟩
  have hlater : imageInside.SnapshotOf imageInside := ⟨8, 0, rfl⟩
  exact ⟨h, _, accumulated_second ⟨4, 0, rfl⟩ rfl hlookup hlater rfl⟩

end Example

end Kv
