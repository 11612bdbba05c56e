import Mosaic.Kv.ExtraKeys
import Mosaic.Kv.Conservation

/-!
# Isolation of cached prefixes

Blocks are shared between requests whose hashes are equal. Equal hashes mean equal contents if the
keys of every block name all items that start in it. For blocks of a prompt they do. A block that
is completed later only names the last item, even if it also contains the end of the prompt.
-/

namespace Kv

open List Fallible Function Except Prod

/-! ### Requests during a run -/

/-- What the cache sees of a request during a run: its last tokens are not there yet. -/
def Request.SnapshotOf (r q : Request) : Prop :=
  ∃ numTokens numComputedTokens, r = { q with
    allTokenIds := q.allTokenIds.take numTokens
    numComputedTokens := numComputedTokens }

section Snapshot

variable {r q : Request} {blockSize : ℕ}

theorem Request.SnapshotOf.blockTokens_eq (h : r.SnapshotOf q) {j : ℕ}
    (hj : (j + 1) * blockSize ≤ r.numTokens) :
    r.blockTokens blockSize j = q.blockTokens blockSize j := by
  obtain ⟨n, _, rfl⟩ := h
  change _ ≤ (q.allTokenIds.take n).length at hj
  rw [List.length_take] at hj
  change ((q.allTokenIds.take n).take _).drop _ = _
  rw [take_take, min_eq_left (by omega)]
  rfl

theorem Request.SnapshotOf.labels (h : r.SnapshotOf q) {startTokenIdx endTokenIdx : ℕ}
    {keys : Option (List ExtraKey)} (hlabels : Labels r startTokenIdx endTokenIdx keys) :
    Labels q startTokenIdx endTokenIdx keys := by
  obtain ⟨_, _, rfl⟩ := h
  exact hlabels

/-- The hashes of the tokens so far are hashes of the whole request. -/
theorem Request.SnapshotOf.labelled (h : r.SnapshotOf q) {hs : List BlockHash}
    (hlabelled : Labelled r blockSize hs) (hlength : hs.length = r.numTokens / blockSize) :
    Labelled q blockSize hs := by
  intro j b hj
  obtain ⟨htoks, hlabels⟩ := hlabelled j b hj
  have hlt := (List.getElem?_eq_some_iff.mp hj).1
  have hfull : (j + 1) * blockSize ≤ r.numTokens :=
    (Nat.mul_le_mul_right _ (by omega)).trans (Nat.div_mul_le_self r.numTokens blockSize)
  exact ⟨htoks.trans (h.blockTokens_eq hfull), h.labels hlabels⟩

end Snapshot

/-! ### Hashes of new full blocks -/

section Caching

variable {env : HashEnv} {r q : Request} {blockSize group idx : ℕ} {blocks : List ℕ}
  {hashes hashes' : List BlockHash} {prev : Option ℤ} {values : List ℤ} {p p' : BlockPool}

variable {P : ℕ → BlockHash → Prop}

theorem forall_concat {h : BlockHash}
    (hold : ∀ j b, hashes[j]? = some b → P j b) (hlast : P hashes.length h) (j : ℕ) (b : BlockHash)
    (hj : (hashes ++ [h])[j]? = some b) : P j b := by
  rcases Nat.lt_trichotomy j hashes.length with hlt | rfl | hgt
  · rw [getElem?_append_left hlt] at hj
    exact hold j b hj
  · obtain rfl : h = b := by simpa using hj
    exact hlast
  · rw [getElem?_eq_none (by simp; omega)] at hj
    cases hj

/-- What the hashes of completed blocks satisfy: those that are not known yet are computed from the
tokens of the block and from the last item. -/
def CompletedSatisfy (env : HashEnv) (r : Request) (blockSize : ℕ) (P : ℕ → BlockHash → Prop)
    (j : ℕ) : Prop :=
  (j + 1) * blockSize ≤ r.numTokens → ∀ parent keys next,
    generateBlockHashExtraKeys r (j * blockSize) ((j + 1) * blockSize) (-1) = .ok (keys, next) →
      P j (hashBlockTokens env parent (r.blockTokens blockSize j) keys)

theorem fullBlockHash_forall {h : BlockHash}
    (hidx : idx ≤ hashes.length) (hold : ∀ j b, hashes[j]? = some b → P j b)
    (hnew : hashes.length ≤ idx → CompletedSatisfy env r blockSize P idx)
    (hok : BlockPool.fullBlockHash env r blockSize idx (hashes.drop idx) hashes prev =
      .ok (h, hashes')) : ∀ j b, hashes'[j]? = some b → P j b := by
  unfold BlockPool.fullBlockHash at hok
  split at hok
  · cases hok
    exact hold
  · rename_i hknown
    have hle := drop_eq_nil_iff.mp hknown
    obtain rfl : idx = hashes.length := le_antisymm hidx hle
    split at hok
    · cases hok
    · rename_i hlength
      obtain ⟨⟨keys, _⟩, hkeys, hok⟩ := bind_eq_ok.mp hok
      cases hok
      have hfull : (hashes.length + 1) * blockSize ≤ r.numTokens := by
        rw [not_not, Request.blockTokens, length_drop, List.length_take] at hlength
        rcases Nat.eq_zero_or_pos blockSize with rfl | hpos
        · exact Nat.zero_le _
        · rw [Nat.succ_mul] at hlength ⊢
          unfold Request.numTokens
          omega
      exact forall_concat hold (hnew le_rfl hfull prev keys _ hkeys)

theorem cacheLoop_forall (hidx : idx ≤ hashes.length) (hold : ∀ j b, hashes[j]? = some b → P j b)
    (hnew : ∀ j, hashes.length ≤ j → j < idx + blocks.length →
      CompletedSatisfy env r blockSize P j)
    (hok : BlockPool.cacheLoop env r blockSize group blocks (hashes.drop idx) idx prev p hashes =
      .ok (p', hashes', values)) : ∀ j b, hashes'[j]? = some b → P j b := by
  induction blocks generalizing p hashes idx prev values with
  | nil =>
    obtain ⟨-, rfl, -⟩ : p = p' ∧ hashes = hashes' ∧ [] = values := by
      simpa [BlockPool.cacheLoop] using hok
    exact hold
  | cons b blocks ih =>
    rw [BlockPool.cacheLoop] at hok
    split at hok
    · cases hok
    · obtain ⟨⟨h, hashes₁⟩, hhash, hok⟩ := bind_eq_ok.mp hok
      obtain ⟨⟨p₁, hashes₂, _⟩, hloop, hok⟩ := bind_eq_ok.mp hok
      obtain ⟨rfl, rfl, -⟩ : p₁ = p' ∧ hashes₂ = hashes' ∧ _ := by
        simpa [pure, Except.pure] using hok
      obtain ⟨hext, hget, htail, -⟩ := BlockPool.fullBlockHash_eq_ok hidx hhash
      have hfirst := fullBlockHash_forall hidx hold (fun hle => hnew idx hle (by simp)) hhash
      rw [htail] at hloop
      refine ih (List.getElem?_eq_some_iff.mp hget).1 hfirst ?_ hloop
      intro j hj hlt
      refine hnew j (hext.length_le.trans hj) ?_
      rw [length_cons]
      omega

/-- What holds of the known hashes and of those of completed blocks holds of all hashes
afterwards. -/
theorem cacheFullBlocks_forall {numCached numFull : ℕ} (hold : ∀ j b, hashes[j]? = some b → P j b)
    (hnew : ∀ j, hashes.length ≤ j → j < numFull → CompletedSatisfy env r blockSize P j)
    (hok : p.cacheFullBlocks env r blocks hashes numCached numFull blockSize group =
      .ok (p', hashes')) : ∀ j b, hashes'[j]? = some b → P j b := by
  unfold BlockPool.cacheFullBlocks at hok
  split at hok
  · cases hok
    exact hold
  · dsimp only at hok
    split at hok
    · cases hok
    · rename_i hlong
      obtain ⟨_, -, hok⟩ := bind_eq_ok.mp hok
      obtain ⟨⟨_, hashes₁, _⟩, hloop, hok⟩ := bind_eq_ok.mp hok
      obtain rfl : hashes₁ = hashes' := by
        split at hok
        · split at hok
          · cases hok
          · exact (mk.inj (ok.inj hok)).2
        · exact (mk.inj (ok.inj hok)).2
      refine cacheLoop_forall (not_lt.mp hlong) hold ?_ hloop
      intro j hj hlt
      refine hnew j hj ?_
      rw [BlockPool.newFullBlocks, length_drop, List.length_take] at hlt
      omega

theorem labelled_cacheFullBlocks {numCached numFull : ℕ} (hsnap : r.SnapshotOf q)
    (hsorted : r.MmSorted)
    (hitems : ∀ j, hashes.length ≤ j → j < numFull →
      r.OnlyLastStarts (j * blockSize) ((j + 1) * blockSize))
    (hlabelled : Labelled q blockSize hashes)
    (hok : p.cacheFullBlocks env r blocks hashes numCached numFull blockSize group =
      .ok (p', hashes')) : Labelled q blockSize hashes' := by
  refine cacheFullBlocks_forall hlabelled ?_ hok
  intro j hj hlt hfull parent keys next hkeys
  obtain rfl := generateBlockHashExtraKeys_last hsorted hkeys
  exact ⟨hsnap.blockTokens_eq hfull, hsnap.labels (labels_lastReached (hitems j hj hlt))⟩

end Caching

/-! ### Calls -/

namespace KVCacheManager

/-- In blocks of a request whose hash is not known, up to those that are full with `numTokens`
tokens, no item starts but the last one. -/
def UnknownNamed (s : KVCacheManager) (r : Request) (numTokens : ℕ) : Prop :=
  ∀ blockSize, s.blockSize = some blockSize →
    ∀ j, (s.reqToBlockHashes r.requestId).length ≤ j → j < numTokens / blockSize →
      r.OnlyLastStarts (j * blockSize) ((j + 1) * blockSize)

/-- The call computes no hash of a block in which another item than the last one starts, except for
the hashes that are computed for a lookup. -/
def NamesItems (s : KVCacheManager) : Call → Prop
  | .allocateComputed r _ _ false =>
      r.promptLogprobs = true ∨ s.reqToBlockHashes r.requestId ≠ [] → s.UnknownNamed r r.numTokens
  | .allocateSlots r numNewTokens _ false =>
      s.UnknownNamed r (min (r.numComputedTokens + numNewTokens) r.numTokens)
  | .cacheBlocks r numComputedTokens => s.UnknownNamed r numComputedTokens
  | _ => True

/-- With caching there is one block size. -/
def OneBlockSize (s : KVCacheManager) : Prop :=
  s.enableCaching = true → ∀ g < s.numKvCacheGroups, s.blockSize = some (s.spec g).blockSize

/-- The hashes of every request cover its tokens and name its items. -/
def HashesLabelled (s : KVCacheManager) (requests : String → Request) : Prop :=
  ∀ id, Labelled (requests id) (s.blockSize.getD 0) (s.reqToBlockHashes id)

end KVCacheManager

/-- The request that a call is about. -/
def Call.request : Call → Option Request
  | .getComputedBlocks r | .allocateComputed r _ _ _ | .allocateSlots r _ _ _ | .cacheBlocks r _ =>
    some r
  | .preempt _ | .finish _ | .resetPrefixCache => none

open KVCacheManager

section Calls

variable {env : HashEnv} {s s' : KVCacheManager} {free : List ℕ} {r : Request}
  {requests : String → Request}

theorem KVCacheManager.OneBlockSize.of_sameShape (h : s.OneBlockSize) (hshape : SameShape s s') :
    s'.OneBlockSize := by
  intro hcaching g hg
  rw [hshape.blockSize, hshape.spec]
  exact h (hshape.enableCaching ▸ hcaching) g (hshape.numKvCacheGroups ▸ hg)

theorem KVCacheManager.HashesLabelled.update (h : s.HashesLabelled requests)
    {id : String} {hashes : List BlockHash}
    (hid : Labelled (requests id) (s.blockSize.getD 0) hashes) (id' : String) :
    Labelled (requests id') (s.blockSize.getD 0)
      (update s.reqToBlockHashes id hashes id') := by
  by_cases heq : id' = id
  · subst heq
    rwa [update_self]
  · rw [update_of_ne heq]
    exact h id'

/-- A lookup computes the hashes of all full blocks if there are none. -/
theorem labelled_getComputedBlocks (h : s.HashesLabelled requests)
    (hsnap : r.SnapshotOf (requests r.requestId)) (hsorted : r.MmSorted)
    {hits : List (List ℕ)} {hitLength : ℕ}
    (hok : s.getComputedBlocks env r = .ok (s', hits, hitLength)) :
    s'.HashesLabelled requests ∧
      ((r.promptLogprobs = true ∨ s.reqToBlockHashes r.requestId ≠ [] →
          s.UnknownNamed r r.numTokens) →
        s.enableCaching = true → s'.UnknownNamed r r.numTokens) := by
  unfold KVCacheManager.getComputedBlocks at hok
  split at hok
  · rename_i hskip
    cases hok
    refine ⟨h, fun hnamed hcaching => hnamed (.inl ?_)⟩
    simpa [hcaching] using hskip
  · obtain ⟨hashes, hhashes, hok⟩ := bind_eq_ok.mp hok
    obtain ⟨⟨hits', hitLength'⟩, -, hok⟩ := bind_eq_ok.mp hok
    cases hok
    unfold requestHashes at hhashes
    split at hhashes
    · rename_i blockSize hempty hsize
      obtain ⟨hlength, hlabelled⟩ := labelled_hashRequestTokens hsorted hhashes
      have hfull := hsnap.labelled hlabelled hlength
      refine ⟨h.update (by rwa [hsize]), ?_⟩
      intro _ _ blockSize' hsize' j hj hlt
      -- the hashes of all full blocks are known
      obtain rfl : blockSize = blockSize' := Option.some.inj (hsize.symm.trans hsize')
      dsimp only at hj
      rw [update_self, hlength] at hj
      omega
    · cases hhashes
    · rename_i hsome hnone
      cases hhashes
      rw [update_eq_self]
      refine ⟨h, fun hnamed _ => hnamed (.inr ?_)⟩
      intro hnil
      cases hsize : s.blockSize with
      | none => exact hnone hnil hsize
      | some blockSize => exact hsome blockSize hnil hsize

theorem labelled_cacheBlocks (hsize : s.OneBlockSize) (hcaching : s.enableCaching = true)
    (h : s.HashesLabelled requests) (hsnap : r.SnapshotOf (requests r.requestId))
    (hsorted : r.MmSorted) {numTokens : ℕ} (hnamed : s.UnknownNamed r numTokens)
    (hok : s.cacheBlocks env r numTokens = .ok s') : s'.HashesLabelled requests := by
  rw [cacheBlocks_eq] at hok
  have hloop := foldlM_range (P := fun _ s₁ => s₁.blockSize = s.blockSize ∧
    (∀ g, (s₁.managers g).blockSize = (s.managers g).blockSize) ∧
      s₁.HashesLabelled requests ∧ s₁.UnknownNamed r numTokens) hok
    ⟨rfl, fun _ => rfl, h, hnamed⟩ ?_
  · exact hloop.2.2.1
  · rintro g hg s₁ _ ⟨hsize₁, hsizes₁, h₁, hnamed₁⟩ hstep
    have hone : s₁.blockSize = some (s₁.managers g).blockSize := by
      rw [hsize₁, hsizes₁]
      exact hsize hcaching g hg
    obtain ⟨⟨_, p, hashes⟩, hcache, hstep⟩ := bind_eq_ok.mp hstep
    cases hstep
    unfold SingleTypeManager.cacheBlocks at hcache
    split at hcache
    · cases hcache
    · obtain ⟨⟨p', hashes'⟩, hfull, hcache⟩ := bind_eq_ok.mp hcache
      obtain ⟨rfl, rfl, rfl⟩ : _ ∧ p' = p ∧ hashes' = hashes := by
        simpa [pure, Except.pure] using hcache
      have hextended : (s₁.reqToBlockHashes r.requestId).length ≤ hashes'.length := by
        rcases BlockPool.cacheFullBlocks_eq_ok hfull with
          ⟨-, -, rfl⟩ | ⟨-, parent, -, hcaches, -, -⟩
        · exact le_rfl
        · exact hcaches.extended.length_le
      refine ⟨hsize₁, ?_, h₁.update ?_, ?_⟩
      · intro g'
        rw [← hsizes₁ g']
        by_cases hg' : g' = g
        · subst hg'
          simp [SingleTypeManager.blockSize]
        · exact congrArg _ (managers_setGroup_of_ne (p := p') hg')
      · rw [hone, Option.getD_some]
        refine labelled_cacheFullBlocks hsnap hsorted (hnamed₁ _ hone) ?_ hfull
        have hid := h₁ r.requestId
        rwa [hone] at hid
      · intro blockSize hblockSize j hj hlt
        dsimp only at hj
        rw [update_self] at hj
        exact hnamed₁ blockSize hblockSize j (hextended.trans hj) hlt

theorem labelled_allocateSlots (hfree : env.CollisionFree) (hcons : Consistent env s free)
    (hsize : s.OneBlockSize) (h : s.HashesLabelled requests)
    (hsnap : r.SnapshotOf (requests r.requestId)) (hsorted : r.MmSorted)
    {numNewTokens numNewComputedTokens numLookaheadTokens : ℕ} {hits : List (List ℕ)}
    {delayCacheBlocks : Bool} {newBlocks : Option (List (List ℕ))}
    (hhits : Hits s.blockPool s.spec (s.reqToBlockHashes r.requestId) s.numKvCacheGroups hits)
    (hnamed : delayCacheBlocks = false → s.enableCaching = true → s.UnknownNamed r
      (min (r.numComputedTokens + numNewComputedTokens + numNewTokens) r.numTokens))
    (hok : s.allocateSlots env r numNewTokens numNewComputedTokens hits numLookaheadTokens
      delayCacheBlocks = .ok (s', newBlocks)) : s'.HashesLabelled requests := by
  rw [allocateSlots_eq] at hok
  obtain ⟨⟨s₁, prepared⟩, hprep, hok⟩ := bind_eq_ok.mp hok
  obtain ⟨⟨_, hmoves⟩, hhashes, -⟩ := moves_prepareSlots False hfree hcons hhits hprep
  have hshape := hmoves.sameShape
  have h₁ : s₁.HashesLabelled requests := by
    intro id
    rw [hshape.blockSize, hhashes]
    exact h id
  cases prepared with
  | none =>
    cases hok
    exact h₁
  | some blocks =>
    dsimp only at hok
    split at hok
    · cases hok
      exact h₁
    · rename_i hcaching
      obtain ⟨hcaching, hdelay⟩ : s₁.enableCaching = true ∧ delayCacheBlocks = false := by
        simpa using hcaching
      obtain ⟨_, hcache, hok⟩ := bind_eq_ok.mp hok
      cases hok
      refine labelled_cacheBlocks (hsize.of_sameShape hshape) hcaching h₁ hsnap hsorted ?_
        hcache
      intro blockSize hblockSize j hj
      rw [hhashes] at hj
      exact hnamed hdelay (hshape.enableCaching ▸ hcaching) blockSize
        (hshape.blockSize ▸ hblockSize) j hj

/-- What a call knows of its request. -/
def Call.Sees (requests : String → Request) (c : Call) : Prop :=
  ∀ r, c.request = some r → r.SnapshotOf (requests r.requestId) ∧ r.MmSorted

theorem KVCacheManager.UnknownNamed.mono {numTokens numTokens' : ℕ}
    (h : s.UnknownNamed r numTokens) (hle : numTokens' ≤ numTokens) :
    s.UnknownNamed r numTokens' := by
  intro blockSize hsize j hj hlt
  exact h blockSize hsize j hj (hlt.trans_le (Nat.div_le_div_right hle))

/-- A call that names items keeps the hashes of all requests labelled. -/
theorem labelled_call (hfree : env.CollisionFree) (hcons : Consistent env s free)
    (hsize : s.OneBlockSize) (h : s.HashesLabelled requests) {c : Call}
    (hsees : c.Sees requests) (hnamed : s.NamesItems c) {newBlocks : Option (List (List ℕ))}
    (hok : s.call env c = .ok (s', newBlocks)) : s'.HashesLabelled requests := by
  cases c with
  | getComputedBlocks r =>
    obtain ⟨hsnap, hsorted⟩ := hsees r rfl
    obtain ⟨⟨s₁, hits, hitLength⟩, hget, hok⟩ := bind_eq_ok.mp hok
    cases hok
    exact (labelled_getComputedBlocks h hsnap hsorted hget).1
  | allocateComputed r numNewTokens numLookaheadTokens delayCacheBlocks =>
    obtain ⟨hsnap, hsorted⟩ := hsees r rfl
    obtain ⟨⟨s₁, hits, hitLength⟩, hget, hok⟩ := bind_eq_ok.mp hok
    -- The lookup hashes the prompt, and the allocation caches with these hashes.
    obtain ⟨h₁, hnamed₁⟩ := labelled_getComputedBlocks h hsnap hsorted hget
    obtain ⟨hmoves₁, hhits, ⟨hashes, rfl⟩, -, -⟩ := moves_getComputedBlocks False hcons hget
    obtain ⟨hcons₁, -⟩ := hmoves₁.consistent hfree hcons
    refine labelled_allocateSlots hfree hcons₁ (hsize.of_sameShape hmoves₁.sameShape) h₁ hsnap
      hsorted hhits ?_ hok
    rintro rfl hcaching
    exact (hnamed₁ hnamed hcaching).mono (min_le_right _ _)
  | allocateSlots r numNewTokens numLookaheadTokens delayCacheBlocks =>
    obtain ⟨hsnap, hsorted⟩ := hsees r rfl
    refine labelled_allocateSlots hfree hcons hsize h hsnap hsorted
      (hits_createEmptyBlockList s _ _ _) ?_ hok
    rintro rfl _
    exact hnamed
  | preempt requestId =>
    obtain ⟨s₁, hfree₁, hok⟩ := bind_eq_ok.mp hok
    cases hok
    obtain ⟨⟨free₁, hmoves⟩, -, -, hhashes⟩ := moves_free env False hfree₁ free
    intro id
    rw [hmoves.sameShape.blockSize, hhashes]
    exact h id
  | finish requestId =>
    obtain ⟨s₁, hfree₁, hok⟩ := bind_eq_ok.mp hok
    cases hok
    obtain ⟨⟨free₁, hmoves⟩, -, -, hhashes⟩ := moves_free env False hfree₁ free
    intro id
    change Labelled _ (s₁.blockSize.getD 0) (update s₁.reqToBlockHashes requestId [] id)
    rw [hmoves.sameShape.blockSize, hhashes]
    -- The hashes of the request are dropped, and an empty list is labelled.
    exact h.update (labelled_nil _ _) id
  | cacheBlocks r numComputedTokens =>
    obtain ⟨hsnap, hsorted⟩ := hsees r rfl
    obtain ⟨s₁, hcache, hok⟩ := bind_eq_ok.mp hok
    cases hok
    unfold cacheRequestBlocks at hcache
    split at hcache
    · rename_i hcaching
      exact labelled_cacheBlocks hsize hcaching h hsnap hsorted hnamed hcache
    · cases hcache
      exact h
  | resetPrefixCache =>
    cases hok
    exact h

end Calls

/-! ### Runs -/

/-- A call that returns, caches no null block and names items. The id of a request that is finished
may be given to another one. -/
structure IsolatingStep (env : HashEnv) (x : KVCacheManager × (String → Request)) (c : Call)
    (y : KVCacheManager × (String → Request)) : Prop where
  nullFree : NullFreeStep env x.1 c y.1
  sees : c.Sees x.2
  namesItems : x.1.NamesItems c
  requests : ∀ id, c ≠ .finish id → y.2 id = x.2 id

section Runs

variable {env : HashEnv} {s s₁ s₂ : KVCacheManager} {free : List ℕ}
  {requests requests₁ requests₂ requests₁' requests₂' : String → Request}

/-- What is known of a manager whose requests stay apart. -/
structure Isolated (env : HashEnv) (s : KVCacheManager) (requests : String → Request) : Prop where
  consistent : ∃ free, Consistent env s free
  oneBlockSize : s.OneBlockSize
  labelled : s.HashesLabelled requests

theorem isolated_new {cfg : KVCacheConfig} {maxModelLen : ℕ}
    {enableCaching useEagle enableKvCacheEvents : Bool}
    (hnew : new cfg maxModelLen enableCaching useEagle enableKvCacheEvents = .ok s)
    (requests : String → Request) : Isolated env s requests := by
  obtain ⟨-, -, -, hhashes, hsize⟩ := new_eq_ok hnew
  refine ⟨consistent_new hnew, hsize, ?_⟩
  intro id
  rw [hhashes]
  exact labelled_nil _ _

/-- The requests stay apart, and the block size stays the same. -/
theorem IsolatingStep.isolated (hfree : env.CollisionFree)
    {x y : KVCacheManager × (String → Request)} {c : Call} (hstep : IsolatingStep env x c y)
    (h : Isolated env x.1 x.2) : Isolated env y.1 y.2 ∧ y.1.blockSize = x.1.blockSize := by
  obtain ⟨⟨_, hcons⟩, hsize, hlabelled⟩ := h
  obtain ⟨⟨hnull, _, hok⟩, hsees, hnamed, hreqs⟩ := hstep
  obtain ⟨⟨free', hmoves⟩, -⟩ := moves_call hfree hcons False.elim hnull hok
  have hshape := hmoves.sameShape
  have hsame := labelled_call hfree hcons hsize hlabelled hsees hnamed hok
  refine ⟨⟨⟨free', (hmoves.consistent hfree hcons).1⟩, hsize.of_sameShape hshape, ?_⟩,
    hshape.blockSize⟩
  intro id
  by_cases hfinish : c = .finish id
  · -- a finished request has no hashes
    subst hfinish
    obtain ⟨_, -, hok⟩ := bind_eq_ok.mp hok
    obtain ⟨hs, -⟩ := mk.inj (ok.inj hok)
    have hnil : y.1.reqToBlockHashes id = [] := by
      rw [← hs]
      exact update_self ..
    rw [hnil]
    exact labelled_nil _ _
  · rw [hreqs id hfinish]
    exact hsame id

theorem isolated_of_run (hfree : env.CollisionFree) {calls : List Call}
    (run : Transition.Execution (IsolatingStep env) (s, requests) calls (s₁, requests₁))
    (h : Isolated env s requests) : Isolated env s₁ requests₁ ∧ s₁.blockSize = s.blockSize := by
  refine Transition.Execution.preserves (P := fun x => Isolated env x.1 x.2 ∧
    x.1.blockSize = s.blockSize) ?_ run ⟨h, rfl⟩
  rintro x _ _ ⟨hx, hsize⟩ hstep
  obtain ⟨hy, hsize'⟩ := hstep.isolated hfree hx
  exact ⟨hy, hsize'.trans hsize⟩

/-- Equal hashes of two managers with one block size. -/
theorem Isolated.sameContents (hfree : env.CollisionFree) (h₁ : Isolated env s₁ requests₁)
    (h₂ : Isolated env s₂ requests₂) (hsize : s₂.blockSize = s₁.blockSize) {a b : String} {i : ℕ}
    {h h' : BlockHash} (ha : (s₁.reqToBlockHashes a)[i]? = some h)
    (hb : (s₂.reqToBlockHashes b)[i]? = some h') (hvalue : h.hashValue = h'.hashValue)
    (hsalt : SaltApart (requests₁ a) (requests₂ b))
    (hsalt' : SaltApart (requests₂ b) (requests₁ a)) :
    SameContents (requests₁ a) (requests₂ b) ((i + 1) * s₁.blockSize.getD 0) := by
  obtain ⟨_, hcons₁⟩ := h₁.consistent
  obtain ⟨_, hcons₂⟩ := h₂.consistent
  have hlabelled := h₂.labelled b
  rw [hsize] at hlabelled
  exact sameContents_of_labelled hfree (hcons₁.sharing.chain a) (hcons₂.sharing.chain b)
    (h₁.labelled a) hlabelled ha hb hvalue hsalt hsalt'

/-- A block that two tables hold stands at one position, and has the hash of both requests. -/
theorem Consistent.shared_hash (hcons : Consistent env s free) {x y : ℕ × String} {i j b : ℕ}
    (hfree : env.CollisionFree) (hne : x ≠ y) (hx : (s.tables x)[i]? = some b)
    (hy : (s.tables y)[j]? = some b) (hnull : b ≠ s.blockPool.nullBlock) :
    i = j ∧ ∃ h, (s.reqToBlockHashes x.2)[i]? = some h ∧ (s.reqToBlockHashes y.2)[i]? = some h := by
  have hsharing := hcons.sharing
  cases hkey : s.blockPool.blockHash b with
  | none => exact absurd (hsharing.unique_of_blockHash_eq_none hkey hnull hx hy).1 hne
  | some key =>
    obtain ⟨-, hi⟩ := hsharing.named x.1 x.2 i b key hx hkey
    obtain ⟨-, hj⟩ := hsharing.named y.1 y.2 j b key hy hkey
    obtain ⟨rfl, -⟩ :=
      (hsharing.chain x.2).eq_of_getElem?_eq hfree (hsharing.chain y.2) hi hj
    exact ⟨rfl, _, hi, hj⟩

end Runs

/-! ### An image that is hidden -/

section Example

/-- One group of layers that attend to all tokens. -/
def fullOnly (numBlocks : ℕ) : KVCacheConfig where
  numBlocks := numBlocks
  kvCacheTensors := []
  kvCacheGroups := [⟨["full"], .fullAttention ⟨4, 1, 1, .float16, false⟩ none none⟩]

/-- A prompt of two images and one more token, and the tokens generated so far. -/
def twoImages (requestId first : String) (numGenerated numComputedTokens : ℕ) : Request where
  requestId := requestId
  allTokenIds := List.replicate (3 + numGenerated) 0
  mmPositions := [⟨0, 1⟩, ⟨1, 1⟩]
  mmHashes := [first, "z"]
  numComputedTokens := numComputedTokens

/-- Both requests generate one token, which completes their first block. -/
def twoImagesCalls : List Call :=
  [.allocateComputed (twoImages "x" "a" 0 0) 3 0 false,
    .allocateSlots (twoImages "x" "a" 1 3) 1 0 false,
    .allocateComputed (twoImages "y" "b" 0 0) 3 0 false,
    .allocateSlots (twoImages "y" "b" 1 3) 1 0 false]

/-- A prompt of seven tokens with two items, an adapter and a salt, and the tokens generated so
far. -/
def tagged (requestId : String) (numGenerated numComputedTokens : ℕ) : Request where
  requestId := requestId
  allTokenIds := List.replicate (7 + numGenerated) 0
  loraIntId := some 7
  cacheSalt := some "salt"
  mmPositions := [⟨1, 2⟩, ⟨5, 2⟩]
  mmHashes := ["u", "v"]
  numComputedTokens := numComputedTokens

/-- The prompt, whose first block is hashed for the lookup, and a token that completes the second
block. -/
def taggedCalls (requestId : String) : List Call :=
  [.allocateComputed (tagged requestId 0 0) 7 0 false,
    .allocateSlots (tagged requestId 1 7) 1 0 false]

theorem isolating_taggedCalls {s s' : KVCacheManager} {requestId : String}
    (hnew : new (fullOnly 12) 100 true false false = .ok s)
    (hfirst : ∀ s₁, s.call encodedHash (.allocateComputed (tagged requestId 0 0) 7 0 false) =
      .ok s₁ → (s₁.1.reqToBlockHashes requestId).length = 1 ∧ s₁.1.blockSize = some 4)
    (hrun : Transition.Execution (NullFreeStep encodedHash) s (taggedCalls requestId) s') :
    Transition.Execution (IsolatingStep encodedHash) (s, fun id => tagged id 1 7)
      (taggedCalls requestId) (s', fun id => tagged id 1 7) := by
  obtain ⟨s₁, hrun₁, hlast⟩ := Transition.Execution.concat_iff.mp
    (show Transition.Execution _ s ([_] ++ [_]) s' from hrun)
  have hstep₁ := Transition.Execution.single_iff.mp hrun₁
  have hsnap : ∀ numGenerated numComputedTokens, numGenerated ≤ 1 →
      (tagged requestId numGenerated numComputedTokens).SnapshotOf (tagged requestId 1 7) := by
    intro numGenerated numComputedTokens hle
    refine ⟨7 + numGenerated, numComputedTokens, ?_⟩
    simp only [tagged, take_replicate, min_eq_left (Nat.add_le_add_left hle 7)]
  have hsorted : ∀ numGenerated numComputedTokens,
      (tagged requestId numGenerated numComputedTokens).MmSorted := by
    intro _ _
    simp [Request.MmSorted, tagged]
  have hisolating₁ : IsolatingStep encodedHash (s, fun id => tagged id 1 7)
      (.allocateComputed (tagged requestId 0 0) 7 0 false) (s₁, fun id => tagged id 1 7) := by
    refine ⟨hstep₁, ?_, ?_, fun _ _ => rfl⟩
    · rintro _ ⟨⟩
      exact ⟨hsnap 0 0 zero_le_one, hsorted 0 0⟩
    · obtain ⟨-, -, -, hhashes, -⟩ := new_eq_ok hnew
      rintro (hlogprobs | hknown)
      · cases hlogprobs
      · exact absurd (hhashes _) hknown
  have hisolating₂ : IsolatingStep encodedHash (s₁, fun id => tagged id 1 7)
      (.allocateSlots (tagged requestId 1 7) 1 0 false) (s', fun id => tagged id 1 7) := by
    refine ⟨hlast, ?_, ?_, fun _ _ => rfl⟩
    · rintro _ ⟨⟩
      exact ⟨hsnap 1 7 le_rfl, hsorted 1 7⟩
    · obtain ⟨-, _, hcall⟩ := hstep₁
      obtain ⟨hlength, hsize⟩ := hfirst _ hcall
      intro blockSize hblock j hj hlt k pos hpos hk
      cases hsize.symm.trans hblock
      -- the second block is the first one without a hash, and the first item starts before it
      have hj : 1 ≤ j := hlength ▸ hj
      obtain rfl : k = 0 := by
        have hk : k + 1 < 2 := hk
        omega
      cases hpos
      exact .inl (show 1 < j * 4 by omega)
  exact .append (.single hisolating₁) (.single hisolating₂)

end Example

end Kv
