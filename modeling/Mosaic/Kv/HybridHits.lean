import Mosaic.Kv.SlidingWindow

/-!
# Hits of hybrid models

Where some layers attend to all tokens and others to a window or to the current chunk, the others
are searched within the hits of full attention, and the hits of full attention are cut to what is
found. The blocks that a type of layers attends to depend on the length of the hit, which the search
does not know when it starts. It turns out that they are among those that were looked up.
-/

namespace Kv

open List

/-- A query at position `h` attends to the token at position `t` before it. -/
def KVCacheSpec.Attends : KVCacheSpec → ℕ → ℕ → Prop
  | .fullAttention _ _ _, _, _ => True
  | .slidingWindow _ window, h, t => h < t + window
  | .chunkedLocalAttention _ attentionChunkSize, h, t =>
    t / attentionChunkSize = h / attentionChunkSize
  | .mamba _ _ _ _ _, _, _ => True

/-- A block is a cached one if the next query attends to one of its tokens. -/
def Covers (p : BlockPool) (hs : List BlockHash) (spec : KVCacheSpec) (n group i b : ℕ) : Prop :=
  ∀ t, t / spec.blockSize = i → spec.Attends (n * spec.blockSize) t → HitAt p hs group i b

variable {p : BlockPool} {hs : List BlockHash} {groupIds : List ℕ} {maxLength : ℕ}

theorem covers_fullAttentionHit (p : BlockPool) (hs : List BlockHash) (maxLength : ℕ)
    (groupIds : List ℕ) (blockSize : ℕ) (useEagle : Bool) :
    ∃ n ≤ maxLength / blockSize, n ≤ hs.length ∧ Rows (HitAt p hs) n groupIds
      (fullAttentionHit p hs maxLength groupIds blockSize useEagle) := by
  obtain ⟨n, hrows, hfound, -⟩ :=
    rows_fullAttentionHit p hs maxLength groupIds blockSize useEagle
  have hle : n ≤ maxLength / blockSize ∧ n ≤ hs.length := by
    cases n with
    | zero => exact ⟨Nat.zero_le _, Nat.zero_le _⟩
    | succ n =>
      obtain ⟨hlt, h, hh, -⟩ := hfound n n.lt_succ_self
      exact ⟨hlt, (List.getElem?_eq_some_iff.mp hh).1⟩
  refine ⟨_, ?_, ?_, hrows⟩
  · split <;> omega
  · split <;> omega

/-- The blocks that a window reaches back to. -/
theorem le_add_cdiv {blockSize window n t : ℕ} (hblock : 0 < blockSize)
    (h : n * blockSize < t + window) : n ≤ t / blockSize + cdiv (window - 1) blockSize := by
  by_contra hlt
  have hwindow : window - 1 ≤ cdiv (window - 1) blockSize * blockSize := by
    have hmod := Nat.mod_lt (window - 1 + blockSize - 1) hblock
    have hdiv := Nat.div_add_mod (window - 1 + blockSize - 1) blockSize
    rw [cdiv, Nat.mul_comm]
    omega
  have hblocks : (t / blockSize + 1 + cdiv (window - 1) blockSize) * blockSize ≤ n * blockSize :=
    Nat.mul_le_mul_right _ (by omega)
  have hnext : t < (t / blockSize + 1) * blockSize := by
    rw [Nat.mul_comm]
    exact Nat.lt_mul_div_succ t hblock
  rw [Nat.add_mul] at hblocks
  omega

theorem covers_slidingWindowHit (hgroups : groupIds ≠ []) {attn : AttentionSpec} {window : ℕ}
    {useEagle : Bool} (hblock : 0 < attn.blockSize)
    (hlength : maxLength / attn.blockSize ≤ hs.length) :
    ∃ hits, ∃ n ≤ maxLength / attn.blockSize,
      slidingWindowHit p hs maxLength groupIds attn.blockSize window useEagle = .ok hits ∧
      Rows (Covers p hs (.slidingWindow attn window) n) n groupIds hits := by
  obtain ⟨hits, _, hok, hgreatest, hrows⟩ := @slidingWindowHit_greatest p _ _ _ _ window
    useEagle hgroups hlength
  refine ⟨hits, _, ?_, hok, hrows.imp fun g _ i b hb t ht hattends => ?_⟩
  · have := hgreatest.1.1
    split <;> omega
  · refine hb.2 ?_
    rw [← ht]
    exact le_add_cdiv hblock hattends

/-- The loop over the current chunk stops at the first hash that is missing. -/
theorem chunkedLoop_rows {start n i : ℕ} {computed : List (List ℕ)} (hlength : i + n ≤ hs.length)
    (h : Rows (fun g j b => start ≤ j → HitAt p hs g j b) i groupIds computed) :
    ∃ hits m, i ≤ m ∧ m ≤ i + n ∧ chunkedLoop p groupIds hs n i computed = .ok hits ∧
      Rows (fun g j b => start ≤ j → HitAt p hs g j b) m groupIds hits := by
  induction n generalizing i computed with
  | zero => exact ⟨computed, i, le_rfl, le_rfl, rfl, h⟩
  | succ n ih =>
    have hget : hs[i]? = some hs[i] := getElem?_eq_getElem (by omega)
    rw [chunkedLoop, hget]
    dsimp only
    cases hrow : cachedRow p groupIds hs[i] with
    | none => exact ⟨computed, i, le_rfl, Nat.le_add_right _ _, rfl, h⟩
    | some row =>
      obtain ⟨hits, m, hle, hle', hok, hrows⟩ := ih (by omega)
        (h.appendRow ((hitAt_cachedRow hget hrow).imp fun _ _ hb _ => hb))
      exact ⟨hits, m, by omega, by omega, hok, hrows⟩

theorem covers_chunkedLocalAttentionHit {attn : AttentionSpec} {attentionChunkSize : ℕ}
    (hblock : 0 < attn.blockSize) (hchunk : attn.blockSize ∣ attentionChunkSize)
    (hlength : maxLength / attn.blockSize ≤ hs.length) :
    ∃ hits, ∃ n ≤ maxLength / attn.blockSize,
      chunkedLocalAttentionHit p hs maxLength groupIds attn.blockSize attentionChunkSize false =
        .ok hits ∧
      Rows (Covers p hs (.chunkedLocalAttention attn attentionChunkSize) n) n groupIds hits := by
  set start := maxLength / attentionChunkSize * attentionChunkSize / attn.blockSize with hstart
  have hle : start ≤ maxLength / attn.blockSize :=
    Nat.div_le_div_right (Nat.div_mul_le_self _ _)
  have hnone : Rows (fun g j b => start ≤ j → HitAt p hs g j b) start groupIds
      (groupIds.map fun _ => List.replicate start p.nullBlock) := by
    have hnull : ∀ g j : ℕ, NullOrHit p hs g j p.nullBlock := fun _ _ => .inl rfl
    exact (rows_replicate hnull groupIds).imp_lt fun g j b hlt _ hge => absurd hlt (by omega)
  obtain ⟨hits, m, hge, hm, hok, hrows⟩ :=
    chunkedLoop_rows (n := maxLength / attn.blockSize - start) (by omega) hnone
  refine ⟨hits, m, by omega, hok, hrows.imp fun g _ i b hb t ht hattends => hb ?_⟩
  -- the end of the hit is in the chunk of the end of the search
  have hbase : start * attn.blockSize = maxLength / attentionChunkSize * attentionChunkSize :=
    Nat.div_mul_cancel (Nat.dvd_mul_left_of_dvd hchunk _)
  have hlower : maxLength / attentionChunkSize * attentionChunkSize ≤ m * attn.blockSize :=
    hbase ▸ Nat.mul_le_mul_right _ hge
  have hupper : m * attn.blockSize ≤ maxLength :=
    (Nat.mul_le_mul_right _ (by omega)).trans (Nat.div_mul_le_self _ _)
  have hattends : t / attentionChunkSize = m * attn.blockSize / attentionChunkSize := hattends
  rw [← ht]
  change start ≤ t / attn.blockSize
  rw [Nat.le_div_iff_mul_le hblock, hbase]
  rcases Nat.eq_zero_or_pos attentionChunkSize with hzero | hpos
  · simp [hzero]
  · have hsame : m * attn.blockSize / attentionChunkSize = maxLength / attentionChunkSize :=
      le_antisymm (Nat.div_le_div_right hupper) ((Nat.le_div_iff_mul_le hpos).mpr hlower)
    rw [← hsame, ← hattends]
    exact Nat.div_mul_le_self _ _

/-! ### The hit of all groups -/

/-- Layers that a hybrid model may have. Chunks are whole blocks. -/
def KVCacheSpec.Hybrid : KVCacheSpec → Prop
  | .fullAttention attn _ _ => 0 < attn.blockSize
  | .slidingWindow attn _ => 0 < attn.blockSize
  | .chunkedLocalAttention attn attentionChunkSize =>
    0 < attn.blockSize ∧ 0 < attentionChunkSize ∧ attn.blockSize ∣ attentionChunkSize
  | .mamba _ _ _ _ _ => False

/-- Layers of this type attend to chunks. -/
def KVCacheSpec.isChunked : KVCacheSpec → Bool
  | .chunkedLocalAttention _ _ => true
  | _ => false

theorem KVCacheSpec.Hybrid.blockSize_pos {spec : KVCacheSpec} (h : spec.Hybrid) :
    0 < spec.blockSize := by
  cases spec with
  | fullAttention attn _ _ => exact h
  | slidingWindow attn _ => exact h
  | chunkedLocalAttention attn _ => exact h.1
  | mamba _ _ _ _ _ => exact h.elim

/-- What is found for a group: blocks for exactly `h` tokens, and a cached one for each token that
the next query attends to. -/
def HitSound (p : BlockPool) (hs : List BlockHash) (h g : ℕ) (spec : KVCacheSpec) (l : List ℕ) :
    Prop :=
  l.length * spec.blockSize = h ∧ ∀ t < h, spec.Attends h t →
    ∃ b, l[t / spec.blockSize]? = some b ∧ HitAt p hs g (t / spec.blockSize) b

/-- The search for the layers that do not attend to all tokens. -/
theorem covers_findLongestCacheHit (hgroups : groupIds ≠ []) {spec : KVCacheSpec} {useEagle : Bool}
    (hspec : spec.Hybrid) (hfull : spec.isFullAttention = false)
    (heagle : useEagle = true → spec.isChunked = false)
    (hlength : maxLength / spec.blockSize ≤ hs.length) :
    ∃ hits, ∃ n ≤ maxLength / spec.blockSize,
      findLongestCacheHit p hs maxLength groupIds useEagle spec = .ok hits ∧
      Rows (Covers p hs spec n) n groupIds hits := by
  cases spec with
  | fullAttention attn _ _ => cases hfull
  | slidingWindow attn window => exact covers_slidingWindowHit hgroups hspec hlength
  | chunkedLocalAttention attn attentionChunkSize =>
    have hoff : useEagle = false := by
      cases useEagle with
      | false => rfl
      | true => cases heagle rfl
    rw [hoff]
    exact covers_chunkedLocalAttentionHit hspec.1 hspec.2.2 hlength
  | mamba _ _ _ _ _ => exact hspec.elim

/-- Lists of cached blocks where they are needed are sound. -/
theorem Rows.hitSound {Good : ℕ → ℕ → ℕ → Prop} {n h : ℕ} {kvCacheSpec : KVCacheSpec}
    {spec : ℕ → KVCacheSpec} {hits : List (List ℕ)} (hrows : Rows Good n groupIds hits)
    (hspec : ∀ g ∈ groupIds, spec g = kvCacheSpec) (hn : n * kvCacheSpec.blockSize = h)
    (hgood : ∀ g i b, Good g i b → Covers p hs kvCacheSpec n g i b) :
    List.Forall₂ (fun g l => HitSound p hs h g (spec g) l) groupIds hits := by
  induction hrows with
  | nil => exact .nil
  | @cons g l groupIds hits hl _ ih =>
    refine .cons ?_ (ih fun g hg => hspec g (mem_cons_of_mem _ hg))
    rw [hspec g mem_cons_self]
    refine ⟨by rw [hl.1, hn], fun t ht hattends => ?_⟩
    have hlt : t / kvCacheSpec.blockSize < l.length := by
      rw [hl.1]
      exact Nat.div_lt_of_lt_mul (by rwa [Nat.mul_comm, hn])
    have hget : l[t / kvCacheSpec.blockSize]? = some l[t / kvCacheSpec.blockSize] :=
      getElem?_eq_getElem hlt
    exact ⟨_, hget, hgood g _ _ (hl.2 _ _ hget) t rfl (by rwa [hn])⟩

/-- The other block size is a multiple of that of full attention. -/
theorem Coordinator.hybrid_of_verify {specs : List KVCacheSpec} {c : Coordinator}
    (hok : verifyAndSplitKvCacheGroups specs = .ok c) :
    ∃ fullIds otherIds fullSpec otherSpec fullAttnFirst,
      c = .hybrid fullIds otherIds fullSpec otherSpec fullAttnFirst ∧
        fullSpec.blockSize ∣ otherSpec.blockSize := by
  obtain ⟨⟨_, _⟩, -, hok⟩ := Fallible.bind_eq_ok.mp hok
  dsimp only at hok
  split at hok
  · cases hok
  · cases hok
  · split at hok
    · cases hok
    · rename_i hdivides
      have hdvd := Nat.dvd_of_mod_eq_zero (not_not.mp hdivides)
      split at hok
      · exact ⟨_, _, _, _, _, (Except.ok.inj hok).symm, hdvd⟩
      · split at hok
        · exact ⟨_, _, _, _, _, (Except.ok.inj hok).symm, hdvd⟩
        · cases hok

/-- What is related to the numbers below `n` has a part for each of them. -/
theorem exists_of_forall₂_range {α : Type} {R : ℕ → α → Prop} {n g : ℕ} {l : List α}
    (h : List.Forall₂ R (List.range n) l) (hg : g < n) : ∃ x, l[g]? = some x ∧ R g x := by
  have hlt : g < l.length := by
    rwa [← h.length_eq, length_range]
  have hget := h.get (by rwa [length_range]) hlt
  rw [get_eq_getElem, getElem_range] at hget
  exact ⟨_, getElem?_eq_getElem hlt, hget⟩

/-- The hit of a hybrid model: its length is at most the one asked for, whole blocks for all
groups, and every token that the next query attends to is in a cached block of its position. -/
theorem hybridHit_sound {specs : List KVCacheSpec} {c : Coordinator} {useEagle : Bool}
    (hok : Coordinator.verifyAndSplitKvCacheGroups specs = .ok c)
    (hspecs : ∀ spec ∈ specs, spec.Hybrid)
    (heagle : useEagle = true → ∀ spec ∈ specs, spec.isChunked = false) :
    ∃ hits h, c.findLongestCacheHit p specs.length useEagle hs maxLength = .ok (hits, h) ∧
      h ≤ maxLength ∧ hits.length = specs.length ∧
      (∀ spec ∈ specs, spec.blockSize ∣ h) ∧
      ∀ g spec, specs[g]? = some spec → ∃ l, hits[g]? = some l ∧ HitSound p hs h g spec l := by
  set spec : ℕ → KVCacheSpec := fun g => specs.getD g (.mamba 0 [] .float32 none "") with hspec
  have hget : ∀ j x, specs[j]? = some x → spec j = x := by
    intro j x hj
    simp only [hspec, getD_eq_getElem?_getD, hj, Option.getD_some]
  have hwell := Coordinator.wellFormed_verifyAndSplitKvCacheGroups hget hok
  obtain ⟨fullIds, otherIds, fullSpec, otherSpec, fullAttnFirst, rfl, hdvd⟩ :=
    Coordinator.hybrid_of_verify hok
  obtain ⟨hids, hfullIds, hotherIds, hfullNe, hotherNe, -, hnotFull⟩ := hwell
  -- both specifications are those of groups
  have hmem : ∀ g ∈ fullIds ++ otherIds, spec g ∈ specs := by
    intro g hg
    have hlt : g < specs.length := by
      rw [← mem_range, ← hids]
      cases fullAttnFirst
      · exact (perm_append_comm.mem_iff).mp hg
      · exact hg
    rw [hget g _ (getElem?_eq_getElem hlt)]
    exact getElem_mem hlt
  obtain ⟨f, hf⟩ := exists_mem_of_ne_nil _ hfullNe
  obtain ⟨o, ho⟩ := exists_mem_of_ne_nil _ hotherNe
  have hfullMem : fullSpec ∈ specs := hfullIds f hf ▸ hmem f (mem_append_left _ hf)
  have hotherMem : otherSpec ∈ specs := hotherIds o ho ▸ hmem o (mem_append_right _ ho)
  have hfullPos := (hspecs _ hfullMem).blockSize_pos
  have hotherPos := (hspecs _ hotherMem).blockSize_pos
  have hle := Nat.le_of_dvd hotherPos hdvd
  -- the hits of full attention, and within them those of the other layers
  obtain ⟨n, hn, hnlength, hrows⟩ :=
    covers_fullAttentionHit p hs maxLength fullIds fullSpec.blockSize useEagle
  have hlength : n * fullSpec.blockSize / otherSpec.blockSize ≤ hs.length := by
    refine le_trans ?_ hnlength
    rw [Nat.div_le_iff_le_mul_add_pred hotherPos, Nat.mul_comm otherSpec.blockSize]
    exact (Nat.mul_le_mul_left n hle).trans (Nat.le_add_right _ _)
  obtain ⟨otherHits, m, hm, hotherHits, hotherRows⟩ := covers_findLongestCacheHit (p := p) hotherNe
    (hspecs _ hotherMem) hnotFull (fun h => heagle h _ hotherMem) hlength
  have hmn : m * otherSpec.blockSize ≤ n * fullSpec.blockSize :=
    (Nat.mul_le_mul_right _ hm).trans (Nat.div_mul_le_self _ _)
  have hdvdHit : fullSpec.blockSize ∣ m * otherSpec.blockSize :=
    Nat.dvd_mul_left_of_dvd hdvd m
  have htake : m * otherSpec.blockSize / fullSpec.blockSize ≤ n := by
    have := Nat.div_le_div_right (c := fullSpec.blockSize) hmn
    rwa [Nat.mul_div_cancel _ hfullPos] at this
  have hfullRows := hrows.map_take (m * otherSpec.blockSize / fullSpec.blockSize)
  rw [Nat.min_eq_left htake] at hfullRows
  have hfullSound := hfullRows.hitSound hfullIds (Nat.div_mul_cancel hdvdHit)
    fun g i b hb t _ _ => hb
  have hotherSound := hotherRows.hitSound hotherIds rfl fun g i b hb => hb
  -- both are put together in the order of the groups
  have hrun : (Coordinator.hybrid fullIds otherIds fullSpec otherSpec
      fullAttnFirst).findLongestCacheHit p specs.length useEagle hs maxLength =
      .ok (if fullAttnFirst then
          (fullAttentionHit p hs maxLength fullIds fullSpec.blockSize useEagle).map
            (List.take (m * otherSpec.blockSize / fullSpec.blockSize)) ++ otherHits
        else otherHits ++
          (fullAttentionHit p hs maxLength fullIds fullSpec.blockSize useEagle).map
            (List.take (m * otherSpec.blockSize / fullSpec.blockSize)),
        m * otherSpec.blockSize) := by
    rw [Coordinator.findLongestCacheHit, hrows.length_head hfullNe]
    refine Fallible.bind_eq_ok.mpr ⟨otherHits, hotherHits, ?_⟩
    rw [hotherRows.length_head hotherNe,
      if_neg (not_not.mpr (Nat.mod_eq_zero_of_dvd hdvdHit))]
  have hsound : List.Forall₂ (fun g l => HitSound p hs (m * otherSpec.blockSize) g (spec g) l)
      (List.range specs.length) (if fullAttnFirst then
          (fullAttentionHit p hs maxLength fullIds fullSpec.blockSize useEagle).map
            (List.take (m * otherSpec.blockSize / fullSpec.blockSize)) ++ otherHits
        else otherHits ++
          (fullAttentionHit p hs maxLength fullIds fullSpec.blockSize useEagle).map
            (List.take (m * otherSpec.blockSize / fullSpec.blockSize))) := by
    rw [← hids]
    cases fullAttnFirst with
    | true => exact rel_append hfullSound hotherSound
    | false => exact rel_append hotherSound hfullSound
  have hbound : n * fullSpec.blockSize ≤ maxLength :=
    (Nat.mul_le_mul_right _ hn).trans (Nat.div_mul_le_self _ _)
  refine ⟨_, _, hrun, hmn.trans hbound, hsound.length_eq.symm.trans length_range, ?_, ?_⟩
  · intro x hx
    obtain ⟨g, hlt, rfl⟩ := getElem_of_mem hx
    obtain ⟨l, -, hl⟩ := exists_of_forall₂_range hsound hlt
    rw [← hget g _ (getElem?_eq_getElem hlt)]
    exact hl.1 ▸ Nat.dvd_mul_left _ _
  · intro g x hx
    obtain ⟨l, hl, hgood⟩ := exists_of_forall₂_range hsound (List.getElem?_eq_some_iff.mp hx).1
    exact ⟨l, hl, hget g x hx ▸ hgood⟩

/-- Heads of one entry, in blocks of one token. -/
def oneToken : AttentionSpec := ⟨1, 1, 1, .float32, false⟩

/-- A layer that attends to all tokens, and one that attends to the last two. -/
def fullAndWindow : List KVCacheSpec :=
  [.fullAttention oneToken none none, .slidingWindow oneToken 2]

/-- The first of two blocks is cached for both layers: the hit is one block of each, and each is the
block cached for the first token. -/
theorem hybridHit_sound_first : ∃ p c pool, BlockPool.new 3 true false = .ok p ∧
    Coordinator.verifyAndSplitKvCacheGroups fullAndWindow = .ok c ∧
    pool = (p.insertCached 1 ⟨hashBlockTokens encodedHash none [7] none, 0⟩).insertCached 2
      ⟨hashBlockTokens encodedHash none [7] none, 1⟩ ∧
    c.findLongestCacheHit pool 2 false twoHashes 2 = .ok ([[1], [2]], 1) ∧
    HitAt pool twoHashes 0 0 1 ∧ HitAt pool twoHashes 1 0 2 := by
  obtain ⟨p, hp⟩ : ∃ p, BlockPool.new 3 true false = .ok p := ⟨_, rfl⟩
  obtain ⟨c, hc⟩ : ∃ c, Coordinator.verifyAndSplitKvCacheGroups fullAndWindow = .ok c := ⟨_, rfl⟩
  obtain ⟨hits, h, hok, -, -, -, hsound⟩ := @hybridHit_sound ((p.insertCached 1
    ⟨hashBlockTokens encodedHash none [7] none, 0⟩).insertCached 2
    ⟨hashBlockTokens encodedHash none [7] none, 1⟩) twoHashes 2 fullAndWindow c false hc
    (by simp [fullAndWindow, oneToken, KVCacheSpec.Hybrid]) Bool.noConfusion
  have hhit : c.findLongestCacheHit ((p.insertCached 1
      ⟨hashBlockTokens encodedHash none [7] none, 0⟩).insertCached 2
      ⟨hashBlockTokens encodedHash none [7] none, 1⟩) 2 false twoHashes 2 =
        .ok ([[1], [2]], 1) := by
    cases hp
    cases hc
    rfl
  cases hok.symm.trans hhit
  obtain ⟨_, hfull, -, hcovers⟩ := hsound 0 _ rfl
  obtain ⟨_, hwindow, -, hcovers'⟩ := hsound 1 _ rfl
  cases hfull
  cases hwindow
  -- the next query is at position 1, and both layers attend to position 0
  obtain ⟨_, hb, hat⟩ := hcovers 0 Nat.zero_lt_one trivial
  obtain ⟨_, hb', hat'⟩ := hcovers' 0 Nat.zero_lt_one (by decide : 1 < 0 + 2)
  cases hb
  cases hb'
  exact ⟨p, c, _, hp, hc, rfl, hhit, hat, hat'⟩

end Kv
