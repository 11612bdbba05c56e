import Mosaic.Kv.KVCacheManager

/-!
# What a cache hit is

A hit gives each group a list of blocks for the leading positions of a request. A block of it is
the null block, which full attention never gets, or the first block that is cached under the hash
of its position.
-/

namespace Kv

open List Fallible

/-- The block is the first one that is cached for the group under the hash of the position. -/
def HitAt (p : BlockPool) (hs : List BlockHash) (group i b : ℕ) : Prop :=
  ∃ h, hs[i]? = some h ∧ (p.cachedBlockHashToBlock ⟨h, group⟩).head? = some b

/-- Lists of the same length for all groups, each block of which is fine at its position. -/
def Rows (Good : ℕ → ℕ → ℕ → Prop) (n : ℕ) (groupIds : List ℕ) (computed : List (List ℕ)) : Prop :=
  List.Forall₂ (fun g l => l.length = n ∧ ∀ i b, l[i]? = some b → Good g i b) groupIds computed

section Rows

variable {Good Good' : ℕ → ℕ → ℕ → Prop} {n : ℕ} {groupIds : List ℕ} {computed : List (List ℕ)}

theorem Rows.imp (h : Rows Good n groupIds computed)
    (himp : ∀ g ∈ groupIds, ∀ i b, Good g i b → Good' g i b) : Rows Good' n groupIds computed := by
  induction h with
  | nil => exact .nil
  | cons hl _ ih =>
    refine .cons ⟨hl.1, ?_⟩ (ih fun g hg => himp g (mem_cons_of_mem _ hg))
    intro i b hb
    exact himp _ mem_cons_self i b (hl.2 i b hb)

/-- Only positions that the lists have count. -/
theorem Rows.imp_lt (h : Rows Good n groupIds computed)
    (himp : ∀ g i b, i < n → Good g i b → Good' g i b) : Rows Good' n groupIds computed := by
  induction h with
  | nil => exact .nil
  | cons hl _ ih =>
    refine .cons ⟨hl.1, ?_⟩ ih
    intro i b hb
    have hlt := (List.getElem?_eq_some_iff.mp hb).1
    exact himp _ i b (hl.1 ▸ hlt) (hl.2 i b hb)

theorem Rows.length_head (h : Rows Good n groupIds computed) (hne : groupIds ≠ []) :
    (computed.headD []).length = n := by
  cases h with
  | nil => exact absurd rfl hne
  | cons hl _ => exact hl.1

theorem rows_nil (Good : ℕ → ℕ → ℕ → Prop) (groupIds : List ℕ) :
    Rows Good 0 groupIds (groupIds.map fun _ => []) := by
  induction groupIds with
  | nil => exact .nil
  | cons g groupIds ih => exact .cons ⟨rfl, nofun⟩ ih

theorem rows_replicate {b : ℕ} (hgood : ∀ g i, Good g i b) (groupIds : List ℕ) :
    Rows Good n groupIds (groupIds.map fun _ => List.replicate n b) := by
  induction groupIds with
  | nil => exact .nil
  | cons g groupIds ih =>
    refine .cons ⟨length_replicate, ?_⟩ ih
    intro i b' hb'
    obtain rfl := (eq_of_mem_replicate (mem_of_getElem? hb'))
    exact hgood g i

section

variable (h : Rows Good n groupIds computed)
include h

theorem Rows.map_take (k : ℕ) : Rows Good (min k n) groupIds (computed.map (List.take k)) := by
  induction h with
  | nil => exact .nil
  | cons hl _ ih =>
    refine .cons ⟨by rw [List.length_take, hl.1], ?_⟩ ih
    intro i b hb
    rw [getElem?_take] at hb
    split at hb
    · exact hl.2 i b hb
    · cases hb

theorem Rows.map_dropLast : Rows Good (n - 1) groupIds (computed.map List.dropLast) := by
  induction h with
  | nil => exact .nil
  | cons hl _ ih =>
    refine .cons ⟨by rw [length_dropLast, hl.1], ?_⟩ ih
    intro i b hb
    rw [dropLast_eq_take, getElem?_take] at hb
    split at hb
    · exact hl.2 i b hb
    · cases hb

theorem Rows.appendRow {row : List ℕ} (hrow : List.Forall₂ (fun g b => Good g n b) groupIds row) :
    Rows Good (n + 1) groupIds (appendRow computed row) := by
  induction h generalizing row with
  | nil =>
    cases hrow
    exact .nil
  | cons hl _ ih =>
    cases hrow with
    | cons hb hrow =>
      refine .cons ⟨by rw [length_append, hl.1, length_singleton], ?_⟩ (ih hrow)
      intro i b hb'
      rw [getElem?_append, hl.1] at hb'
      split at hb'
      · exact hl.2 i b hb'
      · obtain ⟨hlt, rfl⟩ := List.getElem?_eq_some_iff.mp hb'
        obtain rfl : i = n := by
          rw [length_singleton] at hlt
          omega
        simpa using hb

/-- A block is put at position `j` of every list. -/
theorem Rows.setRow_imp {row : List ℕ} {j : ℕ}
    (hrow : List.Forall₂ (fun g b => Good' g j b) groupIds row)
    (himp : ∀ g i b, i ≠ j → Good g i b → Good' g i b) :
    Rows Good' n groupIds (List.zipWith (fun l b => l.set j b) computed row) := by
  induction h generalizing row with
  | nil =>
    cases hrow
    exact .nil
  | cons hl _ ih =>
    cases hrow with
    | cons hb hrow =>
      refine .cons ⟨by rw [length_set, hl.1], ?_⟩ (ih hrow)
      intro i b hb'
      rw [getElem?_set] at hb'
      split at hb'
      · rename_i hij
        split at hb'
        · cases hb'
          exact hij ▸ hb
        · cases hb'
      · rename_i hij
        exact himp _ i b (Ne.symm hij) (hl.2 i b hb')

theorem Rows.setRow {row : List ℕ} {j : ℕ}
    (hrow : List.Forall₂ (fun g b => Good g j b) groupIds row) :
    Rows Good n groupIds (List.zipWith (fun l b => l.set j b) computed row) :=
  h.setRow_imp hrow fun _ _ _ _ hb => hb

end

end Rows

section Search

variable {p : BlockPool} {hs : List BlockHash} {groupIds : List ℕ}

theorem getCachedBlock_cons (h : BlockHash) (g : ℕ) (groupIds : List ℕ) :
    p.getCachedBlock h (g :: groupIds) = (p.cachedBlockHashToBlock ⟨h, g⟩).head?.bind fun b =>
      (p.getCachedBlock h groupIds).bind fun row => some (b :: row) := by
  unfold BlockPool.getCachedBlock
  rw [mapM_cons]
  rfl

theorem getCachedBlock_eq_some {h : BlockHash} {row : List ℕ}
    (hrow : p.getCachedBlock h groupIds = some row) :
    List.Forall₂ (fun g b => (p.cachedBlockHashToBlock ⟨h, g⟩).head? = some b) groupIds row := by
  induction groupIds generalizing row with
  | nil =>
    cases hrow
    exact .nil
  | cons g groupIds ih =>
    simp only [getCachedBlock_cons, Option.bind_eq_some_iff, Option.some.injEq] at hrow
    obtain ⟨b, hb, _, hrest, rfl⟩ := hrow
    exact .cons hb (ih hrest)

theorem cachedRow_eq_some {h : BlockHash} {row : List ℕ}
    (hrow : cachedRow p groupIds h = some row) :
    List.Forall₂ (fun g b => (p.cachedBlockHashToBlock ⟨h, g⟩).head? = some b) groupIds row := by
  unfold cachedRow at hrow
  split at hrow
  · rename_i hget
    cases hrow
    exact getCachedBlock_eq_some hget
  · cases hrow

/-- A row is found iff every group has a block. -/
theorem cachedRow_isSome_iff (hne : groupIds ≠ []) (h : BlockHash) :
    (cachedRow p groupIds h).isSome ↔ ∀ g ∈ groupIds, p.cachedBlockHashToBlock ⟨h, g⟩ ≠ [] := by
  have hmapM : ∀ ids : List ℕ, (p.getCachedBlock h ids).isSome ↔
      ∀ g ∈ ids, p.cachedBlockHashToBlock ⟨h, g⟩ ≠ [] := by
    intro ids
    induction ids with
    | nil => simp [BlockPool.getCachedBlock]
    | cons g ids ih =>
      rw [getCachedBlock_cons, forall_mem_cons, ← ih]
      cases p.cachedBlockHashToBlock ⟨h, g⟩ with
      | nil => simp
      | cons b bs => cases p.getCachedBlock h ids <;> simp
  rw [← hmapM groupIds, cachedRow]
  cases hget : p.getCachedBlock h groupIds with
  | none => simp
  | some row =>
    have hlen := (getCachedBlock_eq_some hget).length_eq
    cases row with
    | nil => exact absurd (eq_nil_of_length_eq_zero hlen) hne
    | cons b bs => simp

theorem hitAt_cachedRow {i : ℕ} {h : BlockHash} {row : List ℕ} (hi : hs[i]? = some h)
    (hrow : cachedRow p groupIds h = some row) :
    List.Forall₂ (fun g b => HitAt p hs g i b) groupIds row :=
  (cachedRow_eq_some hrow).imp fun _ _ hb => ⟨h, hi, hb⟩

/-- The loop from position `n` on ends at the first hash that is missing. -/
theorem rows_hitLoop {n k : ℕ} {computed : List (List ℕ)}
    (h : Rows (HitAt p hs) n groupIds computed) :
    ∃ m, n ≤ m ∧ Rows (HitAt p hs) m groupIds (hitLoop p groupIds ((hs.take k).drop n) computed) ∧
      (∀ i, n ≤ i → i < m → i < k ∧ ∃ h, hs[i]? = some h ∧ (cachedRow p groupIds h).isSome) ∧
      (m < k → ∀ h, hs[m]? = some h → cachedRow p groupIds h = none) := by
  generalize hrest : (hs.take k).drop n = rest
  induction rest generalizing n computed with
  | nil =>
    refine ⟨n, le_rfl, h, by omega, ?_⟩
    intro hnk h' hh'
    have hlen := drop_eq_nil_iff.mp hrest
    have hlt := (List.getElem?_eq_some_iff.mp hh').1
    rw [List.length_take] at hlen
    omega
  | cons h' rest ih =>
    have hget : (hs.take k)[n]? = some h' := by
      rw [← head?_drop, hrest]
      rfl
    have hn : n < k ∧ hs[n]? = some h' := by
      rw [getElem?_take] at hget
      split at hget
      · exact ⟨‹_›, hget⟩
      · cases hget
    rw [hitLoop]
    cases hrow : cachedRow p groupIds h' with
    | none =>
      refine ⟨n, le_rfl, h, by omega, ?_⟩
      intro _ h'' hh''
      rw [hn.2] at hh''
      cases hh''
      exact hrow
    | some row =>
      have htail : (hs.take k).drop (n + 1) = rest := by
        rw [← tail_drop, hrest]
        rfl
      obtain ⟨m, hm, hrows, hfound, hmissing⟩ := ih (h.appendRow (hitAt_cachedRow hn.2 hrow)) htail
      refine ⟨m, by omega, hrows, ?_, hmissing⟩
      intro i hni him
      by_cases hin : i = n
      · exact ⟨hin ▸ hn.1, h', hin ▸ hn.2, by rw [hrow]; rfl⟩
      · exact hfound i (by omega) him

theorem rows_dropLastHit {Good : ℕ → ℕ → ℕ → Prop} {n : ℕ} {computed : List (List ℕ)}
    (useEagle : Bool) (h : Rows Good n groupIds computed) :
    Rows Good (if useEagle then n - 1 else n) groupIds (dropLastHit useEagle computed) := by
  unfold dropLastHit
  cases useEagle with
  | false => simpa using h
  | true =>
    by_cases hne : computed.headD [] = []
    · cases h with
      | nil => exact .nil
      | cons hl hrest =>
        have hzero : n = 0 := by
          rw [← hl.1]
          simpa using hne
        subst hzero
        simp only [hne, ne_eq, not_true_eq_false, and_false, if_false, if_true]
        exact .cons hl hrest
    · simp only [ne_eq, hne, not_false_eq_true, and_true, if_true]
      exact h.map_dropLast

/-- Full attention gets the hits up to the first miss. -/
theorem rows_fullAttentionHit (p : BlockPool) (hs : List BlockHash) (maxLength : ℕ)
    (groupIds : List ℕ) (blockSize : ℕ) (useEagle : Bool) :
    ∃ n, Rows (HitAt p hs) (if useEagle then n - 1 else n) groupIds
        (fullAttentionHit p hs maxLength groupIds blockSize useEagle) ∧
      (∀ i, i < n → i < maxLength / blockSize ∧
        ∃ h, hs[i]? = some h ∧ (cachedRow p groupIds h).isSome) ∧
      (n < maxLength / blockSize → ∀ h, hs[n]? = some h → cachedRow p groupIds h = none) := by
  obtain ⟨n, -, hrows, hfound, hmissing⟩ := rows_hitLoop (k := maxLength / blockSize)
    (rows_nil (HitAt p hs) groupIds)
  rw [drop_zero] at hrows
  exact ⟨n, rows_dropLastHit useEagle hrows, fun i hi => hfound i (Nat.zero_le i) hi, hmissing⟩

/-- A block that is not looked up is the null block. -/
def NullOrHit (p : BlockPool) (hs : List BlockHash) (group i b : ℕ) : Prop :=
  b = p.nullBlock ∨ HitAt p hs group i b

theorem rows_slidingWindowLoop {contiguousBlocks i n k : ℕ} {computed hits : List (List ℕ)}
    (h : Rows (NullOrHit p hs) n groupIds computed)
    (hok : slidingWindowLoop p groupIds hs contiguousBlocks i computed k = .ok hits) :
    ∃ m ≤ n, Rows (NullOrHit p hs) m groupIds hits := by
  induction i generalizing computed k with
  | zero =>
    cases hok
    exact ⟨_, min_le_right _ _, h.map_take k⟩
  | succ i ih =>
    rw [slidingWindowLoop] at hok
    split at hok
    · cases hok
    · rename_i h' hh'
      split at hok
      · exact ih h hok
      · rename_i row hrow
        have hset := h.setRow ((hitAt_cachedRow hh' hrow).imp fun _ _ hb => Or.inr hb)
        split at hok
        · cases hok
          exact ⟨_, min_le_right _ _, hset.map_take _⟩
        · exact ih hset hok

theorem rows_chunkedLoop {n i : ℕ} {computed hits : List (List ℕ)}
    (h : Rows (NullOrHit p hs) i groupIds computed)
    (hok : chunkedLoop p groupIds hs n i computed = .ok hits) :
    ∃ m ≤ i + n, Rows (NullOrHit p hs) m groupIds hits := by
  induction n generalizing i computed with
  | zero =>
    cases hok
    exact ⟨i, le_rfl, h⟩
  | succ n ih =>
    rw [chunkedLoop] at hok
    split at hok
    · cases hok
    · rename_i h' hh'
      split at hok
      · cases hok
        exact ⟨i, Nat.le_add_right _ _, h⟩
      · rename_i row hrow
        obtain ⟨m, hm, hrows⟩ :=
          ih (h.appendRow ((hitAt_cachedRow hh' hrow).imp fun _ _ hb => Or.inr hb)) hok
        exact ⟨m, by omega, hrows⟩

theorem rows_fullAttentionHit_le (p : BlockPool) (hs : List BlockHash) (maxLength : ℕ)
    (groupIds : List ℕ) (blockSize : ℕ) (useEagle : Bool) :
    ∃ m ≤ maxLength / blockSize, Rows (HitAt p hs) m groupIds
      (fullAttentionHit p hs maxLength groupIds blockSize useEagle) := by
  obtain ⟨n, hrows, hfound, -⟩ :=
    rows_fullAttentionHit p hs maxLength groupIds blockSize useEagle
  have hle : n ≤ maxLength / blockSize := by
    cases n with
    | zero => exact Nat.zero_le _
    | succ n => exact (hfound n n.lt_succ_self).1
  refine ⟨_, ?_, hrows⟩
  split
  · omega
  · exact hle

theorem rows_findLongestCacheHit {maxLength : ℕ} {useEagle : Bool} {spec : KVCacheSpec}
    {hits : List (List ℕ)}
    (hok : findLongestCacheHit p hs maxLength groupIds useEagle spec = .ok hits) :
    ∃ m ≤ maxLength / spec.blockSize, Rows (NullOrHit p hs) m groupIds hits := by
  have hnull : ∀ g i, NullOrHit p hs g i p.nullBlock := fun _ _ => Or.inl rfl
  cases spec with
  | fullAttention attn slidingWindow attentionChunkSize =>
    cases hok
    obtain ⟨m, hm, hrows⟩ :=
      rows_fullAttentionHit_le p hs maxLength groupIds attn.blockSize useEagle
    exact ⟨m, hm, hrows.imp fun _ _ _ _ hb => Or.inr hb⟩
  | slidingWindow attn window =>
    obtain ⟨computed, hloop, hok⟩ := bind_eq_ok.mp hok
    cases hok
    obtain ⟨m, hm, hrows⟩ := rows_slidingWindowLoop (rows_replicate hnull groupIds) hloop
    refine ⟨_, ?_, rows_dropLastHit useEagle hrows⟩
    split
    · exact (Nat.sub_le m 1).trans hm
    · exact hm
  | chunkedLocalAttention attn attentionChunkSize =>
    rw [findLongestCacheHit, chunkedLocalAttentionHit] at hok
    split at hok
    · cases hok
    · obtain ⟨m, hm, hrows⟩ := rows_chunkedLoop (rows_replicate hnull groupIds) hok
      refine ⟨m, hm.trans_eq (Nat.add_sub_cancel' ?_), hrows⟩
      exact Nat.div_le_div_right (Nat.div_mul_le_self _ _)
  | mamba blockSize shapes dtype pageSizePadded mambaType =>
    cases hok
    exact ⟨0, Nat.zero_le _, rows_nil _ groupIds⟩

end Search

/-! ### All groups -/

/-- Only full attention always has a block. -/
def HitOrSkipped (p : BlockPool) (spec : ℕ → KVCacheSpec) (hs : List BlockHash)
    (group i b : ℕ) : Prop :=
  HitAt p hs group i b ∨ (b = p.nullBlock ∧ (spec group).isFullAttention = false)

/-- The hits of the groups. -/
def Hits (p : BlockPool) (spec : ℕ → KVCacheSpec) (hs : List BlockHash) (numGroups : ℕ)
    (hits : List (List ℕ)) : Prop :=
  List.Forall₂ (fun g l => ∀ i b, l[i]? = some b → HitOrSkipped p spec hs g i b)
    (List.range numGroups) hits

/-- The tokens of `m` blocks fill `m` blocks, also if the blocks are empty. -/
theorem le_mul_div {m maxLength blockSize : ℕ} (hm : m ≤ maxLength / blockSize) :
    m ≤ m * blockSize / blockSize := by
  rcases Nat.eq_zero_or_pos blockSize with rfl | hpos
  · rw [Nat.div_zero] at hm
    omega
  · rw [Nat.mul_div_cancel _ hpos]

/-- Lists of `m` blocks for groups of one type. -/
theorem Rows.hits_bounded {p : BlockPool} {hs : List BlockHash} {spec : ℕ → KVCacheSpec}
    {m hitLength : ℕ} {groupIds : List ℕ} {kvCacheSpec : KVCacheSpec} {hits : List (List ℕ)}
    (h : Rows (HitOrSkipped p spec hs) m groupIds hits)
    (hspec : ∀ g ∈ groupIds, spec g = kvCacheSpec) (hm : m ≤ hitLength / kvCacheSpec.blockSize) :
    List.Forall₂ (fun g l => (∀ i b, l[i]? = some b → HitOrSkipped p spec hs g i b) ∧
      l.length ≤ hitLength / (spec g).blockSize) groupIds hits := by
  induction h with
  | nil => exact .nil
  | cons hl _ ih =>
    refine .cons ⟨hl.2, ?_⟩ (ih fun g hg => hspec g (mem_cons_of_mem _ hg))
    rw [hl.1, hspec _ (mem_cons_self ..)]
    exact hm

namespace Coordinator

/-- The coordinator fits the groups and their specifications. -/
def WellFormed (spec : ℕ → KVCacheSpec) (numGroups : ℕ) : Coordinator → Prop
  | noPrefixCache => True
  | unitary kvCacheSpec => numGroups = 1 ∧ spec 0 = kvCacheSpec
  | hybrid fullIds otherIds fullSpec otherSpec fullAttnFirst =>
    (if fullAttnFirst then fullIds ++ otherIds else otherIds ++ fullIds) = List.range numGroups ∧
      (∀ g ∈ fullIds, spec g = fullSpec) ∧ (∀ g ∈ otherIds, spec g = otherSpec) ∧
      fullIds ≠ [] ∧ otherIds ≠ [] ∧
      fullSpec.isFullAttention = true ∧ otherSpec.isFullAttention = false

section Search

variable {p : BlockPool} {hs : List BlockHash} {spec : ℕ → KVCacheSpec} {numGroups : ℕ}

/-- What the search for layers of one type finds is right for a group of that type. -/
theorem rows_hitOrSkipped {maxLength : ℕ} {groupIds : List ℕ} {useEagle : Bool}
    {kvCacheSpec : KVCacheSpec} {hits : List (List ℕ)}
    (hspec : ∀ g ∈ groupIds, spec g = kvCacheSpec)
    (hok : Kv.findLongestCacheHit p hs maxLength groupIds useEagle kvCacheSpec = .ok hits) :
    ∃ m ≤ maxLength / kvCacheSpec.blockSize,
      Rows (HitOrSkipped p spec hs) m groupIds hits := by
  cases hfull : kvCacheSpec.isFullAttention with
  | true =>
    cases kvCacheSpec with
    | fullAttention attn slidingWindow attentionChunkSize =>
      cases hok
      obtain ⟨m, hm, hrows⟩ :=
        rows_fullAttentionHit_le p hs maxLength groupIds attn.blockSize useEagle
      exact ⟨m, hm, hrows.imp fun _ _ _ _ hb => Or.inl hb⟩
    | _ => cases hfull
  | false =>
    obtain ⟨m, hm, hrows⟩ := rows_findLongestCacheHit hok
    refine ⟨m, hm, hrows.imp ?_⟩
    intro g hg i b hb
    rcases hb with hnull | hhit
    · exact .inr ⟨hnull, by rw [hspec g hg]; exact hfull⟩
    · exact .inl hhit

/-- What is found is right, and the hits of a group have at most as many tokens as the length
that is returned. -/
theorem hits_findLongestCacheHit {c : Coordinator} (hc : c.WellFormed spec numGroups)
    {useEagle : Bool} {maxLength hitLength : ℕ} {hits : List (List ℕ)}
    (hok : c.findLongestCacheHit p numGroups useEagle hs maxLength = .ok (hits, hitLength)) :
    Hits p spec hs numGroups hits ∧ hitLength ≤ maxLength ∧
      List.Forall₂ (fun g l => l.length ≤ hitLength / (spec g).blockSize)
        (List.range numGroups) hits := by
  suffices hboth : hitLength ≤ maxLength ∧
      List.Forall₂ (fun g l => (∀ i b, l[i]? = some b → HitOrSkipped p spec hs g i b) ∧
        l.length ≤ hitLength / (spec g).blockSize) (List.range numGroups) hits from
    ⟨hboth.2.imp fun _ _ hl => hl.1, hboth.1, hboth.2.imp fun _ _ hl => hl.2⟩
  cases c with
  | noPrefixCache =>
    cases hok
    refine ⟨Nat.zero_le _, ?_⟩
    have hempty := rows_nil (HitOrSkipped p spec hs) (List.range numGroups)
    rw [map_const', length_range] at hempty
    exact List.Forall₂.imp (fun _ _ hl => ⟨hl.2, by simp [hl.1]⟩) hempty
  | unitary kvCacheSpec =>
    obtain ⟨rfl, rfl⟩ := hc
    obtain ⟨hits', hfind, hok⟩ := bind_eq_ok.mp hok
    cases hok
    have hzero : ∀ g ∈ [0], spec g = spec 0 := by simp
    obtain ⟨m, hm, hrows⟩ := rows_hitOrSkipped hzero hfind
    rw [hrows.length_head (cons_ne_nil _ _)]
    exact ⟨(Nat.mul_le_mul_right _ hm).trans (Nat.div_mul_le_self _ _),
      hrows.hits_bounded hzero (le_mul_div hm)⟩
  -- The full groups are searched up to the maximal length, and the others up to what these found;
  -- then the full hits are cut to the length of the others.
  | hybrid fullIds otherIds fullSpec otherSpec fullAttnFirst =>
    obtain ⟨hids, hfull, hother, hfullIds, hotherIds, -, hnotFull⟩ := hc
    obtain ⟨otherHits, hfind, hok⟩ := bind_eq_ok.mp hok
    dsimp only at hok
    split at hok
    · cases hok
    · cases hok
      obtain ⟨n, hn, hrows⟩ :=
        rows_fullAttentionHit_le p hs maxLength fullIds fullSpec.blockSize useEagle
      rw [hrows.length_head hfullIds] at hfind
      obtain ⟨m, hm, hotherHits⟩ := rows_hitOrSkipped hother hfind
      rw [hotherHits.length_head hotherIds]
      have hfullHits : Rows (HitOrSkipped p spec hs) _ fullIds _ :=
        (hrows.map_take (m * otherSpec.blockSize / fullSpec.blockSize)).imp
          fun _ _ _ _ hb => Or.inl hb
      refine ⟨?_, ?_⟩
      · calc m * otherSpec.blockSize
            ≤ n * fullSpec.blockSize / otherSpec.blockSize * otherSpec.blockSize :=
              Nat.mul_le_mul_right _ hm
          _ ≤ n * fullSpec.blockSize := Nat.div_mul_le_self _ _
          _ ≤ maxLength / fullSpec.blockSize * fullSpec.blockSize := Nat.mul_le_mul_right _ hn
          _ ≤ maxLength := Nat.div_mul_le_self _ _
      · have hfullLists := hfullHits.hits_bounded hfull (Nat.min_le_left _ _)
        have hotherLists := hotherHits.hits_bounded hother (le_mul_div hm)
        rw [← hids]
        cases fullAttnFirst with
        | true => exact rel_append hfullLists hotherLists
        | false => exact rel_append hotherLists hfullLists

end Search

/-! ### The groups of a new manager -/

section Split

variable {spec : ℕ → KVCacheSpec} {k : ℕ} {full other full' other' : GroupClass}

/-- A class knows the specification of its groups, which are listed in order. -/
structure GroupClass.Describes (c : GroupClass) (spec : ℕ → KVCacheSpec) (isFull : Bool) :
    Prop where
  sorted : c.groupIds.Pairwise (· < ·)
  specs : ∀ g ∈ c.groupIds, c.spec = some (spec g) ∧ (spec g).isFullAttention = isFull
  nonempty : c.spec.isSome → c.groupIds ≠ []

/-- The classes hold the first `k` groups. -/
structure Splits (spec : ℕ → KVCacheSpec) (k : ℕ) (full other : GroupClass) : Prop where
  fullGroups : full.Describes spec true
  otherGroups : other.Describes spec false
  perm : (full.groupIds ++ other.groupIds).Perm (List.range k)

theorem GroupClass.Describes.add {c c' : GroupClass} {isFull : Bool} {message : String}
    (h : c.Describes spec isFull) (hlt : ∀ g ∈ c.groupIds, g < k)
    (hfull : (spec k).isFullAttention = isFull) (hok : c.add k (spec k) message = .ok c') :
    c'.Describes spec isFull ∧ c'.groupIds = c.groupIds ++ [k] := by
  have hsorted : (c.groupIds ++ [k]).Pairwise (· < ·) := by
    rw [pairwise_append]
    exact ⟨h.sorted, pairwise_singleton _ _, by simpa using hlt⟩
  unfold GroupClass.add at hok
  split at hok
  · rename_i hnone
    cases hok
    refine ⟨⟨hsorted, ?_, by simp⟩, rfl⟩
    intro g hg
    rcases mem_append.mp hg with hg | hg
    · rw [(h.specs g hg).1] at hnone
      cases hnone
    · obtain rfl := mem_singleton.mp hg
      exact ⟨rfl, hfull⟩
  · rename_i known hknown
    split at hok
    · rename_i hsame
      cases hok
      refine ⟨⟨hsorted, ?_, by simp⟩, rfl⟩
      intro g hg
      rcases mem_append.mp hg with hg | hg
      · rw [← hknown]
        exact h.specs g hg
      · obtain rfl := mem_singleton.mp hg
        exact ⟨congrArg some hsame, hfull⟩
    · cases hok

theorem Splits.lt (h : Splits spec k full other) :
    (∀ g ∈ full.groupIds, g < k) ∧ ∀ g ∈ other.groupIds, g < k := by
  have hmem : ∀ g ∈ full.groupIds ++ other.groupIds, g < k := by
    intro g hg
    exact mem_range.mp (h.perm.mem_iff.mp hg)
  exact forall_mem_append.mp hmem

theorem splitLoop_eq_ok {specs : List KVCacheSpec} (h : Splits spec k full other)
    (hspecs : ∀ j x, specs[j]? = some x → spec (k + j) = x)
    (hok : splitLoop (specs.zipIdx k) full other = .ok (full', other')) :
    Splits spec (k + specs.length) full' other' := by
  induction specs generalizing k full other with
  | nil =>
    cases hok
    exact h
  | cons x specs ih =>
    have hx : x = spec k := (hspecs 0 x rfl).symm
    subst hx
    have hrest : ∀ j x, specs[j]? = some x → spec (k + 1 + j) = x := by
      intro j x hj
      rw [← hspecs (j + 1) x (by simpa using hj)]
      congr 1
      omega
    rw [length_cons, ← Nat.add_assoc, Nat.add_right_comm]
    rw [zipIdx_cons, splitLoop] at hok
    split at hok
    · rename_i hfull
      obtain ⟨full₁, hadd, hok⟩ := bind_eq_ok.mp hok
      obtain ⟨hdescribes, hids⟩ := h.fullGroups.add h.lt.1 hfull hadd
      refine ih ⟨hdescribes, h.otherGroups, ?_⟩ hrest hok
      rw [hids, range_succ]
      have hswap : (full.groupIds ++ [k] ++ other.groupIds).Perm
          (full.groupIds ++ other.groupIds ++ [k]) := by
        rw [append_assoc, append_assoc]
        exact perm_append_comm.append_left _
      exact hswap.trans (h.perm.append_right [k])
    · rename_i hfull
      obtain ⟨other₁, hadd, hok⟩ := bind_eq_ok.mp hok
      obtain ⟨hdescribes, hids⟩ := h.otherGroups.add h.lt.2 (by simpa using hfull) hadd
      refine ih ⟨h.fullGroups, hdescribes, ?_⟩ hrest hok
      rw [hids, range_succ, ← append_assoc]
      exact h.perm.append_right [k]

theorem splits_nil (spec : ℕ → KVCacheSpec) : Splits spec 0 {} {} :=
  ⟨⟨List.Pairwise.nil, nofun, nofun⟩, ⟨List.Pairwise.nil, nofun, nofun⟩, List.Perm.refl _⟩

/-- Two sorted classes, one before the other, list the groups in order. -/
theorem append_eq_range {ids ids' : List ℕ} (h : ids.Pairwise (· < ·)) (h' : ids'.Pairwise (· < ·))
    (hcross : ∀ i ∈ ids, ∀ j ∈ ids', i < j) (hperm : (ids ++ ids').Perm (List.range k)) :
    ids ++ ids' = List.range k := by
  have hsorted : (ids ++ ids').Pairwise (· ≤ ·) := by
    refine (pairwise_append.mpr ⟨h, h', hcross⟩).imp ?_
    exact le_of_lt
  refine List.Perm.eq_of_pairwise ?_ hsorted (pairwise_lt_range.imp le_of_lt) hperm
  intro i j _ _ hij hji
  exact le_antisymm hij hji

theorem wellFormed_verifyAndSplitKvCacheGroups {specs : List KVCacheSpec} {c : Coordinator}
    (hspecs : ∀ j x, specs[j]? = some x → spec j = x)
    (hok : verifyAndSplitKvCacheGroups specs = .ok c) : c.WellFormed spec specs.length := by
  obtain ⟨⟨full, other⟩, hsplit, hok⟩ := bind_eq_ok.mp hok
  have h := splitLoop_eq_ok (splits_nil spec) (by simpa using hspecs) hsplit
  rw [Nat.zero_add] at h
  dsimp only at hok
  split at hok
  · cases hok
  · cases hok
  · rename_i fullSpec otherSpec hfullSpec hotherSpec
    have hfull : ∀ g ∈ full.groupIds, spec g = fullSpec := by
      intro g hg
      exact Option.some.inj ((h.fullGroups.specs g hg).1.symm.trans hfullSpec)
    have hother : ∀ g ∈ other.groupIds, spec g = otherSpec := by
      intro g hg
      exact Option.some.inj ((h.otherGroups.specs g hg).1.symm.trans hotherSpec)
    have hfullNe := h.fullGroups.nonempty (by rw [hfullSpec]; rfl)
    have hotherNe := h.otherGroups.nonempty (by rw [hotherSpec]; rfl)
    obtain ⟨g, hg⟩ := exists_mem_of_ne_nil _ hfullNe
    obtain ⟨g', hg'⟩ := exists_mem_of_ne_nil _ hotherNe
    have hisFull : fullSpec.isFullAttention = true := hfull g hg ▸ (h.fullGroups.specs g hg).2
    have hnotFull : otherSpec.isFullAttention = false :=
      hother g' hg' ▸ (h.otherGroups.specs g' hg').2
    split at hok
    · cases hok
    · split at hok
      · rename_i hcross
        cases hok
        exact ⟨append_eq_range h.fullGroups.sorted h.otherGroups.sorted hcross h.perm, hfull,
          hother, hfullNe, hotherNe, hisFull, hnotFull⟩
      · split at hok
        · rename_i hcross
          cases hok
          exact ⟨append_eq_range h.otherGroups.sorted h.fullGroups.sorted hcross
            (perm_append_comm.trans h.perm), hfull, hother, hfullNe, hotherNe, hisFull,
            hnotFull⟩
        · cases hok

end Split

end Coordinator

namespace KVCacheManager

/-- The specification of a group. -/
def spec (s : KVCacheManager) (g : ℕ) : KVCacheSpec := (s.managers g).kvCacheSpec

theorem commonBlockSize_eq_ok {specs : List KVCacheSpec} {blockSize : Option ℕ}
    (hok : commonBlockSize true specs = .ok blockSize) {x : KVCacheSpec} (hx : x ∈ specs) :
    blockSize = some x.blockSize := by
  cases specs with
  | nil => cases hx
  | cons first rest =>
    simp only [commonBlockSize, head?_cons] at hok
    split at hok
    · rename_i hall
      cases hok
      rw [hall x hx]
    · cases hok

/-- What holds of a new manager: its pool is new, and its coordinator fits its groups. -/
theorem new_eq_ok {cfg : KVCacheConfig} {maxModelLen : ℕ}
    {enableCaching useEagle enableKvCacheEvents : Bool} {s : KVCacheManager}
    (hok : new cfg maxModelLen enableCaching useEagle enableKvCacheEvents = .ok s) :
    BlockPool.new cfg.numBlocks s.enableCaching enableKvCacheEvents = .ok s.blockPool ∧
      s.coordinator.WellFormed s.spec s.numKvCacheGroups ∧
      (∀ g r, (s.managers g).reqToBlocks r = [] ∧ (s.managers g).numCachedBlock r = none) ∧
      (∀ r, s.reqToBlockHashes r = []) ∧
      (s.enableCaching = true → ∀ g < s.numKvCacheGroups,
        s.blockSize = some (s.spec g).blockSize) := by
  obtain ⟨blockSize, hsize, hok⟩ := bind_eq_ok.mp hok
  obtain ⟨_, hpool, hok⟩ := bind_eq_ok.mp hok
  obtain ⟨_, hc, hok⟩ := bind_eq_ok.mp hok
  cases hok
  generalize hlist : cfg.kvCacheGroups.map KVCacheGroupSpec.kvCacheSpec = specs at *
  have hspecs : ∀ j x, specs[j]? = some x → specs.getD j (.mamba 0 [] .float32 none "") = x := by
    intro j x hx
    rw [getD_eq_getElem?_getD, hx]
    rfl
  refine ⟨hpool, ?_, fun _ _ => ⟨rfl, rfl⟩, fun _ => rfl, ?_⟩
  · unfold Coordinator.getKvCacheCoordinator at hc
    split at hc
    · split at hc
      · rename_i kvCacheSpec
        cases hc
        exact ⟨rfl, rfl⟩
      · exact Coordinator.wellFormed_verifyAndSplitKvCacheGroups hspecs hc
    · cases hc
      trivial
  · intro henabled g hg
    dsimp only at henabled hg ⊢
    rw [henabled] at hsize
    have hspec := hspecs g _ (getElem?_eq_getElem hg)
    rw [commonBlockSize_eq_ok hsize (getElem_mem hg)]
    exact congrArg (fun x => some (KVCacheSpec.blockSize x)) hspec.symm

end KVCacheManager

end Kv
