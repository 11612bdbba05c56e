import Mosaic.Kv.BlockHash

/-!
# What extra keys say about a request

The keys of a block name the adapter of the request, the multimodal items that start in the block,
and in the first block the salt. Blocks of the prompt name all items that start in them. Blocks
that are completed later only consider the last item.
-/

namespace Kv

open List Fallible

namespace Request

/-- The items with their hashes. -/
def mmItems (r : Request) : List (PlaceholderRange × String) := r.mmPositions.zip r.mmHashes

/-- The items are listed in their order, and do not overlap. -/
def MmSorted (r : Request) : Prop :=
  r.mmPositions.Pairwise fun p q => p.offset + p.length ≤ q.offset

theorem MmSorted.pairwise_mmItems {r : Request} (h : r.MmSorted) :
    r.mmItems.Pairwise fun p q => p.1.offset + p.1.length ≤ q.1.offset := by
  rw [pairwise_iff_getElem]
  intro i j hi hj hij
  simp only [mmItems, getElem_zip]
  exact pairwise_iff_getElem.mp h i j _ _ hij

end Request

/-! ### The items of a block -/

/-- A block of tokens contains an item, or a part of it. -/
def Reaches (startTokenIdx endTokenIdx : ℕ) (pos : PlaceholderRange) : Prop :=
  pos.offset < endTokenIdx ∧
    (startTokenIdx ≤ pos.offset ∨ startTokenIdx < pos.offset + pos.length)

instance (startTokenIdx endTokenIdx : ℕ) : DecidablePred (Reaches startTokenIdx endTokenIdx) :=
  fun _ => inferInstanceAs (Decidable (_ ∧ _))

namespace Request

/-- The items in a block. -/
def reached (r : Request) (startTokenIdx endTokenIdx : ℕ) : List (PlaceholderRange × String) :=
  r.mmItems.filter fun item => Reaches startTokenIdx endTokenIdx item.1

/-- What a block that is completed later names: the last item, also if it ends where the block
starts. -/
def lastReached (r : Request) (startTokenIdx endTokenIdx : ℕ) :
    List (PlaceholderRange × String) :=
  r.mmItems.getLast?.toList.filter fun item =>
    item.1.offset < endTokenIdx ∧ startTokenIdx ≤ item.1.offset + item.1.length

/-- The keys of a block that names some items. -/
def keysOf (r : Request) (startTokenIdx : ℕ) (items : List (PlaceholderRange × String)) :
    Option (List ExtraKey) :=
  let keys := genLoraExtraHashKeys r ++ items.map (fun item => .str item.2) ++
    cacheSaltKeys r startTokenIdx
  if keys.isEmpty then none else some keys

end Request

/-- The items before an index are over when a block starts, those from it on are not. -/
structure AheadFrom (items : List (PlaceholderRange × String)) (startTokenIdx currMmIdx : ℕ) :
    Prop where
  past : ∀ item ∈ items.take currMmIdx, item.1.offset < startTokenIdx ∧
    item.1.offset + item.1.length ≤ startTokenIdx
  ahead : ∀ item ∈ items.drop currMmIdx,
    startTokenIdx ≤ item.1.offset ∨ startTokenIdx < item.1.offset + item.1.length

/-- From the first item that is not over, the loop names the items in the block, and stops at the
first one that is not over when the block ends. -/
theorem genMmLoop_eq {startTokenIdx endTokenIdx : ℕ} {items : List (PlaceholderRange × String)}
    (hsorted : items.Pairwise fun p q => p.1.offset + p.1.length ≤ q.1.offset)
    (hahead : ∀ item ∈ items, startTokenIdx ≤ item.1.offset ∨
      startTokenIdx < item.1.offset + item.1.length) (currMmIdx : ℕ) :
    ∃ k, genMmLoop startTokenIdx endTokenIdx items currMmIdx =
        ((items.filter fun item => Reaches startTokenIdx endTokenIdx item.1).map
          (fun item => .str item.2), currMmIdx + k) ∧
      AheadFrom items endTokenIdx k := by
  induction items generalizing currMmIdx with
  | nil => exact ⟨0, rfl, by simp, by simp⟩
  | cons item items ih =>
    obtain ⟨pos, x⟩ := item
    obtain ⟨hfirst, hsorted⟩ := pairwise_cons.mp hsorted
    obtain ⟨hpos, hahead⟩ := forall_mem_cons.mp hahead
    dsimp only at hpos
    -- behind an item that does not end in the block no item starts in it
    have hstop : (endTokenIdx ≤ pos.offset ∨ endTokenIdx < pos.offset + pos.length) →
        items.filter (fun item => Reaches startTokenIdx endTokenIdx item.1) = [] ∧
          AheadFrom ((pos, x) :: items) endTokenIdx 0 := by
      intro hover
      have hlater : ∀ item ∈ items, endTokenIdx ≤ item.1.offset := by
        intro item hitem
        have := hfirst item hitem
        dsimp only at this
        omega
      refine ⟨?_, by simp, ?_⟩
      · rw [filter_eq_nil_iff]
        intro item hitem hreaches
        have := (of_decide_eq_true hreaches).1
        have := hlater item hitem
        omega
      · exact forall_mem_cons.mpr ⟨hover, fun item hitem => .inl (hlater item hitem)⟩
    rw [genMmLoop]
    split
    · rename_i hlt
      have hreaches : decide (Reaches startTokenIdx endTokenIdx pos) = true :=
        decide_eq_true ⟨hlt, hpos⟩
      rw [if_neg (by omega), filter_cons, if_pos hreaches]
      split
      · rename_i hend
        obtain ⟨k, hloop, hover, hrest⟩ := ih hsorted hahead (currMmIdx + 1)
        refine ⟨k + 1, ?_, forall_mem_cons.mpr ⟨⟨hlt, hend⟩, hover⟩, hrest⟩
        rw [hloop, map_cons, Nat.add_assoc, Nat.add_comm 1 k]
      · rename_i hend
        obtain ⟨hnil, hnext⟩ := hstop (.inr (not_le.mp hend))
        exact ⟨0, by rw [hnil]; rfl, hnext⟩
    · rename_i hge
      obtain ⟨hnil, hnext⟩ := hstop (.inl (not_lt.mp hge))
      have hnot : ¬ decide (Reaches startTokenIdx endTokenIdx pos) = true := fun h =>
        hge (of_decide_eq_true h).1
      rw [filter_cons, if_neg hnot, hnil]
      exact ⟨0, rfl, hnext⟩

/-! ### Keys -/

section Keys

variable {r : Request} {startTokenIdx endTokenIdx : ℕ} {keys : Option (List ExtraKey)}

/-- The keys of a block are those of its items, with those of the adapter and the salt. -/
theorem generateBlockHashExtraKeys_eq_ok {startMmIdx nextMmIdx : ℤ}
    (hok : generateBlockHashExtraKeys r startTokenIdx endTokenIdx startMmIdx =
      .ok (keys, nextMmIdx)) :
    ∃ mmKeys, genMmExtraHashKeys r startTokenIdx endTokenIdx startMmIdx =
        .ok (mmKeys, nextMmIdx) ∧
      ∀ items : List (PlaceholderRange × String), mmKeys = items.map (fun item => .str item.2) →
        keys = r.keysOf startTokenIdx items := by
  obtain ⟨⟨mmKeys, _⟩, hmm, hok⟩ := bind_eq_ok.mp hok
  cases hok
  refine ⟨mmKeys, hmm, ?_⟩
  rintro items rfl
  rfl

/-- Positions and hashes come in pairs, or there are no items to name. -/
theorem genMmExtraHashKeys_eq_ok {startMmIdx nextMmIdx : ℤ} {mmKeys : List ExtraKey}
    (hok : genMmExtraHashKeys r startTokenIdx endTokenIdx startMmIdx = .ok (mmKeys, nextMmIdx)) :
    (mmKeys = [] ∧ nextMmIdx = startMmIdx ∧
        (r.mmPositions = [] ∨ r.mmItems.length = r.mmPositions.length ∧
          ∃ last, r.mmPositions.getLast? = some last ∧
            last.offset + last.length < startTokenIdx)) ∨
      (r.mmItems.length = r.mmPositions.length ∧ ∃ curr : ℕ,
        curr = (if startMmIdx < 0 then r.mmPositions.length + startMmIdx else startMmIdx).toNat ∧
        mmKeys = (genMmLoop startTokenIdx endTokenIdx (r.mmItems.drop curr) curr).1 ∧
        nextMmIdx = (genMmLoop startTokenIdx endTokenIdx (r.mmItems.drop curr) curr).2) := by
  unfold genMmExtraHashKeys at hok
  split at hok
  · rename_i hnone
    cases hok
    exact .inl ⟨rfl, rfl, .inl (getLast?_eq_none_iff.mp hnone)⟩
  · rename_i last hlast
    split at hok
    · cases hok
    · rename_i hlen
      have hitems : r.mmItems.length = r.mmPositions.length := by
        rw [Request.mmItems, length_zip, ← not_not.mp hlen, min_self]
      split at hok
      · rename_i hpassed
        cases hok
        exact .inl ⟨rfl, rfl, .inr ⟨hitems, last, hlast, hpassed⟩⟩
      · split at hok
        · cases hok
        · rename_i hidx
          cases hok
          exact .inr ⟨hitems, _, rfl, rfl, rfl⟩

/-- If the last item is over, then all items are. -/
theorem over_of_last_over (hsorted : r.MmSorted) {last : PlaceholderRange}
    (hlast : r.mmPositions.getLast? = some last)
    (hover : last.offset + last.length < startTokenIdx) {item : PlaceholderRange × String}
    (hitem : item ∈ r.mmItems) : item.1.offset + item.1.length < startTokenIdx := by
  have hpos : item.1 ∈ r.mmPositions := (of_mem_zip hitem).1
  obtain ⟨_, hposs⟩ := getLast?_eq_some_iff.mp hlast
  rw [Request.MmSorted, hposs, pairwise_append] at hsorted
  rw [hposs, mem_append, mem_singleton] at hpos
  rcases hpos with hpos | hpos
  · have := hsorted.2.2 _ hpos last (mem_singleton_self _)
    omega
  · rwa [hpos]

variable {nextMmIdx : ℤ}

/-- Blocks of a prompt name the items in them. -/
theorem generateBlockHashExtraKeys_prompt {currMmIdx : ℕ} (hsorted : r.MmSorted)
    (hle : startTokenIdx ≤ endTokenIdx) (h : AheadFrom r.mmItems startTokenIdx currMmIdx)
    (hok : generateBlockHashExtraKeys r startTokenIdx endTokenIdx currMmIdx =
      .ok (keys, nextMmIdx)) :
    keys = r.keysOf startTokenIdx (r.reached startTokenIdx endTokenIdx) ∧
      ∃ next : ℕ, nextMmIdx = next ∧ AheadFrom r.mmItems endTokenIdx next := by
  obtain ⟨_, hmm, hkeys⟩ := generateBlockHashExtraKeys_eq_ok hok
  have hover : ∀ item ∈ r.mmItems.take currMmIdx, item.1.offset < endTokenIdx ∧
      item.1.offset + item.1.length ≤ endTokenIdx := by
    intro item hitem
    have := h.past item hitem
    omega
  -- items that are over are not in the block
  have hreached : r.reached startTokenIdx endTokenIdx = (r.mmItems.drop currMmIdx).filter
      fun item => Reaches startTokenIdx endTokenIdx item.1 := by
    have hnil : (r.mmItems.take currMmIdx).filter
        (fun item => Reaches startTokenIdx endTokenIdx item.1) = [] := by
      rw [filter_eq_nil_iff]
      intro item hitem hreaches
      have := (of_decide_eq_true hreaches).2
      have := h.past item hitem
      omega
    rw [Request.reached]
    conv_lhs => rw [← take_append_drop currMmIdx r.mmItems, filter_append, hnil]
    exact nil_append _
  rcases genMmExtraHashKeys_eq_ok hmm with ⟨rfl, rfl, hnone⟩ | ⟨-, curr, hcurr, rfl, rfl⟩
  · have hdrop : r.mmItems.drop currMmIdx = [] := by
      rw [eq_nil_iff_forall_not_mem]
      intro item hitem
      rcases hnone with hempty | ⟨-, last, hlast, hpassed⟩
      · rw [Request.mmItems, hempty, zip_nil_left, drop_nil] at hitem
        cases hitem
      · have := h.ahead item hitem
        have := over_of_last_over hsorted hlast hpassed (mem_of_mem_drop hitem)
        omega
    refine ⟨hkeys _ ?_, currMmIdx, rfl, hover, by simp [hdrop]⟩
    rw [hreached, hdrop]
    rfl
  · rw [if_neg (by omega), Int.toNat_natCast] at hcurr
    subst hcurr
    obtain ⟨k, hloop, hnext⟩ := @genMmLoop_eq startTokenIdx endTokenIdx _
      (hsorted.pairwise_mmItems.sublist (drop_sublist curr _)) h.ahead curr
    refine ⟨hkeys _ (by rw [hloop, hreached]), curr + k, by rw [hloop], ?_, ?_⟩
    · rw [take_add]
      exact forall_mem_append.mpr ⟨hover, hnext.past⟩
    · rw [← drop_drop]
      exact hnext.ahead

theorem promptExtraKeys_eq_ok {blockSize i currMmIdx : ℕ} (hsorted : r.MmSorted)
    (h : AheadFrom r.mmItems (i * blockSize) currMmIdx)
    (hok : promptExtraKeys r blockSize i currMmIdx = .ok (keys, nextMmIdx)) :
    keys = r.keysOf (i * blockSize) (r.reached (i * blockSize) ((i + 1) * blockSize)) ∧
      ∃ next : ℕ, nextMmIdx = next ∧ AheadFrom r.mmItems ((i + 1) * blockSize) next := by
  unfold promptExtraKeys at hok
  split at hok
  · exact generateBlockHashExtraKeys_prompt hsorted (Nat.mul_le_mul_right _ (Nat.le_succ i)) h hok
  · rename_i hneed
    cases hok
    -- without adapter, salt and hashes of items there is nothing to name
    obtain ⟨⟨hhashes, hlora⟩, hsalt⟩ :
        (r.mmHashes = [] ∧ r.loraIntId = none) ∧ r.cacheSalt = none := by
      simpa [needExtraKeys] using hneed
    have hitems : r.mmItems = [] := by
      rw [Request.mmItems, hhashes, zip_nil_right]
    refine ⟨?_, currMmIdx, rfl, by simp [hitems], by simp [hitems]⟩
    simp [Request.keysOf, Request.reached, hitems, genLoraExtraHashKeys, cacheSaltKeys, hlora,
      hsalt]

/-- Blocks that are completed later only consider the last item. -/
theorem generateBlockHashExtraKeys_last (hsorted : r.MmSorted)
    (hok : generateBlockHashExtraKeys r startTokenIdx endTokenIdx (-1) = .ok (keys, nextMmIdx)) :
    keys = r.keysOf startTokenIdx (r.lastReached startTokenIdx endTokenIdx) := by
  obtain ⟨_, hmm, hkeys⟩ := generateBlockHashExtraKeys_eq_ok hok
  refine hkeys _ ?_
  rw [Request.lastReached]
  rcases genMmExtraHashKeys_eq_ok hmm with ⟨rfl, -, hnone⟩ | ⟨hlen, curr, hcurr, rfl, -⟩
  · cases hlastItem : r.mmItems.getLast? with
    | none => rfl
    | some item =>
      have hitem := mem_of_getLast? hlastItem
      rcases hnone with hempty | ⟨-, last, hlast, hpassed⟩
      · rw [Request.mmItems, hempty, zip_nil_left] at hitem
        cases hitem
      · have := over_of_last_over hsorted hlast hpassed hitem
        rw [Option.toList_some, filter_cons_of_neg (by simp; omega)]
        rfl
  · rw [if_pos (by decide), ← hlen] at hcurr
    cases hlastItem : r.mmItems.getLast? with
    | none =>
      rw [getLast?_eq_none_iff.mp hlastItem, drop_nil]
      rfl
    | some item =>
      obtain ⟨earlier, hitems⟩ := getLast?_eq_some_iff.mp hlastItem
      obtain rfl : curr = earlier.length := by
        rw [hcurr, hitems, length_append, length_singleton]
        omega
      rw [hitems, drop_left, genMmLoop, Option.toList_some]
      by_cases hlt : item.1.offset < endTokenIdx
      · rw [if_pos hlt]
        split
        · rw [filter_cons_of_neg (by simp; omega)]
          rfl
        · rw [filter_cons_of_pos (by simp; omega)]
          split <;> rfl
      · rw [if_neg hlt, filter_cons_of_neg (by simp [hlt])]
        rfl

/-! ### Labels -/

/-- The keys of a block of tokens name the adapter, then items that start before its end, and in the
first block the salt. All items that start in the block are named. -/
def Labels (r : Request) (startTokenIdx endTokenIdx : ℕ) (keys : Option (List ExtraKey)) : Prop :=
  ∃ mm : List String,
    keys.getD [] = genLoraExtraHashKeys r ++ mm.map .str ++ cacheSaltKeys r startTokenIdx ∧
    (∀ x ∈ mm, ∃ pos, (pos, x) ∈ r.mmItems ∧ pos.offset < endTokenIdx) ∧
    ∀ pos x, (pos, x) ∈ r.mmItems → startTokenIdx ≤ pos.offset → pos.offset < endTokenIdx → x ∈ mm

theorem labels_keysOf {items : List (PlaceholderRange × String)}
    (hsound : ∀ item ∈ items, item ∈ r.mmItems ∧ item.1.offset < endTokenIdx)
    (hcomplete : ∀ item ∈ r.mmItems, startTokenIdx ≤ item.1.offset →
      item.1.offset < endTokenIdx → item ∈ items) :
    Labels r startTokenIdx endTokenIdx (r.keysOf startTokenIdx items) := by
  refine ⟨items.map Prod.snd, ?_, ?_, ?_⟩
  · rw [map_map, Request.keysOf]
    split
    · rename_i hempty
      exact (List.isEmpty_iff.mp hempty).symm
    · rfl
  · intro x hx
    obtain ⟨item, hitem, rfl⟩ := mem_map.mp hx
    exact ⟨item.1, hsound item hitem⟩
  · intro pos x hmem hstart hend
    exact mem_map.mpr ⟨_, hcomplete (pos, x) hmem hstart hend, rfl⟩

/-- Blocks of a prompt name all items that start in them. -/
theorem labels_reached (r : Request) (startTokenIdx endTokenIdx : ℕ) :
    Labels r startTokenIdx endTokenIdx
      (r.keysOf startTokenIdx (r.reached startTokenIdx endTokenIdx)) := by
  refine labels_keysOf ?_ ?_
  · intro item hitem
    obtain ⟨hmem, hreaches⟩ := mem_filter.mp hitem
    exact ⟨hmem, (of_decide_eq_true hreaches).1⟩
  · intro item hitem hstart hend
    exact mem_filter.mpr ⟨hitem, decide_eq_true ⟨hend, .inl hstart⟩⟩

/-- No item but the last one starts in the block. -/
def Request.OnlyLastStarts (r : Request) (startTokenIdx endTokenIdx : ℕ) : Prop :=
  ∀ (k : ℕ) (pos : PlaceholderRange), r.mmPositions[k]? = some pos →
    k + 1 < r.mmPositions.length → pos.offset < startTokenIdx ∨ endTokenIdx ≤ pos.offset

/-- If only the last item is considered, then it must be the only one that starts in the block. -/
theorem labels_lastReached (hlast : r.OnlyLastStarts startTokenIdx endTokenIdx) :
    Labels r startTokenIdx endTokenIdx
      (r.keysOf startTokenIdx (r.lastReached startTokenIdx endTokenIdx)) := by
  refine labels_keysOf ?_ ?_
  · intro item hitem
    obtain ⟨hmem, hreaches⟩ := mem_filter.mp hitem
    exact ⟨mem_of_getLast? (Option.mem_toList.mp hmem), (of_decide_eq_true hreaches).1⟩
  · intro item hitem hstart hend
    obtain ⟨k, hk⟩ := mem_iff_getElem?.mp hitem
    have hlt := (List.getElem?_eq_some_iff.mp hk).1
    have hlen : r.mmItems.length ≤ r.mmPositions.length := by
      rw [Request.mmItems, length_zip]
      exact min_le_left _ _
    have hge : ¬ k + 1 < r.mmPositions.length := by
      intro hbefore
      have := hlast k item.1 (getElem?_zip_eq_some.mp hk).1 hbefore
      omega
    obtain rfl : k = r.mmItems.length - 1 := by omega
    refine mem_filter.mpr ⟨?_, decide_eq_true ⟨hend, by omega⟩⟩
    rw [getLast?_eq_getElem?, hk]
    exact mem_singleton_self _

/-! ### The blocks of a request -/

/-- The hashes of the first blocks of a request: each covers the tokens of its block, and its keys
name what they should. -/
def Labelled (r : Request) (blockSize : ℕ) (hs : List BlockHash) : Prop :=
  ∀ j h, hs[j]? = some h → h.tokenIds = r.blockTokens blockSize j ∧
    Labels r (j * blockSize) ((j + 1) * blockSize) h.extraKeys

theorem labelled_nil (r : Request) (blockSize : ℕ) : Labelled r blockSize [] := nofun

/-- The contents of the hash of a block of the prompt. -/
def Request.PromptHash (r : Request) (blockSize j : ℕ) (h : BlockHash) : Prop :=
  h.tokenIds = r.blockTokens blockSize j ∧
    h.extraKeys = r.keysOf (j * blockSize) (r.reached (j * blockSize) ((j + 1) * blockSize))

variable {hs : List BlockHash}

theorem promptHash_hashRequestLoop {env : HashEnv} {blockSize n i currMmIdx : ℕ}
    {parent : Option ℤ} (hsorted : r.MmSorted)
    (hcurr : AheadFrom r.mmItems (i * blockSize) currMmIdx)
    (hok : hashRequestLoop env blockSize r n i parent currMmIdx = .ok hs) :
    hs.length = n ∧ ∀ j h, hs[j]? = some h → r.PromptHash blockSize (i + j) h := by
  induction n generalizing i parent currMmIdx hs with
  | zero =>
    cases hok
    exact ⟨rfl, nofun⟩
  | succ n ih =>
    rw [hashRequestLoop] at hok
    obtain ⟨⟨keys, nextMmIdx⟩, hkeys, hok⟩ := bind_eq_ok.mp hok
    obtain ⟨rest, hrest, hok⟩ := bind_eq_ok.mp hok
    cases hok
    obtain ⟨rfl, next, rfl, hnext⟩ := promptExtraKeys_eq_ok hsorted hcurr hkeys
    obtain ⟨hlength, hlater⟩ := ih hnext hrest
    refine ⟨by rw [length_cons, hlength], ?_⟩
    intro j h hj
    cases j with
    | zero =>
      cases hj
      exact ⟨rfl, rfl⟩
    | succ j =>
      have hj' := hlater j h hj
      rwa [Nat.add_assoc, Nat.add_comm 1 j] at hj'

section

variable {env : HashEnv} {blockSize : ℕ} (hsorted : r.MmSorted)
  (hok : hashRequestTokens env blockSize r = .ok hs)
include hsorted hok

/-- The hashes of a prompt. -/
theorem promptHash_hashRequestTokens : hs.length = r.numTokens / blockSize ∧
      ∀ j h, hs[j]? = some h → r.PromptHash blockSize j h := by
  obtain ⟨hlength, hlabels⟩ := promptHash_hashRequestLoop hsorted
    ⟨by simp, fun _ _ => .inl (by omega)⟩ hok
  refine ⟨hlength, ?_⟩
  intro j h hj
  have hj' := hlabels j h hj
  rwa [Nat.zero_add] at hj'

theorem labelled_hashRequestTokens :
    hs.length = r.numTokens / blockSize ∧ Labelled r blockSize hs := by
  obtain ⟨hlen, hprompt⟩ := promptHash_hashRequestTokens hsorted hok
  refine ⟨hlen, ?_⟩
  intro j h hj
  obtain ⟨htoks, hkeys⟩ := hprompt j h hj
  exact ⟨htoks, hkeys ▸ labels_reached r _ _⟩

end

end Keys

/-! ### Equal keys -/

section Decode

variable {r r' : Request} {startTokenIdx endTokenIdx : ℕ}
  {keys : Option (List ExtraKey)}

/-- An adapter is a number, all other keys are texts. -/
theorem lora_append_inj {a b : Option ℤ} {xs ys : List String}
    (h : a.toList.map ExtraKey.int ++ xs.map .str = b.toList.map .int ++ ys.map .str) :
    a = b ∧ xs = ys := by
  have hinj : Function.Injective ExtraKey.str := fun _ _ heq => ExtraKey.str.inj heq
  cases a with
  | none =>
    cases b with
    | none => exact ⟨rfl, hinj.list_map h⟩
    | some b =>
      cases xs with
      | nil => cases h
      | cons x xs => cases h
  | some a =>
    cases b with
    | none =>
      cases ys with
      | nil => cases h
      | cons y ys => cases h
    | some b =>
      obtain ⟨hfirst, hrest⟩ := List.cons.inj h
      exact ⟨congrArg some (ExtraKey.int.inj hfirst), hinj.list_map hrest⟩

/-- The salt as a list of texts. -/
def saltTexts (r : Request) (startTokenIdx : ℕ) : List String :=
  if startTokenIdx = 0 then r.cacheSalt.toList.filter (· ≠ "") else []

theorem cacheSaltKeys_eq (r : Request) (startTokenIdx : ℕ) :
    cacheSaltKeys r startTokenIdx = (saltTexts r startTokenIdx).map .str := by
  unfold cacheSaltKeys saltTexts
  split <;> rfl

/-- Equal keys name the same adapter, and the same items and salts one after the other. -/
theorem Labels.decode (h : Labels r startTokenIdx endTokenIdx keys)
    (h' : Labels r' startTokenIdx endTokenIdx keys) :
    r.loraIntId = r'.loraIntId ∧ ∃ mm mm' : List String,
      mm ++ saltTexts r startTokenIdx = mm' ++ saltTexts r' startTokenIdx ∧
      (∀ x ∈ mm, ∃ pos, (pos, x) ∈ r.mmItems ∧ pos.offset < endTokenIdx) ∧
      (∀ x ∈ mm', ∃ pos, (pos, x) ∈ r'.mmItems ∧ pos.offset < endTokenIdx) ∧
      (∀ pos x, (pos, x) ∈ r.mmItems → startTokenIdx ≤ pos.offset → pos.offset < endTokenIdx →
        x ∈ mm) ∧
      ∀ pos x, (pos, x) ∈ r'.mmItems → startTokenIdx ≤ pos.offset → pos.offset < endTokenIdx →
        x ∈ mm' := by
  obtain ⟨mm, hkeys, hsound, hcomplete⟩ := h
  obtain ⟨mm', hkeys', hsound', hcomplete'⟩ := h'
  rw [hkeys, cacheSaltKeys_eq, cacheSaltKeys_eq, append_assoc, append_assoc,
    ← map_append, ← map_append] at hkeys'
  obtain ⟨hlora, htexts⟩ := lora_append_inj hkeys'
  exact ⟨hlora, mm, mm', htexts, hsound, hsound', hcomplete, hcomplete'⟩

/-- The salt of a request cannot be taken for an item of the other one, and is not empty. -/
structure SaltApart (r r' : Request) : Prop where
  nonempty : r.cacheSalt ≠ some ""
  notItem : ∀ salt, r.cacheSalt = some salt → salt ∉ r'.mmHashes

theorem SaltApart.saltTexts_zero (h : SaltApart r r') : saltTexts r 0 = r.cacheSalt.toList := by
  rw [saltTexts, if_pos rfl, filter_eq_self]
  intro salt hmem
  have hsalt : r.cacheSalt = some salt := Option.mem_toList.mp hmem
  have hne : salt ≠ "" := by
    rintro rfl
    exact h.nonempty hsalt
  simpa using hne

/-- Salts that cannot be taken for items are told apart from them. -/
theorem salt_append_inj {mm mm' : List String} (h : SaltApart r r') (h' : SaltApart r' r)
    (hmm : ∀ x ∈ mm, x ∈ r.mmHashes) (hmm' : ∀ x ∈ mm', x ∈ r'.mmHashes)
    (happend : mm ++ saltTexts r 0 = mm' ++ saltTexts r' 0) :
    r.cacheSalt = r'.cacheSalt ∧ mm = mm' := by
  rw [h.saltTexts_zero, h'.saltTexts_zero] at happend
  cases hsalt : r.cacheSalt with
  | none =>
    cases hsalt' : r'.cacheSalt with
    | none =>
      rw [hsalt, hsalt'] at happend
      simpa using happend
    | some salt' =>
      rw [hsalt, hsalt', Option.toList_none, append_nil] at happend
      have hmem : salt' ∈ mm := by
        rw [happend]
        simp
      exact absurd (hmm salt' hmem) (h'.notItem salt' hsalt')
  | some salt =>
    cases hsalt' : r'.cacheSalt with
    | none =>
      rw [hsalt, hsalt', Option.toList_none, append_nil] at happend
      have hmem : salt ∈ mm' := by
        rw [← happend]
        simp
      exact absurd (hmm' salt hmem) (h.notItem salt hsalt)
    | some salt' =>
      rw [hsalt, hsalt'] at happend
      obtain ⟨heq, hlast⟩ := append_inj' happend rfl
      exact ⟨congrArg some (by simpa using hlast), heq⟩

end Decode

/-! ### Equal hashes -/

/-- The items of a request that reach into its first tokens. -/
def Request.Shows (r : Request) (numTokens : ℕ) (x : String) : Prop :=
  ∃ pos, (pos, x) ∈ r.mmItems ∧ pos.offset < numTokens

/-- Two requests have the same contents in their first blocks. -/
structure SameContents (r r' : Request) (numTokens : ℕ) : Prop where
  tokens : r.allTokenIds.take numTokens = r'.allTokenIds.take numTokens
  loraIntId : r.loraIntId = r'.loraIntId
  cacheSalt : r.cacheSalt = r'.cacheSalt
  mmHashes : ∀ x, r.Shows numTokens x ↔ r'.Shows numTokens x

theorem take_eq_of_blockTokens {r r' : Request} {blockSize n : ℕ}
    (h : ∀ j < n, r.blockTokens blockSize j = r'.blockTokens blockSize j) :
    r.allTokenIds.take (n * blockSize) = r'.allTokenIds.take (n * blockSize) := by
  induction n with
  | zero => simp
  | succ n ih =>
    have hsplit : ∀ q : Request, q.allTokenIds.take ((n + 1) * blockSize) =
        q.allTokenIds.take (n * blockSize) ++ q.blockTokens blockSize n := by
      intro q
      have hle : n * blockSize ≤ (n + 1) * blockSize := Nat.mul_le_mul_right _ (Nat.le_succ n)
      have hparts := take_append_drop (n * blockSize)
        (q.allTokenIds.take ((n + 1) * blockSize))
      rw [take_take, min_eq_left hle] at hparts
      exact hparts.symm
    rw [hsplit r, hsplit r', ih fun j hj => h j (by omega), h n n.lt_succ_self]

/-- If what the blocks of one request name is shown by the other one, then all its items are. -/
theorem shows_of_blocks {r r' : Request} {blockSize i : ℕ}
    (hblocks : ∀ j ≤ i, ∃ mm : List String,
      (∀ pos x, (pos, x) ∈ r.mmItems → j * blockSize ≤ pos.offset →
        pos.offset < (j + 1) * blockSize → x ∈ mm) ∧
      ∀ x ∈ mm, ∃ pos, (pos, x) ∈ r'.mmItems ∧ pos.offset < (j + 1) * blockSize)
    {x : String} (hshows : r.Shows ((i + 1) * blockSize) x) :
    r'.Shows ((i + 1) * blockSize) x := by
  obtain ⟨pos, hmem, hlt⟩ := hshows
  have hpos : 0 < blockSize := Nat.pos_of_ne_zero fun hzero => by simp [hzero] at hlt
  have hle : pos.offset / blockSize ≤ i := Nat.lt_succ_iff.mp (Nat.div_lt_of_lt_mul (by
    rwa [Nat.mul_comm]))
  obtain ⟨mm, hcomplete, hsound⟩ := hblocks (pos.offset / blockSize) hle
  have hend : pos.offset < (pos.offset / blockSize + 1) * blockSize := by
    rw [Nat.mul_comm]
    exact Nat.lt_mul_div_succ _ hpos
  have hnamed : x ∈ mm := hcomplete pos x hmem (Nat.div_mul_le_self _ _) hend
  obtain ⟨pos', hmem', hlt'⟩ := hsound x hnamed
  exact ⟨pos', hmem', hlt'.trans_le (Nat.mul_le_mul_right _ (by omega))⟩

/-- Equal hashes of two requests mean equal contents, if salts cannot be taken for items. -/
theorem sameContents_of_labelled {env : HashEnv} (hfree : env.CollisionFree) {r r' : Request}
    {blockSize i : ℕ} {hs hs' : List BlockHash} {h h' : BlockHash}
    (hchain : HashChain env hs) (hchain' : HashChain env hs')
    (hlabelled : Labelled r blockSize hs) (hlabelled' : Labelled r' blockSize hs')
    (hi : hs[i]? = some h) (hi' : hs'[i]? = some h') (hvalue : h.hashValue = h'.hashValue)
    (hsalt : SaltApart r r') (hsalt' : SaltApart r' r) :
    SameContents r r' ((i + 1) * blockSize) := by
  obtain rfl := (hfree.extends_inj (hchain i h hi) (hchain' i h' hi') hvalue).2
  obtain ⟨-, htake⟩ := hchain.eq_of_getElem?_eq hfree hchain' hi hi'
  -- the hashes up to this block are the same
  have hsame : ∀ j ≤ i, ∃ hj, hs[j]? = some hj ∧ hs'[j]? = some hj := by
    intro j hj
    have hlt := (List.getElem?_eq_some_iff.mp hi).1
    have hget : hs[j]? = some hs[j] := getElem?_eq_getElem (by omega)
    refine ⟨hs[j], hget, ?_⟩
    have hboth := congrArg (fun l => l[j]?) htake
    simp only [getElem?_take, show j < i + 1 by omega, if_true] at hboth
    rw [← hboth, hget]
  have hitem : ∀ {q : Request} {n : ℕ} {x : String},
      (∃ pos, (pos, x) ∈ q.mmItems ∧ pos.offset < n) → x ∈ q.mmHashes := by
    rintro q n x ⟨pos, hmem, -⟩
    exact (of_mem_zip hmem).2
  have hdecode : ∀ j ≤ i, (r.loraIntId = r'.loraIntId ∧ (j = 0 → r.cacheSalt = r'.cacheSalt)) ∧
      ∃ mm : List String,
        (∀ x ∈ mm, ∃ pos, (pos, x) ∈ r.mmItems ∧ pos.offset < (j + 1) * blockSize) ∧
        (∀ x ∈ mm, ∃ pos, (pos, x) ∈ r'.mmItems ∧ pos.offset < (j + 1) * blockSize) ∧
        (∀ pos x, (pos, x) ∈ r.mmItems → j * blockSize ≤ pos.offset →
          pos.offset < (j + 1) * blockSize → x ∈ mm) ∧
        ∀ pos x, (pos, x) ∈ r'.mmItems → j * blockSize ≤ pos.offset →
          pos.offset < (j + 1) * blockSize → x ∈ mm := by
    intro j hj
    obtain ⟨hj₁, hget, hget'⟩ := hsame j hj
    obtain ⟨hlora, mm, mm', happend, hsound, hsound', hcomplete, hcomplete'⟩ :=
      (hlabelled j hj₁ hget).2.decode (hlabelled' j hj₁ hget').2
    by_cases hzero : j * blockSize = 0
    · rw [hzero] at happend
      obtain ⟨hsalts, rfl⟩ := salt_append_inj hsalt hsalt' (fun x hx => hitem (hsound x hx))
        (fun x hx => hitem (hsound' x hx)) happend
      exact ⟨⟨hlora, fun _ => hsalts⟩, mm, hsound, hsound', hcomplete, hcomplete'⟩
    · obtain rfl : mm = mm' := by
        simpa [saltTexts, hzero] using happend
      refine ⟨⟨hlora, ?_⟩, mm, hsound, hsound', hcomplete, hcomplete'⟩
      rintro rfl
      exact absurd (Nat.zero_mul _) hzero
  obtain ⟨⟨hlora, hsalts⟩, -⟩ := hdecode 0 (Nat.zero_le i)
  refine ⟨take_eq_of_blockTokens ?_, hlora, hsalts rfl, ?_⟩
  · intro j hj
    obtain ⟨hj₁, hget, hget'⟩ := hsame j (by omega)
    rw [← (hlabelled j hj₁ hget).1, (hlabelled' j hj₁ hget').1]
  · intro x
    constructor
    · refine shows_of_blocks fun j hj => ?_
      obtain ⟨-, mm, -, hsound', hcomplete, -⟩ := hdecode j hj
      exact ⟨mm, hcomplete, hsound'⟩
    · refine shows_of_blocks fun j hj => ?_
      obtain ⟨-, mm, hsound, -, -, hcomplete'⟩ := hdecode j hj
      exact ⟨mm, hcomplete', hsound⟩

end Kv
