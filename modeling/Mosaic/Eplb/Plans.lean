import Mosaic.Distribution.Shares
import Mosaic.Eplb.Rearrange
import Mathlib.Data.List.GetD
import Mathlib.Data.List.Induction

/-!
# The plans of the ranks agree

A rank decides alone what it sends and what it receives. Sender and receiver distribute the
receivers of an expert over its senders in the same way, and both go through the experts in
order, so the experts that one rank sends to another are those that the other one expects.
-/

namespace Eplb

open List Fallible

/-! ### The ranks with an expert -/

section Ranks

variable {e : ℤ} {n : ℕ} {indices : List ℤ}

/-- One more slot adds its rank, unless it is the last one already. -/
theorem ranksWith_concat (e : ℤ) (n : ℕ) (indices : List ℤ) (x : ℤ) :
    ranksWith e n (indices ++ [x]) =
      if x = e ∧ (ranksWith e n indices).getLast? ≠ some (indices.length / n) then
        ranksWith e n indices ++ [indices.length / n]
      else ranksWith e n indices := by
  have hstep : ranksWith e n (indices ++ [x]) =
      if x = e then
        if (ranksWith e n indices).getLast? = some (indices.length / n) then
          ranksWith e n indices
        else ranksWith e n indices ++ [indices.length / n]
      else ranksWith e n indices := by
    unfold ranksWith
    rw [zipIdx_append, foldl_append, Nat.zero_add]
    rfl
  rw [hstep]
  by_cases hx : x = e
  · by_cases hlast : (ranksWith e n indices).getLast? = some (indices.length / n)
    · rw [if_pos hx, if_pos hlast, if_neg fun h => h.2 hlast]
    · rw [if_pos hx, if_neg hlast, if_pos ⟨hx, hlast⟩]
  · rw [if_neg hx, if_neg fun h => hx h.1]

/-- The last element of a strictly increasing list that has the upper bound `b` is `b` if `b` is in
the list. -/
theorem getLast?_of_mem {l : List ℕ} {b : ℕ} (hl : l.Pairwise (· < ·)) (hle : ∀ a ∈ l, a ≤ b)
    (hb : b ∈ l) : l.getLast? = some b := by
  obtain rfl | ⟨_, last, rfl⟩ := eq_nil_or_concat l
  · cases hb
  · rw [concat_eq_append] at *
    rw [getLast?_concat]
    have hlast := hle last (by simp)
    rcases mem_append.mp hb with hinit | hb
    · have hlt := (pairwise_append.mp hl).2.2 b hinit last (by simp)
      omega
    · rw [mem_singleton.mp hb]

/-- The ranks with an expert, in increasing order. -/
theorem ranksWith_spec (e : ℤ) (n : ℕ) (indices : List ℤ) :
    (ranksWith e n indices).Pairwise (· < ·) ∧
      ∀ rank, rank ∈ ranksWith e n indices ↔ ∃ i, indices[i]? = some e ∧ i / n = rank := by
  induction indices using List.reverseRecOn with
  | nil => exact ⟨List.Pairwise.nil, by simp [ranksWith]⟩
  | append_singleton indices x ih =>
    obtain ⟨hpairwise, hmem⟩ := ih
    have hle : ∀ rank ∈ ranksWith e n indices, rank ≤ indices.length / n := by
      intro rank hrank
      obtain ⟨i, hi, rfl⟩ := (hmem rank).mp hrank
      exact Nat.div_le_div_right (List.getElem?_eq_some_iff.mp hi).1.le
    -- the positions with `e` are the old ones, and perhaps the new one
    have hnew : ∀ rank, (∃ i, (indices ++ [x])[i]? = some e ∧ i / n = rank) ↔
        rank ∈ ranksWith e n indices ∨ (x = e ∧ indices.length / n = rank) := by
      intro rank
      rw [hmem]
      constructor
      · rintro ⟨i, hi, hrank⟩
        rcases Nat.lt_trichotomy i indices.length with hlt | rfl | hgt
        · rw [getElem?_append_left hlt] at hi
          exact .inl ⟨i, hi, hrank⟩
        · rw [getElem?_concat_length] at hi
          exact .inr ⟨Option.some.inj hi, hrank⟩
        · rw [getElem?_eq_none (by simpa using Nat.succ_le_of_lt hgt)] at hi
          cases hi
      · rintro (⟨i, hi, hrank⟩ | ⟨rfl, hrank⟩)
        · refine ⟨i, ?_, hrank⟩
          rw [getElem?_append_left (List.getElem?_eq_some_iff.mp hi).1]
          exact hi
        · exact ⟨indices.length, getElem?_concat_length, hrank⟩
    rw [ranksWith_concat]
    split
    · rename_i h
      constructor
      · rw [pairwise_append]
        refine ⟨hpairwise, pairwise_singleton _ _, fun rank hrank last hlast => ?_⟩
        obtain rfl := mem_singleton.mp hlast
        apply lt_of_le_of_ne (hle rank hrank)
        intro heq
        exact h.2 (getLast?_of_mem hpairwise hle (heq ▸ hrank))
      · intro rank
        rw [hnew, mem_append, mem_singleton]
        constructor
        · exact Or.imp_right fun heq => ⟨h.1, heq.symm⟩
        · exact Or.imp_right fun heq => heq.2.symm
    · rename_i h
      refine ⟨hpairwise, fun rank => ?_⟩
      rw [hnew]
      constructor
      · exact Or.inl
      · rintro (hrank | ⟨hx, rfl⟩)
        · exact hrank
        · -- the rank is the last one already
          have hlast := not_not.mp (not_and.mp h hx)
          exact mem_of_getLast? hlast

end Ranks

/-! ### First slots -/

section FirstSlots

variable {skip : ℕ → Bool} {expertAt : ℕ → ℤ} {n slot : ℕ} {e : ℤ}

theorem firstSlots_succ (skip : ℕ → Bool) (expertAt : ℕ → ℤ) (n : ℕ) :
    firstSlots skip expertAt (n + 1) =
      if skip n then firstSlots skip expertAt n
      else if expertAt n = -1 then firstSlots skip expertAt n
      else if expertAt n ∈ (firstSlots skip expertAt n).map Prod.fst then
        firstSlots skip expertAt n
      else firstSlots skip expertAt n ++ [(expertAt n, n)] := by
  unfold firstSlots
  rw [range_succ, foldl_append]
  rfl

/-- The slots that were noted. -/
structure FirstSlots (skip : ℕ → Bool) (expertAt : ℕ → ℤ) (n : ℕ) (loc : List (ℤ × ℕ)) :
    Prop where
  nodup : (loc.map Prod.fst).Nodup
  slots : ∀ e slot, (e, slot) ∈ loc → slot < n ∧ skip slot = false ∧ expertAt slot = e ∧ e ≠ -1
  complete : ∀ slot < n, skip slot = false → expertAt slot ≠ -1 → expertAt slot ∈ loc.map Prod.fst

theorem firstSlots_spec (skip : ℕ → Bool) (expertAt : ℕ → ℤ) (n : ℕ) :
    FirstSlots skip expertAt n (firstSlots skip expertAt n) := by
  induction n with
  | zero => exact ⟨nodup_nil, nofun, nofun⟩
  | succ n ih =>
    have hslots : ∀ e slot, (e, slot) ∈ firstSlots skip expertAt n →
        slot < n + 1 ∧ skip slot = false ∧ expertAt slot = e ∧ e ≠ -1 :=
      fun e slot h => ⟨Nat.lt_succ_of_lt (ih.slots e slot h).1, (ih.slots e slot h).2⟩
    -- the table is as before, and the new slot needs no entry
    have hsame (h : skip n = false → expertAt n ≠ -1 →
        expertAt n ∈ (firstSlots skip expertAt n).map Prod.fst) :
        FirstSlots skip expertAt (n + 1) (firstSlots skip expertAt n) := by
      refine ⟨ih.nodup, hslots, fun slot hslot hskip hempty => ?_⟩
      rcases Nat.lt_succ_iff_lt_or_eq.mp hslot with hlt | rfl
      · exact ih.complete slot hlt hskip hempty
      · exact h hskip hempty
    rw [firstSlots_succ]
    split
    · rename_i hskip
      exact hsame fun h => by simp [hskip] at h
    split
    · rename_i hempty
      exact hsame fun _ h => absurd hempty h
    split
    · rename_i hmem
      exact hsame fun _ _ => hmem
    · rename_i hskip hempty hnew
      refine ⟨?_, fun e slot hmem => ?_, fun slot hslot hskip' hempty' => ?_⟩
      · rw [map_append]
        exact ih.nodup.append (nodup_singleton _) (by simpa using hnew)
      · rcases mem_append.mp hmem with hmem | hmem
        · exact hslots e slot hmem
        · obtain ⟨rfl, rfl⟩ := Prod.mk.inj (mem_singleton.mp hmem)
          exact ⟨Nat.lt_succ_self _, Bool.eq_false_iff.mpr hskip, rfl, hempty⟩
      · rw [map_append, mem_append]
        rcases Nat.lt_succ_iff_lt_or_eq.mp hslot with hlt | rfl
        · exact .inl (ih.complete slot hlt hskip' hempty')
        · exact .inr (mem_singleton.mpr rfl)

end FirstSlots

section Sorted

variable {loc : List (ℤ × ℕ)}

instance totalKeys : Std.Total fun a b : ℤ × ℕ => a.1 ≤ b.1 := ⟨fun a b => le_total a.1 b.1⟩

instance transKeys : IsTrans (ℤ × ℕ) fun a b => a.1 ≤ b.1 := ⟨fun _ _ _ => le_trans⟩

theorem mem_sortedItems {x : ℤ × ℕ} : x ∈ sortedItems loc ↔ x ∈ loc :=
  mem_insertionSort _

/-- The keys of a sorted dictionary are strictly increasing. -/
theorem sortedItems_pairwise (nodup : (loc.map Prod.fst).Nodup) :
    ((sortedItems loc).map Prod.fst).Pairwise (· < ·) := by
  have hle : ((sortedItems loc).map Prod.fst).Pairwise (· ≤ ·) :=
    pairwise_map.mpr (pairwise_insertionSort _ loc)
  have hnodup : ((sortedItems loc).map Prod.fst).Nodup :=
    ((perm_insertionSort _ loc).map Prod.fst).nodup_iff.mpr nodup
  exact (hle.and hnodup).imp fun h => lt_of_le_of_ne h.1 h.2

end Sorted

/-! ### Ranks that hold or need an expert -/

namespace ExpertMaps

variable {m : ExpertMaps} {rank a b : ℕ} {e : ℤ}

/-- The rank has the expert before the rearrangement. -/
def Holds (m : ExpertMaps) (rank : ℕ) (e : ℤ) : Prop :=
  ∃ slot < m.numLocalExperts, m.old rank slot = e

/-- The rank has the expert after the rearrangement. -/
def Needs (m : ExpertMaps) (rank : ℕ) (e : ℤ) : Prop :=
  ∃ slot < m.numLocalExperts, m.new rank slot = e

/-- Every expert of the new maps occurs in the old ones. -/
def Known (m : ExpertMaps) : Prop := ∀ e ∈ m.newIndices, e ≠ -1 → e ∈ m.oldIndices

def senders (m : ExpertMaps) (e : ℤ) : List ℕ :=
  (getEpRanksWithExpert e m.numLocalExperts m.oldIndices m.newIndices).1

def receivers (m : ExpertMaps) (e : ℤ) : List ℕ :=
  (getEpRanksWithExpert e m.numLocalExperts m.oldIndices m.newIndices).2

/-- The positions of an index list are the slots of the ranks. -/
theorem exists_slot_iff {indices : List ℤ} {numRanks n : ℕ}
    (length : indices.length = numRanks * n) (e : ℤ) (rank : ℕ) :
    (∃ i, indices[i]? = some e ∧ i / n = rank) ↔
      rank < numRanks ∧ ∃ slot < n, indices.getD (idxLocalToGlobal slot n rank) (-1) = e := by
  unfold idxLocalToGlobal
  constructor
  · rintro ⟨i, hi, rfl⟩
    have hlt := (List.getElem?_eq_some_iff.mp hi).1
    have hn : 0 < n := by
      apply Nat.pos_of_ne_zero
      rintro rfl
      rw [length, Nat.mul_zero] at hlt
      exact Nat.not_lt_zero i hlt
    refine ⟨Nat.div_lt_of_lt_mul ?_, i % n, Nat.mod_lt i hn, ?_⟩
    · rw [Nat.mul_comm, ← length]
      exact hlt
    · rw [Nat.mul_comm, Nat.div_add_mod, getD_eq_getElem?_getD, hi, Option.getD_some]
  · rintro ⟨hrank, slot, hslot, he⟩
    have hlt : rank * n + slot < indices.length := by
      rw [length]
      calc rank * n + slot < rank * n + n := Nat.add_lt_add_left hslot _
        _ = (rank + 1) * n := (Nat.succ_mul rank n).symm
        _ ≤ numRanks * n := Nat.mul_le_mul_right n hrank
    refine ⟨rank * n + slot, ?_, ?_⟩
    · rw [getD_eq_getElem _ _ hlt] at he
      rw [getElem?_eq_getElem hlt, he]
    · rw [Nat.mul_comm, Nat.mul_add_div (by omega), Nat.div_eq_of_lt hslot, Nat.add_zero]

theorem mem_senders : rank ∈ m.senders e ↔ rank < m.numRanks ∧ m.Holds rank e := by
  unfold senders getEpRanksWithExpert
  rw [(ranksWith_spec e _ _).2, exists_slot_iff m.old_length]
  rfl

theorem mem_receivers :
    rank ∈ m.receivers e ↔ rank < m.numRanks ∧ m.Needs rank e ∧ ¬m.Holds rank e := by
  have hsenders : rank ∈ m.senders e ↔ _ := mem_senders
  unfold senders getEpRanksWithExpert at hsenders
  unfold receivers getEpRanksWithExpert
  rw [mem_filter, (ranksWith_spec e _ _).2, exists_slot_iff m.new_length, decide_eq_true_iff,
    hsenders]
  constructor
  · rintro ⟨⟨hrank, hneeds⟩, hnot⟩
    exact ⟨hrank, hneeds, fun hholds => hnot ⟨hrank, hholds⟩⟩
  · rintro ⟨hrank, hneeds, hnot⟩
    exact ⟨⟨hrank, hneeds⟩, fun h => hnot h.2⟩

theorem nodup_senders : (m.senders e).Nodup :=
  (ranksWith_spec e _ _).1.imp fun h => h.ne

theorem nodup_receivers : (m.receivers e).Nodup :=
  ((ranksWith_spec e _ _).1.imp fun h => h.ne).filter _

/-- An expert that is needed has a sender. -/
theorem Known.senders_ne_nil (known : m.Known) (hrank : rank < m.numRanks) (he : e ≠ -1)
    (hneeds : m.Needs rank e) : m.senders e ≠ [] := by
  obtain ⟨_, hi, -⟩ := (exists_slot_iff m.new_length e rank).mpr ⟨hrank, hneeds⟩
  obtain ⟨j, hj⟩ := mem_iff_getElem?.mp (known e (mem_of_getElem? hi) he)
  obtain ⟨hlt, hholds⟩ := (exists_slot_iff m.old_length e _).mp ⟨j, hj, rfl⟩
  exact ne_nil_of_mem (mem_senders.mpr ⟨hlt, hholds⟩)

/-! ### Sender and receiver -/

/-- The receivers of an expert that are served by `rank`. -/
def share (m : ExpertMaps) (e : ℤ) (rank : ℕ) : List ℕ :=
  Shares.share (m.receivers e) (m.senders e).length ((m.senders e).idxOf rank)

/-- The sender that serves `rank`. -/
def source (m : ExpertMaps) (e : ℤ) (rank : ℕ) : ℕ :=
  (m.senders e).getD
    (Shares.holder (m.receivers e).length (m.senders e).length ((m.receivers e).idxOf rank)) 0

theorem indexOf_eq_ok {l : List ℕ} {x : ℕ} (h : x ∈ l) : indexOf l x = .ok (l.idxOf x) := by
  obtain ⟨_, hi⟩ := Option.isSome_iff_exists.mp (isSome_idxOf?.mpr h)
  unfold indexOf
  rw [hi, idxOf_eq_getD_idxOf?, hi, Option.getD_some]

theorem getItem_eq_ok {l : List ℕ} {i : ℕ} (h : i < l.length) : getItem l i = .ok (l.getD i 0) := by
  unfold getItem
  rw [getElem?_eq_getElem h, getD_eq_getElem _ _ h]

theorem floorDiv_eq_ok {k n : ℕ} (h : 0 < n) : floorDiv k n = .ok (k / n) :=
  if_neg h.ne'

/-- A rank that holds an expert finds whom to send it to. -/
theorem recvRanks_eq_ok (h : rank ∈ m.senders e) :
    recvRanks rank (m.senders e) (m.receivers e) = .ok (m.share e rank) := by
  unfold recvRanks
  rw [floorDiv_eq_ok (length_pos_of_mem h), indexOf_eq_ok h]
  rfl

/-- A rank that lacks an expert finds whom to receive it from. -/
theorem sourceRank_eq_ok (hsenders : m.senders e ≠ []) (h : rank ∈ m.receivers e) :
    sourceRank rank (m.senders e) (m.receivers e) = .ok (m.source e rank) := by
  have hpos := length_pos_of_ne_nil hsenders
  have hlt := Shares.holder_lt hpos (idxOf_lt_length_of_mem h)
  unfold sourceRank source
  rw [floorDiv_eq_ok hpos, indexOf_eq_ok h]
  dsimp only [bind, Except.bind]
  unfold Shares.holder at hlt ⊢
  split
  · rename_i hblock
    rw [if_pos hblock] at hlt
    exact getItem_eq_ok hlt
  · rename_i hblock
    rw [if_neg hblock] at hlt
    exact getItem_eq_ok hlt

theorem source_mem (hsenders : m.senders e ≠ []) (h : rank ∈ m.receivers e) :
    m.source e rank ∈ m.senders e := by
  have hlt := Shares.holder_lt (length_pos_of_ne_nil hsenders) (idxOf_lt_length_of_mem h)
  unfold source
  rw [getD_eq_getElem _ _ hlt]
  exact getElem_mem hlt

/-- Sender and receiver agree who serves whom. -/
theorem mem_share_iff (ha : a ∈ m.senders e) (hb : b ∈ m.receivers e) :
    b ∈ m.share e a ↔ m.source e b = a := by
  have hsenders := ne_nil_of_mem ha
  have hpos := idxOf_lt_length_of_mem ha
  have hlt := Shares.holder_lt (length_pos_of_ne_nil hsenders) (idxOf_lt_length_of_mem hb)
  unfold share source
  rw [Shares.mem_share_iff nodup_receivers hpos (getElem?_idxOf hb),
    getD_eq_getElem _ _ hlt]
  constructor
  · intro h
    simp only [h, getElem_idxOf]
  · intro h
    rw [← nodup_senders.idxOf_getElem _ hlt, h]

theorem mem_receivers_of_mem_share (h : b ∈ m.share e a) : b ∈ m.receivers e :=
  Shares.mem_of_mem_share h

theorem nodup_share (ha : a ∈ m.senders e) : (m.share e a).Nodup :=
  Shares.nodup_share nodup_receivers (idxOf_lt_length_of_mem ha)

/-! ### The plans -/

/-- The slots whose weights a rank has itself: those that keep their expert, and those whose
expert is in one of its old slots. -/
def Served (m : ExpertMaps) (rank slot : ℕ) : Prop :=
  m.old rank slot = m.new rank slot ∨ m.new rank slot ≠ -1 ∧ m.Holds rank (m.new rank slot)

/-- The table of the slots that a rank receives an expert in. -/
def RecvLoc (m : ExpertMaps) (rank : ℕ) (loc : List (ℤ × ℕ)) : Prop :=
  ∃ received : ℕ → Bool, (∀ slot < m.numLocalExperts, received slot = true ↔ m.Served rank slot) ∧
    loc = m.expertsRecvLoc rank received

def sendingOf (m : ExpertMaps) (rank : ℕ) (x : ℤ × ℕ) : Sending := ⟨x.1, x.2, m.share x.1 rank⟩

def receivingOf (m : ExpertMaps) (rank : ℕ) (x : ℤ × ℕ) : Receiving :=
  ⟨x.1, x.2, m.source x.1 rank⟩

def sends (m : ExpertMaps) (rank : ℕ) : List Sending :=
  (sortedItems (m.expertsSendLoc rank)).map (m.sendingOf rank)

def recvs (m : ExpertMaps) (rank : ℕ) (loc : List (ℤ × ℕ)) : List Receiving :=
  (sortedItems loc).map (m.receivingOf rank)

variable {loc : List (ℤ × ℕ)}

theorem mem_expertsSendLoc {x : ℤ × ℕ} (h : x ∈ m.expertsSendLoc rank) :
    x.2 < m.numLocalExperts ∧ m.old rank x.2 = x.1 ∧ x.1 ≠ -1 := by
  obtain ⟨hslot, -, hold, hne⟩ := (firstSlots_spec _ _ _).slots x.1 x.2 h
  exact ⟨hslot, hold, hne⟩

/-- The experts that a rank can send are those that it holds. -/
theorem mem_keys_expertsSendLoc :
    e ∈ (m.expertsSendLoc rank).map Prod.fst ↔ e ≠ -1 ∧ m.Holds rank e := by
  constructor
  · intro h
    obtain ⟨x, hx, rfl⟩ := mem_map.mp h
    obtain ⟨hslot, hold, hne⟩ := mem_expertsSendLoc hx
    exact ⟨hne, x.2, hslot, hold⟩
  · rintro ⟨hne, slot, hslot, rfl⟩
    exact (firstSlots_spec _ _ _).complete slot hslot rfl hne

theorem RecvLoc.nodup (hloc : m.RecvLoc rank loc) : (loc.map Prod.fst).Nodup := by
  obtain ⟨_, -, rfl⟩ := hloc
  exact (firstSlots_spec _ _ _).nodup

theorem RecvLoc.slots {x : ℤ × ℕ} (hloc : m.RecvLoc rank loc) (hx : x ∈ loc) :
    x.2 < m.numLocalExperts ∧ ¬m.Served rank x.2 ∧ m.new rank x.2 = x.1 ∧ x.1 ≠ -1 := by
  obtain ⟨_, hreceived, rfl⟩ := hloc
  obtain ⟨hslot, hskip, hnew, hne⟩ := (firstSlots_spec _ _ _).slots x.1 x.2 hx
  refine ⟨hslot, fun hserved => ?_, hnew, hne⟩
  rw [(hreceived x.2 hslot).mpr hserved] at hskip
  cases hskip

/-- The experts that a rank receives are those that it needs and does not hold. -/
theorem RecvLoc.mem_keys (hloc : m.RecvLoc rank loc) :
    e ∈ loc.map Prod.fst ↔ e ≠ -1 ∧ m.Needs rank e ∧ ¬m.Holds rank e := by
  constructor
  · intro h
    obtain ⟨x, hx, rfl⟩ := mem_map.mp h
    obtain ⟨hslot, hserved, hnew, hne⟩ := hloc.slots hx
    refine ⟨hne, ⟨x.2, hslot, hnew⟩, fun hholds => hserved (.inr ?_)⟩
    rw [hnew]
    exact ⟨hne, hholds⟩
  · rintro ⟨hne, ⟨slot, hslot, rfl⟩, hnot⟩
    obtain ⟨_, hreceived, rfl⟩ := hloc
    refine (firstSlots_spec _ _ _).complete slot hslot ?_ hne
    rw [Bool.eq_false_iff, Ne, hreceived slot hslot]
    rintro (hsame | ⟨-, hholds⟩)
    · exact hnot ⟨slot, hslot, hsame⟩
    · exact hnot hholds

theorem sendPlan_eq_ok (hrank : rank < m.numRanks) : m.sendPlan rank = .ok (m.sends rank) := by
  apply mapM_eq_ok
  intro x hx
  obtain ⟨hslot, hold, -⟩ := mem_expertsSendLoc (mem_sortedItems.mp hx)
  have hmem : rank ∈ m.senders x.1 := mem_senders.mpr ⟨hrank, x.2, hslot, hold⟩
  exact bind_eq_ok.mpr ⟨_, recvRanks_eq_ok hmem, rfl⟩

/-- An expert of the receiving plan has a sender, and the rank is one of its receivers. -/
theorem RecvLoc.roles (known : m.Known) (hrank : rank < m.numRanks) (hloc : m.RecvLoc rank loc)
    (he : e ∈ loc.map Prod.fst) : m.senders e ≠ [] ∧ rank ∈ m.receivers e := by
  obtain ⟨hne, hneeds, hnot⟩ := hloc.mem_keys.mp he
  exact ⟨known.senders_ne_nil hrank hne hneeds, mem_receivers.mpr ⟨hrank, hneeds, hnot⟩⟩

theorem recvPlan_eq_ok (known : m.Known) (hrank : rank < m.numRanks) (hloc : m.RecvLoc rank loc) :
    m.recvPlan rank loc = .ok (m.recvs rank loc) := by
  apply mapM_eq_ok
  intro x hx
  obtain ⟨hsenders, hmem⟩ :=
    hloc.roles known hrank (mem_map_of_mem (mem_sortedItems.mp hx))
  exact bind_eq_ok.mpr ⟨_, sourceRank_eq_ok hsenders hmem, rfl⟩

/-! ### What one rank sends to another -/

/-- The part of the plan of `a` that goes to `b`. -/
def sendsFor (m : ExpertMaps) (a b : ℕ) : List Sending := (m.sends a).filter fun s => b ∈ s.ranks

/-- The part of the plan of `b` that comes from `a`. -/
def recvsOf (m : ExpertMaps) (b a : ℕ) (loc : List (ℤ × ℕ)) : List Receiving :=
  (m.recvs b loc).filter fun r => r.source = a

theorem sendsFor_pairwise (m : ExpertMaps) (a b : ℕ) :
    ((m.sendsFor a b).map Sending.expert).Pairwise (· < ·) := by
  have hall : ((m.sends a).map Sending.expert).Pairwise (· < ·) := by
    have hkeys : ((sortedItems (m.expertsSendLoc a)).map Prod.fst).Pairwise (· < ·) :=
      sortedItems_pairwise (firstSlots_spec _ _ _).nodup
    unfold sends
    rwa [map_map]
  exact hall.sublist (filter_sublist.map _)

theorem recvs_pairwise (hloc : m.RecvLoc b loc) :
    ((m.recvs b loc).map Receiving.expert).Pairwise (· < ·) := by
  have hkeys := sortedItems_pairwise hloc.nodup
  unfold recvs
  rwa [map_map]

theorem mem_sends {s : Sending} : s ∈ m.sends a ↔
    (s.expert, s.src) ∈ m.expertsSendLoc a ∧ s.ranks = m.share s.expert a := by
  unfold sends
  rw [mem_map]
  constructor
  · rintro ⟨_, hx, rfl⟩
    exact ⟨mem_sortedItems.mp hx, rfl⟩
  · rintro ⟨hx, hranks⟩
    exact ⟨_, mem_sortedItems.mpr hx, by rw [sendingOf, ← hranks]⟩

theorem mem_recvs {r : Receiving} : r ∈ m.recvs b loc ↔
    (r.expert, r.dst) ∈ loc ∧ r.source = m.source r.expert b := by
  unfold recvs
  rw [mem_map]
  constructor
  · rintro ⟨_, hx, rfl⟩
    exact ⟨mem_sortedItems.mp hx, rfl⟩
  · rintro ⟨hx, hsrc⟩
    exact ⟨_, mem_sortedItems.mpr hx, by rw [receivingOf, ← hsrc]⟩

theorem mem_sendsFor_expert : e ∈ (m.sendsFor a b).map Sending.expert ↔
    e ≠ -1 ∧ m.Holds a e ∧ b ∈ m.share e a := by
  rw [← and_assoc, ← mem_keys_expertsSendLoc]
  unfold sendsFor
  simp only [mem_map, mem_filter, decide_eq_true_iff]
  constructor
  · rintro ⟨_, ⟨hs, hb⟩, rfl⟩
    obtain ⟨hloc, hranks⟩ := mem_sends.mp hs
    exact ⟨⟨_, hloc, rfl⟩, hranks ▸ hb⟩
  · rintro ⟨⟨x, hx, rfl⟩, hb⟩
    exact ⟨⟨x.1, x.2, m.share x.1 a⟩, ⟨mem_sends.mpr ⟨hx, rfl⟩, hb⟩, rfl⟩

theorem mem_recvsOf_expert : e ∈ (m.recvsOf b a loc).map Receiving.expert ↔
    e ∈ loc.map Prod.fst ∧ m.source e b = a := by
  unfold recvsOf
  simp only [mem_map, mem_filter, decide_eq_true_iff]
  constructor
  · rintro ⟨_, ⟨hr, hsrc⟩, rfl⟩
    obtain ⟨hloc, heq⟩ := mem_recvs.mp hr
    exact ⟨⟨_, hloc, rfl⟩, heq ▸ hsrc⟩
  · rintro ⟨⟨x, hx, rfl⟩, hsrc⟩
    exact ⟨⟨x.1, x.2, m.source x.1 b⟩, ⟨mem_recvs.mpr ⟨hx, rfl⟩, hsrc⟩, rfl⟩

/-- One rank sends to another what the other one expects from it, in the same order. -/
theorem sendsFor_expert_eq (known : m.Known) (ha : a < m.numRanks) (hb : b < m.numRanks)
    (hloc : m.RecvLoc b loc) :
    (m.sendsFor a b).map Sending.expert = (m.recvsOf b a loc).map Receiving.expert := by
  apply (m.sendsFor_pairwise a b).eq_of_mem_iff
    ((recvs_pairwise hloc).sublist (filter_sublist.map _))
  intro e
  rw [mem_sendsFor_expert, ← recvsOf, mem_recvsOf_expert]
  constructor
  · rintro ⟨hne, hholds, hshare⟩
    have hreceiver := mem_receivers_of_mem_share hshare
    have hsrc := (mem_share_iff (mem_senders.mpr ⟨ha, hholds⟩) hreceiver).mp hshare
    obtain ⟨-, hneeds, hnot⟩ := mem_receivers.mp hreceiver
    exact ⟨hloc.mem_keys.mpr ⟨hne, hneeds, hnot⟩, hsrc⟩
  · rintro ⟨hkey, rfl⟩
    obtain ⟨hsenders, hreceiver⟩ := hloc.roles known hb hkey
    have hsrc := source_mem hsenders hreceiver
    exact ⟨(hloc.mem_keys.mp hkey).1, (mem_senders.mp hsrc).2,
      (mem_share_iff hsrc hreceiver).mpr rfl⟩

end ExpertMaps

/-! ### The experts of a plan -/

/-- The experts that are sent to a rank, in order. -/
def expertsTo (peer : ℕ) (plan : List Sending) : List ℤ :=
  plan.flatMap fun s => (s.ranks.filter fun rank => rank = peer).map fun _ => s.expert

/-- The experts that are received from a rank, in order. -/
def expertsFrom (peer : ℕ) (plan : List Receiving) : List ℤ :=
  (plan.filter fun r => r.source = peer).map Receiving.expert

theorem filter_eq_of_nodup {l : List ℕ} (hl : l.Nodup) (x : ℕ) :
    (l.filter fun y => y = x) = if x ∈ l then [x] else [] := by
  have hcount : (l.filter fun y => y = x) = List.replicate (l.count x) x := by
    rw [← filter_beq]
    exact filter_congr fun y _ => by rw [Bool.beq_eq_decide_eq]
  rw [hcount]
  split
  · rename_i hmem
    rw [count_eq_one_of_mem hl hmem, replicate_one]
  · rename_i hmem
    rw [count_eq_zero_of_not_mem hmem, replicate_zero]

theorem expertsTo_eq {plan : List Sending} (h : ∀ s ∈ plan, s.ranks.Nodup) (peer : ℕ) :
    expertsTo peer plan = (plan.filter fun s => peer ∈ s.ranks).map Sending.expert := by
  unfold expertsTo
  induction plan with
  | nil => rfl
  | cons s rest ih =>
    rw [flatMap_cons, ih fun s hs => h s (mem_cons_of_mem _ hs), filter_cons,
      filter_eq_of_nodup (h s mem_cons_self)]
    by_cases hmem : peer ∈ s.ranks <;> simp [hmem]

end Eplb
