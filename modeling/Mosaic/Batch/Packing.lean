import Mathlib.Data.List.ReduceOption
import Mosaic.Batch.Rows

/-!
# What the operations do to the places of the requests

Every operation of the batch changes at most two indices. Each gets one statement of what it does,
and the invariant of a batch that is being changed follows from these statements.
-/

/-! ### Adapters -/

namespace Batch.RequestSets

variable {cfg : Config} {r : CachedRequestState}

theorem addLora_adapters (sets : RequestSets) (r : CachedRequestState) (lora : LoRARequest) :
    (r.loraRequest = some lora → ∃ ids, (sets.addLora r).loraIdToRequestIds lora.loraIntId =
      some ids ∧ r.reqId ∈ ids) ∧
    ∀ ids, sets.loraIdToRequestIds lora.loraIntId = some ids →
      ∃ ids', (sets.addLora r).loraIdToRequestIds lora.loraIntId = some ids' ∧ ids ⊆ ids' := by
  unfold addLora
  cases hr : r.loraRequest with
  | none => exact ⟨nofun, fun ids hids => ⟨ids, hids, Finset.Subset.refl ids⟩⟩
  | some own =>
    refine ⟨?_, ?_⟩
    · intro heq
      cases heq
      exact ⟨_, Function.update_self _ _ _, Finset.mem_insert_self _ _⟩
    · intro ids hids
      by_cases hsame : lora.loraIntId = own.loraIntId
      · refine ⟨insert r.reqId ids, ?_, Finset.subset_insert _ _⟩
        dsimp only
        rw [hsame, Function.update_self, ← hsame, hids]
        rfl
      · exact ⟨ids, (Function.update_of_ne hsame _ _).trans hids, Finset.Subset.refl ids⟩

/-- Adding registers the request with its adapter and leaves the other requests there. -/
theorem addRequest_adapters (sets : RequestSets) (hparams : r.params.isSome = true)
    (lora : LoRARequest) :
    (r.loraRequest = some lora → ∃ ids, (sets.addRequest cfg r).loraIdToRequestIds lora.loraIntId =
      some ids ∧ r.reqId ∈ ids) ∧
    ∀ ids, sets.loraIdToRequestIds lora.loraIntId = some ids →
      ∃ ids', (sets.addRequest cfg r).loraIdToRequestIds lora.loraIntId = some ids' ∧
        ids ⊆ ids' := by
  unfold addRequest
  unfold CachedRequestState.params at hparams
  cases hp : r.samplingParams with
  | some p => exact addLora_adapters (sets.addSampling cfg r.reqId p) r lora
  | none =>
    rw [hp] at hparams
    cases hq : r.poolingParams with
    | some q =>
      exact addLora_adapters
        { sets with poolingParams := Function.update sets.poolingParams r.reqId (some q) } r lora
    | none =>
      rw [hq] at hparams
      cases hparams

end Batch.RequestSets

namespace Batch.InputBatch

variable {cfg : Config} {widths : List ℕ} {s s' : InputBatch} {live : List CachedRequestState}
  {r : CachedRequestState} {i j : ℕ} {id : ReqId}

/-! ### The invariant -/

/-- The request with this id stands at this index. -/
def StandsAt (s : InputBatch) (id : ReqId) (i : ℕ) : Prop := s.reqIds[i]? = some (some id)

/-- Nothing stands at this index. -/
def VacantAt (s : InputBatch) (i : ℕ) : Prop := ∀ id, ¬ s.StandsAt id i

/-- The batch holds exactly the given requests, each at one index. -/
structure Placed (s : InputBatch) (live : List CachedRequestState) : Prop where
  distinct : (live.map CachedRequestState.reqId).Nodup
  inverse : ∀ id i, s.reqIdToIndex.lookup id = some i ↔ s.StandsAt id i
  present : ∀ id, id ∈ s.reqIdToIndex ↔ id ∈ live.map CachedRequestState.reqId
  lengths : s.reqOutputTokenIds.length = s.reqIds.length

/-- A property of the row of every request in the batch. -/
def AllRows (P : Row → CachedRequestState → Prop) (s : InputBatch)
    (live : List CachedRequestState) : Prop :=
  ∀ i, ∀ r ∈ live, s.StandsAt r.reqId i → P (s.columns.row i) r

/-- Vacant indices have no entry in the dictionaries by index. -/
def Clean (s : InputBatch) : Prop :=
  ∀ i, s.VacantAt i →
    (s.columns.row i).generator = none ∧ (s.columns.row i).badWordsTokenIds = none

/-- The adapter of every request knows the request. -/
def Adapted (s : InputBatch) (live : List CachedRequestState) : Prop :=
  ∀ r ∈ live, ∀ lora, r.loraRequest = some lora →
    ∃ ids, s.sets.loraIdToRequestIds lora.loraIntId = some ids ∧ r.reqId ∈ ids

/-- What holds of the batch at any time. -/
structure Core (cfg : Config) (widths : List ℕ) (s : InputBatch) (live : List CachedRequestState) :
    Prop where
  placed : s.Placed live
  fits : s.AllRows (Row.Fits cfg) live
  clean : s.Clean
  adapted : s.Adapted live
  widths : s.columns.widths = widths
  capacity : s.reqIds.length ≤ cfg.maxNumReqs

/-- The invariant between the operations of one step: the recorded indices are the empty slots,
and their mask rows are clean. -/
structure Open (cfg : Config) (widths : List ℕ) (s : InputBatch) (live : List CachedRequestState) :
    Prop extends Core cfg widths s live where
  sorted : s.builder.Sorted
  empty : ∀ i, i ∈ s.builder.removedList ↔ s.reqIds[i]? = some none
  count : s.reqIds.length = s.numReqs + s.builder.removedList.length
  cleared : ∀ i ∈ s.builder.removedList, s.columns.mask i = fun _ => false

/-! ### Places -/

theorem StandsAt.lt_length (h : s.StandsAt id i) : i < s.reqIds.length :=
  (List.getElem?_eq_some_iff.mp h).1

theorem vacantAt_of_none (h : s.reqIds[i]? = some none) : s.VacantAt i := by
  intro id hid
  cases h.symm.trans hid

theorem vacantAt_of_length_le (h : s.reqIds.length ≤ i) : s.VacantAt i :=
  fun _ hid => absurd hid.lt_length (by omega)

section

variable (h : s.Placed live)
include h

theorem Placed.numReqs : s.numReqs = live.length := by
  have hperm : s.reqIdToIndex.keys.Perm (live.map CachedRequestState.reqId) := by
    apply (List.perm_ext_iff_of_nodup s.reqIdToIndex.keys_nodup h.distinct).mpr
    intro id
    rw [← AList.mem_keys]
    exact h.present id
  exact hperm.length_eq.trans (List.length_map _)

/-- An id stands at one index only. -/
theorem Placed.index_unique (hi : s.StandsAt id i) (hj : s.StandsAt id j) : i = j :=
  Option.some.inj (((h.inverse id i).mpr hi).symm.trans ((h.inverse id j).mpr hj))

/-- Whatever stands in the batch is one of its requests. -/
theorem Placed.mem_of_standsAt (hi : s.StandsAt id i) : id ∈ live.map CachedRequestState.reqId := by
  rw [← h.present, ← AList.lookup_isSome, (h.inverse id i).mpr hi]
  rfl

/-- Every request of the batch stands somewhere. -/
theorem Placed.exists_index (hr : r ∈ live) : ∃ i, s.StandsAt r.reqId i := by
  have hmem := (h.present r.reqId).mpr (List.mem_map_of_mem hr)
  obtain ⟨i, hi⟩ := Option.isSome_iff_exists.mp (AList.lookup_isSome.mpr hmem)
  exact ⟨i, (h.inverse _ i).mp hi⟩

/-! ### Removing a request -/

end

/-- What removing the request at an index does. -/
structure Removal (s s' : InputBatch) (id : ReqId) (i : ℕ) : Prop where
  reqIds : s'.reqIds = s.reqIds.set i none
  outputs : s'.reqOutputTokenIds = s.reqOutputTokenIds.set i none
  index : s'.reqIdToIndex = s.reqIdToIndex.erase id
  columns : s'.columns = s.columns.removeRequest i
  builder : s'.builder = { s.builder with removedList := s.builder.removedList ++ [i] }
  sets : ∃ sets : RequestSets, sets.loraIdToRequestIds = s.sets.loraIdToRequestIds ∧
    sets.removeLora id (s.columns.requestLoraMapping i) = .ok s'.sets

theorem Removal.standsAt (h : Removal s s' id i) {id' : ReqId} {j : ℕ} :
    s'.StandsAt id' j ↔ j ≠ i ∧ s.StandsAt id' j := by
  unfold StandsAt
  rw [h.reqIds, List.getElem?_set]
  by_cases hij : i = j
  · rw [if_pos hij]
    constructor
    · intro hsome
      split at hsome <;> cases hsome
    · intro hne
      exact absurd hij.symm hne.1
  · rw [if_neg hij]
    exact ⟨fun hsome => ⟨Ne.symm hij, hsome⟩, fun hsome => hsome.2⟩

theorem Removal.row_of_ne (h : Removal s s' id i) {j : ℕ} (hj : j ≠ i) :
    s'.columns.row j = s.columns.row j := by
  rw [h.columns, Columns.row_removeRequest hj]

/-- The removed request's adapter is found, since every adapter knows its requests. -/
theorem removeRequest_sets_ok (h : s.Core cfg widths live) (hi : s.StandsAt id i) :
    ∃ sets, s.sets.removeRequest id (s.columns.requestLoraMapping i) = .ok sets := by
  obtain ⟨r, hr, rfl⟩ := List.mem_map.mp (h.placed.mem_of_standsAt hi)
  have hlora : s.columns.requestLoraMapping i =
      (r.loraRequest.map LoRARequest.loraIntId).getD 0 := (h.fits i r hr hi).lora
  unfold RequestSets.removeRequest RequestSets.removeLora
  rw [hlora]
  cases hreq : r.loraRequest with
  | none => exact ⟨_, if_pos rfl⟩
  | some lora =>
    obtain ⟨_, hids, -⟩ := h.adapted r hr lora hreq
    simp only [Option.map_some, Option.getD_some, lora.positive.ne', if_false, hids]
    split
    · exact ⟨_, rfl⟩
    · exact ⟨_, rfl⟩

/-- Removing a request of the batch before any removed index was read. -/
theorem removeRequest_spec (h : s.Core cfg widths live) (hi : s.StandsAt id i)
    (hunread : s.builder.isRemovedSorted = false) :
    ∃ s', s.removeRequest id = .ok (some i, s') ∧ Removal s s' id i := by
  obtain ⟨sets, hsets⟩ := removeRequest_sets_ok h hi
  have hget := (h.placed.inverse id i).mpr hi
  have hlt := hi.lt_length
  have hlt' : i < s.reqOutputTokenIds.length := h.placed.lengths ▸ hlt
  have hbuilder : s.builder.removedAppend i =
      .ok { s.builder with removedList := s.builder.removedList ++ [i] } :=
    BatchUpdateBuilder.removedAppend_eq_ok.mpr ⟨hunread, rfl⟩
  refine ⟨{ reqIds := s.reqIds.set i none
            reqOutputTokenIds := s.reqOutputTokenIds.set i none
            sets := sets
            builder := { s.builder with removedList := s.builder.removedList ++ [i] }
            reqIdToIndex := s.reqIdToIndex.erase id
            columns := s.columns.removeRequest i }, ?_, rfl, rfl, rfl, rfl, rfl, ?_⟩
  · unfold removeRequest
    simp only [hget, hbuilder, setItem, hlt, hlt', if_true, hsets, bind, Except.bind, pure,
      Except.pure]
  · refine ⟨_, ?_, hsets⟩
    rfl

/-- Removing an id that is not in the batch does nothing. -/
theorem removeRequest_of_notMem (h : s.Placed live)
    (hid : id ∉ live.map CachedRequestState.reqId) : s.removeRequest id = .ok (none, s) := by
  have hget : s.reqIdToIndex.lookup id = none := by
    rw [AList.lookup_eq_none, h.present]
    exact hid
  simp only [removeRequest, hget]

/-- The requests that stay when one is removed. -/
def without (live : List CachedRequestState) (id : ReqId) : List CachedRequestState :=
  live.filter fun r => r.reqId ≠ id

theorem mem_without {r : CachedRequestState} : r ∈ without live id ↔ r ∈ live ∧ r.reqId ≠ id := by
  simp [without]

section

variable (h : Removal s s' id i)
include h

theorem Removal.placed (hi : s.StandsAt id i) (hs : s.Placed live) :
    s'.Placed (without live id) := by
  refine ⟨hs.distinct.sublist (List.filter_sublist.map _), ?_, ?_, ?_⟩
  · intro id' j
    rw [h.standsAt, h.index]
    by_cases hid : id' = id
    · subst hid
      rw [AList.lookup_erase]
      exact ⟨nofun, fun ⟨hne, hj⟩ => absurd (hs.index_unique hj hi) hne⟩
    · rw [AList.lookup_erase_ne hid, hs.inverse]
      refine ⟨fun hj => ⟨?_, hj⟩, And.right⟩
      rintro rfl
      exact hid (Option.some.inj (Option.some.inj (hj.symm.trans hi)))
  · intro id'
    rw [h.index, AList.mem_erase, hs.present]
    simp only [List.mem_map, mem_without]
    constructor
    · rintro ⟨hne, r, hr, rfl⟩
      exact ⟨r, ⟨hr, hne⟩, rfl⟩
    · rintro ⟨r, ⟨hr, hne⟩, rfl⟩
      exact ⟨hne, r, hr, rfl⟩
  · rw [h.outputs, h.reqIds, List.length_set, List.length_set, hs.lengths]

theorem Removal.allRows {P : Row → CachedRequestState → Prop} (hs : s.AllRows P live) :
    s'.AllRows P (without live id) := by
  intro j r hr hj
  obtain ⟨hne, hj⟩ := h.standsAt.mp hj
  rw [h.row_of_ne hne]
  exact hs j r (mem_without.mp hr).1 hj

/-- The other requests stay known to their adapters. -/
theorem Removal.adapted (hs : s.Adapted live) : s'.Adapted (without live id) := by
  intro r hr lora hlora
  obtain ⟨hr, hne⟩ := mem_without.mp hr
  obtain ⟨ids, hids, hmem⟩ := hs r hr lora hlora
  obtain ⟨sets, hsame, hok⟩ := h.sets
  rw [← hsame] at hids
  unfold RequestSets.removeLora at hok
  split at hok
  · cases hok
    exact ⟨ids, hids, hmem⟩
  · split at hok
    · cases hok
    · rename_i known hknown
      have hkeep : ∀ (hl : lora.loraIntId = s.columns.requestLoraMapping i),
          r.reqId ∈ known.erase id := by
        intro hl
        rw [hl, hknown] at hids
        cases hids
        exact Finset.mem_erase.mpr ⟨hne, hmem⟩
      split at hok
      · rename_i hlast
        obtain hsets := Except.ok.inj hok
        have hother : lora.loraIntId ≠ s.columns.requestLoraMapping i := by
          intro hl
          exact absurd (hlast ▸ hkeep hl) (Finset.notMem_empty _)
        refine ⟨ids, ?_, hmem⟩
        rw [← hsets]
        exact (Function.update_of_ne hother _ _).trans hids
      · obtain hsets := Except.ok.inj hok
        rw [← hsets]
        by_cases hl : lora.loraIntId = s.columns.requestLoraMapping i
        · exact ⟨known.erase id, by simp [hl], hkeep hl⟩
        · exact ⟨ids, (Function.update_of_ne hl _ _).trans hids, hmem⟩

theorem Removal.clean (hs : s.Clean) : s'.Clean := by
  intro j hj
  by_cases hij : j = i
  · subst hij
    rw [h.columns]
    have hclean := Columns.removeRequest_clean s.columns j
    exact ⟨hclean.1, hclean.2.1⟩
  · rw [h.row_of_ne hij]
    apply hs
    intro id' hid'
    exact hj id' (h.standsAt.mpr ⟨hij, hid'⟩)

theorem Removal.numReqs (hi : s.StandsAt id i) (hs : s.Placed live) :
    s'.numReqs + 1 = s.numReqs := by
  have hmem : id ∈ s.reqIdToIndex.keys := by
    rw [← AList.mem_keys, hs.present]
    exact hs.mem_of_standsAt hi
  unfold InputBatch.numReqs
  rw [h.index, AList.keys_erase, List.length_erase_of_mem hmem]
  have := List.length_pos_of_mem hmem
  omega

end

/-- A removal keeps the invariant, whether the id is in the batch or not. -/
theorem Open.removeRequest (h : s.Open cfg widths live)
    (hunread : s.builder.isRemovedSorted = false) (id : ReqId) :
    ∃ i s', s.removeRequest id = .ok (i, s') ∧ s'.Open cfg widths (without live id) ∧
      s'.builder.isRemovedSorted = false ∧ s'.reqIds.length = s.reqIds.length ∧
      (∀ P, s.AllRows P live → s'.AllRows P (without live id)) ∧
      (∀ j, s.reqIds.length ≤ j → s'.columns.mask j = s.columns.mask j) ∧
      (s' = s ∧ without live id = live ∨ ∃ k, s.StandsAt id k ∧ Removal s s' id k) := by
  by_cases hid : id ∈ live.map CachedRequestState.reqId
  · obtain ⟨r, hr, rfl⟩ := List.mem_map.mp hid
    obtain ⟨i, hi⟩ := h.placed.exists_index hr
    obtain ⟨s', hok, heff⟩ := removeRequest_spec h.toCore hi hunread
    have hlen : s'.reqIds.length = s.reqIds.length := by rw [heff.reqIds, List.length_set]
    have hremoved : s'.builder.removedList = s.builder.removedList ++ [i] := by rw [heff.builder]
    -- A removed index stands empty, and this one does not yet.
    have hnew : i ∉ s.builder.removedList := by
      intro hmem
      cases ((h.empty i).mp hmem).symm.trans hi
    refine ⟨some i, s', hok, ?_, ?_, hlen, fun P => heff.allRows, ?_, .inr ⟨i, hi, heff⟩⟩
    · refine ⟨⟨heff.placed hi h.placed, heff.allRows h.fits, heff.clean h.clean,
        heff.adapted h.adapted, ?_, hlen ▸ h.capacity⟩, ?_, ?_, ?_, ?_⟩
      · rw [heff.columns]
        exact h.widths
      · exact h.sorted.removedAppend hnew
          (BatchUpdateBuilder.removedAppend_eq_ok.mpr ⟨hunread, heff.builder⟩)
      · -- empty: the indices to be filled are the empty ones, and now this one.
        intro j
        rw [hremoved, heff.reqIds, List.getElem?_set, List.mem_append, List.mem_singleton, h.empty]
        by_cases hij : i = j
        · simp [hij, hij ▸ hi.lt_length]
        · simp [hij, Ne.symm hij]
      · rw [hlen, hremoved, List.length_append, List.length_singleton, h.count]
        have := heff.numReqs hi h.placed
        omega
      · intro j hj
        rw [heff.columns]
        by_cases hij : j = i
        · rw [hij]
          exact (Columns.removeRequest_clean s.columns i).2.2
        · have hj : j ∈ s.builder.removedList := by
            rw [hremoved, List.mem_append, List.mem_singleton] at hj
            exact hj.resolve_right hij
          exact (congrArg Row.mask (Columns.row_removeRequest hij)).trans (h.cleared j hj)
    · rw [heff.builder]
      exact hunread
    · intro j hj
      have hne : j ≠ i := by
        have := hi.lt_length
        omega
      exact congrArg Row.mask (heff.row_of_ne hne)
  · -- The id is not in the batch: nothing is removed and nothing is recorded.
    have hsame : without live id = live := by
      apply List.filter_eq_self.mpr
      intro r hr
      rw [decide_eq_true_eq]
      rintro rfl
      exact hid (List.mem_map_of_mem hr)
    rw [hsame]
    exact ⟨none, s, removeRequest_of_notMem h.placed hid, h, hunread, rfl, fun _ hP => hP,
      fun _ _ => rfl, .inl ⟨rfl, rfl⟩⟩

/-! ### Adding a request -/

/-- What adding a request does: it takes the lowest empty slot, or the end of the batch when there
is none, and gets its row there. -/
structure Addition (cfg : Config) (s s' : InputBatch) (r : CachedRequestState) (i : ℕ) : Prop where
  slot : s.builder.removedList = [] ∧ i = s.numReqs ∧ s'.reqIds.length = s.reqIds.length + 1 ∨
    i ∈ s.builder.removedList ∧ s'.reqIds.length = s.reqIds.length
  reqIds : ∀ j, s'.reqIds[j]? = if j = i then some (some r.reqId) else s.reqIds[j]?
  outputs : s'.reqOutputTokenIds.length = s'.reqIds.length
  index : s'.reqIdToIndex = s.reqIdToIndex.insert r.reqId i
  rows : ∀ j, j ≠ i → s'.columns.row j = s.columns.row j
  fits : (s'.columns.row i).Fits cfg r
  mask : ∀ p, r.samplingParams = some p → (s'.columns.row i).mask =
    if p.allowedTokenIds = [] then s.columns.mask i else Columns.maskRow cfg p.allowedTokenIds
  widths : s'.columns.widths = s.columns.widths
  sets : s'.sets = s.sets.addRequest cfg r
  sorted : s'.builder.Sorted
  removed : ∀ j, j ∈ s'.builder.removedList ↔ j ∈ s.builder.removedList ∧ j ≠ i
  fewer : s'.builder.removedList.length = s.builder.removedList.length - 1
  added : s'.builder.added = s.builder.added ++ [⟨i, r.params, r.outputRef⟩]
  moved : s'.builder.moved = s.builder.moved
  room : i < cfg.maxNumReqs

theorem Addition.standsAt (h : Addition cfg s s' r i) {id : ReqId} {j : ℕ} :
    s'.StandsAt id j ↔ j = i ∧ id = r.reqId ∨ j ≠ i ∧ s.StandsAt id j := by
  unfold StandsAt
  rw [h.reqIds]
  by_cases hij : j = i
  · simp [hij, eq_comm]
  · simp [hij]

/-- In the middle of a step an index is free for the next request. -/
theorem Open.vacantAt_next (h : s.Open cfg widths live)
    (hslot : s.builder.removedList = [] ∧ i = s.numReqs ∨ i ∈ s.builder.removedList) :
    s.VacantAt i := by
  rcases hslot with ⟨hnil, rfl⟩ | hmem
  · apply vacantAt_of_length_le
    rw [h.count, hnil]
    exact le_rfl
  · exact vacantAt_of_none ((h.empty i).mp hmem)

theorem placeRequest_append (hi : i = s.reqIds.length) :
    s.placeRequest i r = .ok { s with
      reqIds := s.reqIds ++ [some r.reqId]
      reqOutputTokenIds := s.reqOutputTokenIds ++ [some r.outputRef]
      reqIdToIndex := s.reqIdToIndex.insert r.reqId i } := if_pos hi

theorem placeRequest_fill (hi : i < s.reqIds.length) (hout : i < s.reqOutputTokenIds.length) :
    s.placeRequest i r = .ok { s with
      reqIds := s.reqIds.set i (some r.reqId)
      reqOutputTokenIds := s.reqOutputTokenIds.set i (some r.outputRef)
      reqIdToIndex := s.reqIdToIndex.insert r.reqId i } := by
  unfold placeRequest
  rw [if_neg hi.ne]
  simp only [setItem, hi, hout, if_true, bind, Except.bind, pure, Except.pure]

/-- A request that fits is added to a batch that has room. -/
theorem addRequest_spec (h : s.Open cfg widths live) (fits : r.FitsIn cfg widths)
    (room : s.numReqs < cfg.maxNumReqs) :
    ∃ i s', s.addRequest cfg r = .ok (i, s') ∧ Addition cfg s s' r i := by
  have hlengths := h.placed.lengths
  rcases hpop : s.builder.popRemoved with ⟨popped, builder⟩
  cases popped with
  | none =>
    -- no empty slot: the request is appended
    obtain ⟨hnil, rfl⟩ := BatchUpdateBuilder.popRemoved_none hpop
    have hend : s.numReqs = s.reqIds.length := by
      rw [h.count, hnil]
      rfl
    have hvacant := h.vacantAt_next (.inl ⟨hnil, rfl⟩)
    obtain ⟨hgen, hbad⟩ := h.clean _ hvacant
    obtain ⟨columns, hcolumns, hrows, hfits, hwidths, hmask⟩ :=
      Columns.addRequest_spec (h.widths ▸ fits) hgen hbad
    refine ⟨s.numReqs, { s with
        builder := { s.builder with
          added := s.builder.added ++ [⟨s.numReqs, r.params, r.outputRef⟩] }
        reqIds := s.reqIds ++ [some r.reqId]
        reqOutputTokenIds := s.reqOutputTokenIds ++ [some r.outputRef]
        reqIdToIndex := s.reqIdToIndex.insert r.reqId s.numReqs
        columns := columns
        sets := s.sets.addRequest cfg r }, ?_, ?_⟩
    · have hregister : s.registerAddRequest cfg r = .ok (s.numReqs, { s with
          builder := { s.builder with
            added := s.builder.added ++ [⟨s.numReqs, r.params, r.outputRef⟩] } }) := by
        simp only [registerAddRequest, getNextAddIndex, hpop, room, if_true]
      exact Fallible.bind_eq_ok.mpr ⟨_, hregister, Fallible.bind_eq_ok.mpr
        ⟨_, placeRequest_append hend, Fallible.bind_eq_ok.mpr ⟨columns, hcolumns, rfl⟩⟩⟩
    · refine ⟨.inl ⟨hnil, rfl, List.length_append⟩, ?_, ?_, rfl, hrows, hfits, hmask, hwidths, rfl,
        ⟨h.sorted.nodup, h.sorted.descending⟩, ?_, ?_, rfl, rfl, room⟩
      · intro j
        rw [hend]
        by_cases hj : j = s.reqIds.length
        · rw [if_pos hj, hj, List.getElem?_append_right (le_rfl), Nat.sub_self]
          rfl
        · rw [if_neg hj]
          rcases Nat.lt_or_ge j s.reqIds.length with hlt | hge
          · exact List.getElem?_append_left hlt
          · rw [List.getElem?_eq_none (by rw [List.length_append, List.length_singleton]; omega),
              List.getElem?_eq_none hge]
      · dsimp only
        rw [List.length_append, List.length_append, hlengths]
        rfl
      · intro j
        dsimp only
        rw [hnil]
        simp
      · dsimp only
        rw [hnil]
        rfl
  | some i =>
    -- the lowest empty slot is filled
    obtain ⟨hmem, -, hremoved, hlength, hsorted, -, hmoved, hadded⟩ :=
      BatchUpdateBuilder.popRemoved_spec h.sorted hpop
    have hlt : i < s.reqIds.length :=
      (List.getElem?_eq_some_iff.mp ((h.empty i).mp hmem)).1
    have hlt' : i < s.reqOutputTokenIds.length := hlengths ▸ hlt
    have hroom : i < cfg.maxNumReqs := lt_of_lt_of_le hlt h.capacity
    have hvacant := h.vacantAt_next (.inr hmem)
    obtain ⟨hgen, hbad⟩ := h.clean _ hvacant
    obtain ⟨columns, hcolumns, hrows, hfits, hwidths, hmask⟩ :=
      Columns.addRequest_spec (h.widths ▸ fits) hgen hbad
    refine ⟨i, { s with
        builder := { builder with added := builder.added ++ [⟨i, r.params, r.outputRef⟩] }
        reqIds := s.reqIds.set i (some r.reqId)
        reqOutputTokenIds := s.reqOutputTokenIds.set i (some r.outputRef)
        reqIdToIndex := s.reqIdToIndex.insert r.reqId i
        columns := columns
        sets := s.sets.addRequest cfg r }, ?_, ?_⟩
    · have hregister : s.registerAddRequest cfg r = .ok (i, { s with
          builder := { builder with
            added := builder.added ++ [⟨i, r.params, r.outputRef⟩] } }) := by
        simp only [registerAddRequest, getNextAddIndex, hpop, hroom, if_true]
      exact Fallible.bind_eq_ok.mpr ⟨_, hregister, Fallible.bind_eq_ok.mpr
        ⟨_, placeRequest_fill hlt hlt', Fallible.bind_eq_ok.mpr ⟨columns, hcolumns, rfl⟩⟩⟩
    · refine ⟨.inr ⟨hmem, List.length_set⟩, ?_, ?_, rfl, hrows, hfits, hmask, hwidths, rfl,
        ⟨hsorted.nodup, hsorted.descending⟩, hremoved, by dsimp only; omega,
        congrArg (· ++ [_]) hadded, hmoved, hroom⟩
      · intro j
        rw [List.getElem?_set]
        by_cases hj : i = j
        · rw [if_pos hj, if_pos hj.symm, if_pos hlt]
        · rw [if_neg hj, if_neg (Ne.symm hj)]
      · dsimp only
        rw [List.length_set, List.length_set, hlengths]

section

variable (h : Addition cfg s s' r i)
include h

theorem Addition.vacantAt (hs : s.Open cfg widths live) : s.VacantAt i := by
  apply hs.vacantAt_next
  rcases h.slot with ⟨hnil, hi, -⟩ | ⟨hmem, -⟩
  · exact .inl ⟨hnil, hi⟩
  · exact .inr hmem

theorem Addition.numReqs (hs : s.Placed live) (hnew : r.reqId ∉ live.map CachedRequestState.reqId) :
    s'.numReqs = s.numReqs + 1 := by
  have hkey : r.reqId ∉ s.reqIdToIndex.keys := by
    rw [← AList.mem_keys, hs.present]
    exact hnew
  unfold InputBatch.numReqs
  rw [h.index, AList.keys_insert, List.erase_of_not_mem hkey, List.length_cons]

section

variable (hs : s.Open cfg widths live) (hnew : r.reqId ∉ live.map CachedRequestState.reqId)
include hs hnew

theorem Addition.placed : s'.Placed (live ++ [r]) := by
  refine ⟨?_, ?_, ?_, h.outputs⟩
  · rw [List.map_append, List.nodup_append]
    refine ⟨hs.placed.distinct, List.nodup_singleton _, ?_⟩
    rintro id hid _ hr rfl
    exact hnew (List.mem_singleton.mp hr ▸ hid)
  · intro id j
    rw [h.standsAt, h.index]
    by_cases hid : id = r.reqId
    · subst hid
      rw [AList.lookup_insert]
      constructor
      · intro hj
        exact .inl ⟨(Option.some.inj hj).symm, rfl⟩
      · rintro (⟨rfl, -⟩ | ⟨-, hj⟩)
        · rfl
        · exact absurd (hs.placed.mem_of_standsAt hj) hnew
    · rw [AList.lookup_insert_ne hid, hs.placed.inverse]
      constructor
      · intro hj
        refine .inr ⟨?_, hj⟩
        rintro rfl
        exact h.vacantAt hs id hj
      · rintro (⟨-, rfl⟩ | ⟨-, hj⟩)
        · exact absurd rfl hid
        · exact hj
  · intro id
    rw [h.index, AList.mem_insert, hs.placed.present, List.map_append, List.mem_append, or_comm]
    simp

/-- The rows after an addition are the rows before it and the new one. -/
theorem Addition.allRows_iff {P : Row → CachedRequestState → Prop} :
    s'.AllRows P (live ++ [r]) ↔ s.AllRows P live ∧ P (s'.columns.row i) r := by
  constructor
  · intro hP
    refine ⟨fun j r₀ hr₀ hj => ?_, hP i r (by simp) (h.standsAt.mpr (.inl ⟨rfl, rfl⟩))⟩
    have hne : j ≠ i := by
      rintro rfl
      exact h.vacantAt hs _ hj
    rw [← h.rows j hne]
    exact hP j r₀ (List.mem_append_left _ hr₀) (h.standsAt.mpr (.inr ⟨hne, hj⟩))
  · rintro ⟨hold, hrow⟩ j r₀ hr₀ hj
    rcases h.standsAt.mp hj with ⟨rfl, hid⟩ | ⟨hne, hj⟩
    · have heq : r₀ = r := by
        rcases List.mem_append.mp hr₀ with hr₀ | hr₀
        · exact absurd (hid ▸ List.mem_map_of_mem hr₀) hnew
        · exact List.mem_singleton.mp hr₀
      rw [heq]
      exact hrow
    · rw [h.rows j hne]
      rcases List.mem_append.mp hr₀ with hr₀ | hr₀
      · exact hold j r₀ hr₀ hj
      · rw [List.mem_singleton.mp hr₀] at hj
        exact absurd (hs.placed.mem_of_standsAt hj) hnew

end

theorem Addition.clean (hs : s.Clean) : s'.Clean := by
  intro j hj
  have hne : j ≠ i := by
    rintro rfl
    exact hj _ (h.standsAt.mpr (.inl ⟨rfl, rfl⟩))
  rw [h.rows j hne]
  apply hs
  intro id hid
  exact hj id (h.standsAt.mpr (.inr ⟨hne, hid⟩))

theorem Addition.adapted (hparams : r.params.isSome = true) (hs : s.Adapted live) :
    s'.Adapted (live ++ [r]) := by
  intro r₀ hr₀ lora hlora
  obtain ⟨hown, hothers⟩ := @RequestSets.addRequest_adapters cfg r s.sets hparams lora
  rw [h.sets]
  rcases List.mem_append.mp hr₀ with hr₀ | hr₀
  · obtain ⟨ids, hids, hmem⟩ := hs r₀ hr₀ lora hlora
    obtain ⟨ids', hids', hsub⟩ := hothers ids hids
    exact ⟨ids', hids', hsub hmem⟩
  · rw [List.mem_singleton.mp hr₀] at hlora ⊢
    exact hown hlora

/-- An addition keeps the invariant. -/
theorem Addition.open (hs : s.Open cfg widths live) (fits : r.FitsIn cfg widths)
    (room : s.numReqs < cfg.maxNumReqs) (hnew : r.reqId ∉ live.map CachedRequestState.reqId) :
    s'.Open cfg widths (live ++ [r]) := by
  have hnum := h.numReqs hs.placed hnew
  have hcount := hs.count
  refine ⟨⟨h.placed hs hnew, (h.allRows_iff hs hnew).mpr ⟨hs.fits, h.fits⟩, h.clean hs.clean,
    h.adapted fits.params hs.adapted, h.widths.trans hs.widths, ?_⟩, h.sorted, ?_, ?_, ?_⟩
  · rcases h.slot with ⟨hnil, -, hlen⟩ | ⟨-, hlen⟩
    · rw [hnil, List.length_nil] at hcount
      omega
    · exact hlen ▸ hs.capacity
  · intro j
    rw [h.removed, h.reqIds, hs.empty]
    by_cases hj : j = i
    · simp [hj]
    · simp [hj]
  · have hfewer := h.fewer
    rcases h.slot with ⟨hnil, -, hlen⟩ | ⟨hmem, hlen⟩
    · rw [hnil, List.length_nil] at hcount hfewer
      omega
    · have := List.length_pos_of_mem hmem
      omega
  · intro j hj
    obtain ⟨hj, hne⟩ := (h.removed j).mp hj
    exact (congrArg Row.mask (h.rows j hne)).trans (hs.cleared j hj)

/-- An added request's mask is right, except where it needs none, is appended, and the row that it
gets is not clean. -/
theorem Addition.maskFits_iff (hs : s.Open cfg widths live) :
    (s'.columns.row i).MaskFits cfg r ↔ (s.builder.removedList = [] → r.Unrestricted →
      ∀ token < cfg.vocabSize, s.columns.mask s.numReqs token = false) := by
  constructor
  · rintro hfits hnil ⟨p, hp, hall⟩ token htoken
    have hmask := hfits p hp token htoken
    rw [h.mask p hp, if_pos hall, SamplingParams.forbidden, if_pos hall] at hmask
    rcases h.slot with ⟨-, rfl, -⟩ | ⟨hmem, -⟩
    · exact hmask
    · rw [hnil] at hmem
      cases hmem
  · intro hclean p hp token htoken
    rw [h.mask p hp, SamplingParams.forbidden]
    split
    · rename_i hall
      rcases h.slot with ⟨hnil, rfl, -⟩ | ⟨hmem, -⟩
      · exact hclean hnil ⟨p, hp, hall⟩ token htoken
      · exact congrFun (hs.cleared i hmem) token
    · rfl

end

end Batch.InputBatch
