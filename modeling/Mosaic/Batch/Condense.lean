import Mosaic.Batch.Packing

/-!
# Condensing the batch

`condense` moves the last requests into the lowest empty slots until no slot below the last request
is empty, and cuts the lists off behind it.
-/

namespace Batch.InputBatch

open List

variable {cfg : Config} {widths : List ℕ} {s s' : InputBatch} {live : List CachedRequestState}
  {src tgt last : ℕ} {id : ReqId}

/-! ### The largest index in use -/

theorem largestNonEmpty_some {empty : List ℕ} {n m : ℕ} (h : largestNonEmpty empty n = some m) :
    m ≤ n ∧ m ∉ empty ∧ ∀ k, m < k → k ≤ n → k ∈ empty := by
  induction n with
  | zero =>
    unfold largestNonEmpty at h
    split at h
    · cases h
    · rename_i hout
      cases h
      exact ⟨le_rfl, hout, fun k hlt hle => absurd hle (by omega)⟩
  | succ n ih =>
    unfold largestNonEmpty at h
    split at h
    · rename_i hin
      obtain ⟨hle, hout, hbetween⟩ := ih h
      refine ⟨by omega, hout, fun k hlt hk => ?_⟩
      rcases lt_or_ge n k with hgt | hge
      · have hk : k = n + 1 := by omega
        exact hk ▸ hin
      · exact hbetween k hlt hge
    · rename_i hout
      cases h
      exact ⟨le_rfl, hout, fun k hlt hle => absurd hle (by omega)⟩

theorem largestNonEmpty_none {empty : List ℕ} {n : ℕ} (h : largestNonEmpty empty n = none) :
    ∀ k ≤ n, k ∈ empty := by
  induction n with
  | zero =>
    unfold largestNonEmpty at h
    split at h
    · rename_i hin
      intro k hk
      exact Nat.le_zero.mp hk ▸ hin
    · cases h
  | succ n ih =>
    unfold largestNonEmpty at h
    split at h
    · rename_i hin
      intro k hk
      rcases lt_or_ge n k with hgt | hge
      · have hk : k = n + 1 := by omega
        exact hk ▸ hin
      · exact ih h k hge
    · cases h

/-! ### One round -/

/-- What moving a request does. -/
structure Move (s s' : InputBatch) (src tgt : ℕ) (id : ReqId) : Prop where
  reqIds : s'.reqIds = (s.reqIds.set tgt (some id)).set src none
  outputs : s'.reqOutputTokenIds.length = s.reqOutputTokenIds.length
  index : s'.reqIdToIndex = s.reqIdToIndex.insert id tgt
  columns : s'.columns = s.columns.moveRequest src tgt
  sets : s'.sets = s.sets
  removed : s'.builder.removedList = s.builder.popRemoved.2.removedList
  sortedFlag : s'.builder.isRemovedSorted = s.builder.popRemoved.2.isRemovedSorted
  added : s'.builder.added = s.builder.popRemoved.2.added
  moved : s'.builder.moved = s.builder.popRemoved.2.moved ++ [⟨src, tgt, .unidirectional⟩]

theorem moveRequest_spec (hsrc : s.StandsAt id src) (htgt : tgt < src)
    (hlens : s.reqOutputTokenIds.length = s.reqIds.length) :
    ∃ s', s.moveRequest src tgt = .ok s' ∧ Move s s' src tgt id := by
  have hlt := hsrc.lt_length
  have htgt' := htgt.trans hlt
  unfold StandsAt at hsrc
  unfold moveRequest
  simp only [hsrc, setItem, length_set, htgt', hlt, hlens, if_true, bind, Except.bind,
    pure, Except.pure]
  refine ⟨_, rfl, rfl, ?_, rfl, rfl, rfl, rfl, rfl, rfl, rfl⟩
  simp only [length_set]

section

variable (h : Move s s' src tgt id) (hsrc : s.StandsAt id src) (htgt : tgt < src)
include h hsrc htgt

theorem Move.standsAt {id' : ReqId} {j : ℕ} :
    s'.StandsAt id' j ↔ j = tgt ∧ id' = id ∨ j ≠ src ∧ j ≠ tgt ∧ s.StandsAt id' j := by
  have hlt := hsrc.lt_length
  unfold StandsAt
  rw [h.reqIds, getElem?_set, length_set]
  by_cases hjs : src = j
  · simp [hjs, hjs ▸ hlt, (hjs ▸ htgt : tgt < j).ne']
  · rw [if_neg hjs, getElem?_set]
    by_cases hjt : tgt = j
    · have hin := htgt.trans hlt
      rw [if_pos hjt, if_pos hin]
      simp [hjt.symm, eq_comm]
    · rw [if_neg hjt]
      simp [Ne.symm hjs, Ne.symm hjt]

theorem Move.placed (hvacant : s.VacantAt tgt) (hs : s.Placed live) : s'.Placed live := by
  refine ⟨hs.distinct, ?_, ?_, ?_⟩
  · intro id' j
    rw [h.standsAt hsrc htgt, h.index]
    by_cases hid : id' = id
    · subst hid
      rw [AList.lookup_insert]
      constructor
      · intro hj
        exact .inl ⟨(Option.some.inj hj).symm, rfl⟩
      · rintro (⟨rfl, -⟩ | ⟨hne, -, hj⟩)
        · rfl
        · exact absurd (hs.index_unique hj hsrc) hne
    · rw [AList.lookup_insert_ne hid, hs.inverse]
      constructor
      · intro hj
        refine .inr ⟨?_, ?_, hj⟩
        · rintro rfl
          exact hid (Option.some.inj (Option.some.inj (hj.symm.trans hsrc)))
        · rintro rfl
          exact hvacant id' hj
      · rintro (⟨-, rfl⟩ | ⟨-, -, hj⟩)
        · exact absurd rfl hid
        · exact hj
  · intro id'
    rw [h.index, AList.mem_insert, hs.present]
    constructor
    · rintro (rfl | hmem)
      · exact hs.mem_of_standsAt hsrc
      · exact hmem
    · exact .inr
  · rw [h.outputs, h.reqIds, length_set, length_set, hs.lengths]

/-- The rows of the requests are the same before and after a move. -/
theorem Move.allRows_iff {P : Row → CachedRequestState → Prop} (hvacant : s.VacantAt tgt)
    (hclean : s.Clean) : s'.AllRows P live ↔ s.AllRows P live := by
  have htarget : s'.columns.row tgt = s.columns.row src := by
    rw [h.columns]
    exact Columns.row_moveRequest htgt.ne' (hclean tgt hvacant).1 (hclean tgt hvacant).2
  have hother : ∀ j, j ≠ src → j ≠ tgt → s'.columns.row j = s.columns.row j := by
    intro j hjs hjt
    rw [h.columns, Columns.row_moveRequest_of_ne hjs hjt]
  constructor
  · intro hP j r hr hj
    by_cases hjs : j = src
    · subst hjs
      have hid : r.reqId = id := Option.some.inj (Option.some.inj (hj.symm.trans hsrc))
      rw [← htarget]
      exact hP tgt r hr ((h.standsAt hsrc htgt).mpr (.inl ⟨rfl, hid⟩))
    · have hjt : j ≠ tgt := by
        rintro rfl
        exact hvacant _ hj
      rw [← hother j hjs hjt]
      exact hP j r hr ((h.standsAt hsrc htgt).mpr (.inr ⟨hjs, hjt, hj⟩))
  · intro hP j r hr hj
    rcases (h.standsAt hsrc htgt).mp hj with ⟨rfl, hid⟩ | ⟨hjs, hjt, hj⟩
    · rw [htarget]
      exact hP src r hr (hid ▸ hsrc)
    · rw [hother j hjs hjt]
      exact hP j r hr hj

theorem Move.clean (hs : s.Clean) : s'.Clean := by
  intro j hj
  have hjt : j ≠ tgt := by
    rintro rfl
    exact hj id ((h.standsAt hsrc htgt).mpr (.inl ⟨rfl, rfl⟩))
  by_cases hjs : j = src
  · subst hjs
    rw [h.columns]
    exact ⟨Columns.moveEntry_source htgt.ne', Columns.moveEntry_source htgt.ne'⟩
  · rw [h.columns, Columns.row_moveRequest_of_ne hjs hjt]
    apply hs
    intro id' hid'
    exact hj id' ((h.standsAt hsrc htgt).mpr (.inr ⟨hjs, hjt, hid'⟩))

theorem Move.core (hvacant : s.VacantAt tgt) (hs : s.Core cfg widths live) :
    s'.Core cfg widths live := by
  refine ⟨h.placed hsrc htgt hvacant hs.placed,
    (h.allRows_iff hsrc htgt hvacant hs.clean).mpr hs.fits, h.clean hsrc htgt hs.clean, ?_, ?_, ?_⟩
  · unfold Adapted
    rw [h.sets]
    exact hs.adapted
  · rw [h.columns, Columns.widths_moveRequest, hs.widths]
  · rw [h.reqIds, length_set, length_set]
    exact hs.capacity

/-! ### The loop -/

end

/-- The invariant of the loop: above `last` nothing stands, and up to it the empty slots are the
recorded ones. -/
structure Sliding (cfg : Config) (widths : List ℕ) (s : InputBatch)
    (live : List CachedRequestState) (last : ℕ) : Prop extends Core cfg widths s live where
  sorted : s.builder.Sorted
  below : ∀ i ≤ last, i ∈ s.builder.removedList ↔ s.reqIds[i]? = some none
  above : ∀ i, last < i → s.VacantAt i
  ranged : last < s.reqIds.length
  inhabited : live ≠ []

/-- The slots up to `last` are filled and the others are not. -/
def FilledTo (s : InputBatch) (last : ℕ) : Prop :=
  last < s.reqIds.length ∧ (∀ i ≤ last, ∃ id, s.StandsAt id i) ∧ ∀ i, last < i → s.VacantAt i

/-- An index that is neither recorded nor behind the last one is in use. -/
theorem Sliding.exists_standsAt (h : s.Sliding cfg widths live last) {i : ℕ} (hi : i ≤ last)
    (hout : i ∉ s.builder.removedList) : ∃ id, s.StandsAt id i := by
  have hlt := lt_of_le_of_lt hi h.ranged
  rcases hentry : s.reqIds[i] with _ | id
  · exact absurd ((h.below i hi).mpr (by rw [getElem?_eq_getElem hlt, hentry])) hout
  · exact ⟨id, by rw [StandsAt, getElem?_eq_getElem hlt, hentry]⟩

theorem Sliding.filledTo (h : s.Sliding cfg widths live last)
    (hnil : s.builder.removedList = []) : s.FilledTo last := by
  refine ⟨h.ranged, fun i hi => h.exists_standsAt hi ?_, h.above⟩
  rw [hnil]
  exact not_mem_nil

theorem peekRemoved_eq_popRemoved (b : BatchUpdateBuilder) : b.peekRemoved.1 = b.popRemoved.1 := by
  unfold BatchUpdateBuilder.peekRemoved BatchUpdateBuilder.popRemoved
  split <;> rfl

theorem Sliding.move (h : s.Sliding cfg widths live last) {b : BatchUpdateBuilder} {src tgt : ℕ}
    (hpop : s.builder.popRemoved = (some tgt, b)) (hsrc : s.StandsAt id src) (hle : src ≤ last)
    (hbetween : ∀ k, src < k → k ≤ last → k ∈ s.builder.removedList) (htgt : tgt < src)
    (hmove : Move s s' src tgt id) : s'.Sliding cfg widths live (src - 1) := by
  obtain ⟨hmem, -, hremoved, -, hsorted, -, -, -⟩ :=
    BatchUpdateBuilder.popRemoved_spec h.sorted hpop
  have hb : s'.builder.removedList = b.removedList := by rw [hmove.removed, hpop]
  have hflag : s'.builder.isRemovedSorted = b.isRemovedSorted := by rw [hmove.sortedFlag, hpop]
  have hvacant : s.VacantAt tgt := vacantAt_of_none ((h.below tgt (by omega)).mp hmem)
  have hlen : s'.reqIds.length = s.reqIds.length := by
    rw [hmove.reqIds, length_set, length_set]
  refine ⟨hmove.core hsrc htgt hvacant h.toCore, ?_, ?_, ?_, ?_, h.inhabited⟩
  · exact ⟨hb ▸ hsorted.nodup, fun hs => hb ▸ hsorted.descending (hflag ▸ hs)⟩
  · intro i hi
    rw [hb, hremoved, hmove.reqIds, getElem?_set, if_neg (by omega), getElem?_set,
      h.below i (by omega)]
    by_cases hit : tgt = i
    · simp [hit, hit ▸ lt_of_lt_of_le (lt_of_lt_of_le htgt hle) h.ranged.le]
    · simp [hit, Ne.symm hit]
  · intro i hi id' hid'
    rcases (hmove.standsAt hsrc htgt).mp hid' with ⟨rfl, -⟩ | ⟨hne, -, hid'⟩
    · omega
    · have hgt : src < i := by omega
      rcases lt_or_ge last i with hlast | hlast
      · exact h.above i hlast id' hid'
      · exact vacantAt_of_none ((h.below i hlast).mp (hbetween i hgt hlast)) id' hid'
  · rw [hlen]
    have := h.ranged
    omega

/-- A property of the batch that every move of the loop keeps, and that depends on the record and
the places only. -/
structure KeptByMoves (cfg : Config) (widths : List ℕ) (live : List CachedRequestState)
    (I : InputBatch → Prop) : Prop where
  move : ∀ s s' last src tgt id b, s.Sliding cfg widths live last →
    s.builder.popRemoved = (some tgt, b) → s.StandsAt id src → tgt < src →
    Move s s' src tgt id → I s → I s'
  same : ∀ s s' : InputBatch, s'.builder = s.builder →
    (∀ id i, s'.StandsAt id i ↔ s.StandsAt id i) → I s → I s'

/-- The loop ends with all slots up to the last request filled, and with the same rows. -/
theorem condenseLoop_spec {rounds : ℕ} (h : s.Sliding cfg widths live last)
    (hrounds : s.builder.removedList.length ≤ rounds) :
    ∃ s' last', condenseLoop rounds s last = .ok s' ∧ s'.Core cfg widths live ∧
      s'.FilledTo last' ∧ (∀ P, s'.AllRows P live ↔ s.AllRows P live) ∧
      ∀ I, KeptByMoves cfg widths live I → I s → I s' := by
  induction rounds generalizing s last with
  | zero =>
    have hnil := length_eq_zero_iff.mp (Nat.le_zero.mp hrounds)
    exact ⟨s, last, rfl, h.toCore, h.filledTo hnil, fun _ => Iff.rfl, fun _ _ hI => hI⟩
  | succ rounds ih =>
    unfold condenseLoop
    by_cases hnil : s.builder.removedList = []
    · rw [if_pos hnil]
      exact ⟨s, last, rfl, h.toCore, h.filledTo hnil, fun _ => Iff.rfl, fun _ _ hI => hI⟩
    rw [if_neg hnil, peekRemoved_eq_popRemoved]
    rcases hpop : s.builder.popRemoved with ⟨popped, b⟩
    cases popped with
    | none => exact absurd (BatchUpdateBuilder.popRemoved_none hpop).1 hnil
    | some tgt =>
      obtain ⟨hmem, hleast, -, hfewer, -⟩ := BatchUpdateBuilder.popRemoved_spec h.sorted hpop
      cases hlargest : largestNonEmpty s.builder.removedList last with
      | none =>
        -- every slot is empty, but there is a request
        exfalso
        obtain ⟨_, hr⟩ := exists_mem_of_ne_nil live h.inhabited
        obtain ⟨i, hi⟩ := h.placed.exists_index hr
        rcases lt_or_ge last i with hgt | hle
        · exact h.above i hgt _ hi
        · exact vacantAt_of_none ((h.below i hle).mp (largestNonEmpty_none hlargest i hle)) _ hi
      | some src =>
        obtain ⟨hle, hout, hbetween⟩ := largestNonEmpty_some hlargest
        dsimp only
        by_cases hstop : src ≤ tgt
        · -- all empty slots are behind the last request
          rw [if_pos hstop]
          refine ⟨s, src, rfl, h.toCore, ⟨lt_of_le_of_lt hle h.ranged, ?_, ?_⟩, fun _ => Iff.rfl,
            fun _ _ hI => hI⟩
          · intro i hi
            apply h.exists_standsAt (hi.trans hle)
            intro hin
            have := hleast i hin
            have hi : i = src := by omega
            exact hout (hi ▸ hin)
          · intro i hi
            rcases lt_or_ge last i with hgt | hge
            · exact h.above i hgt
            · exact vacantAt_of_none ((h.below i hge).mp (hbetween i hi hge))
        · rw [if_neg hstop]
          obtain ⟨id, hsrc⟩ := h.exists_standsAt hle hout
          have htgt : tgt < src := by omega
          obtain ⟨t, hok, hmove⟩ := moveRequest_spec hsrc htgt h.placed.lengths
          have hnext := h.move hpop hsrc hle hbetween htgt hmove
          have hvacant : s.VacantAt tgt :=
            vacantAt_of_none ((h.below tgt (by omega)).mp hmem)
          have hshorter : t.builder.removedList.length ≤ rounds := by
            rw [hmove.removed, hpop]
            dsimp only
            omega
          obtain ⟨s', last', hok', hcore, hfilled, hrows, hkept⟩ := ih hnext hshorter
          refine ⟨s', last', Fallible.bind_eq_ok.mpr ⟨t, hok, hok'⟩, hcore, hfilled, fun P => ?_,
            fun I hI hs => ?_⟩
          · rw [hrows, hmove.allRows_iff hsrc htgt hvacant h.clean]
          · exact hkept I hI (hI.move s t last src tgt id b h hpop hsrc htgt hmove hs)

/-! ### The whole call -/

/-- Every index of the list is in use. -/
def Full (s : InputBatch) : Prop := ∀ i < s.reqIds.length, ∃ id, s.StandsAt id i

/-- Filled slots read off as a list of ids. -/
theorem exists_ids {xs : List (Option ReqId)} (h : ∀ i < xs.length, ∃ id, xs[i]? = some (some id)) :
    ∃ ids : List ReqId, xs = ids.map some := by
  induction xs with
  | nil => exact ⟨[], rfl⟩
  | cons x xs ih =>
    obtain ⟨id, hid⟩ := h 0 (Nat.zero_lt_succ _)
    cases hid
    obtain ⟨ids, rfl⟩ := ih fun i hi => h (i + 1) (Nat.succ_lt_succ hi)
    exact ⟨id :: ids, rfl⟩

/-- In a full batch the list holds the ids of the requests, in some order. -/
theorem Placed.exists_perm (h : s.Placed live) (hfull : s.Full) :
    ∃ ids : List ReqId, s.reqIds = ids.map some ∧
      ids.Perm (live.map CachedRequestState.reqId) := by
  obtain ⟨ids, hids⟩ := exists_ids hfull
  have hstands : ∀ i id, s.StandsAt id i ↔ ids[i]? = some id := by
    intro i id
    unfold StandsAt
    rw [hids, getElem?_map, Option.map_eq_some_iff]
    simp
  refine ⟨ids, hids, (perm_ext_iff_of_nodup ?_ h.distinct).mpr fun id => ?_⟩
  · apply nodup_iff_getElem?_ne_getElem?.mpr
    intro i j hij hj heq
    have hid := getElem?_eq_getElem hj
    exact hij.ne (h.index_unique ((hstands i _).mpr (heq.trans hid)) ((hstands j _).mpr hid))
  · constructor
    · intro hmem
      obtain ⟨i, hi⟩ := mem_iff_getElem?.mp hmem
      exact h.mem_of_standsAt ((hstands i id).mpr hi)
    · intro hmem
      obtain ⟨_, hr, rfl⟩ := mem_map.mp hmem
      obtain ⟨i, hi⟩ := h.exists_index hr
      exact mem_iff_getElem?.mpr ⟨i, (hstands i _).mp hi⟩

theorem Placed.length_of_full (h : s.Placed live) (hfull : s.Full) :
    s.reqIds.length = s.numReqs := by
  obtain ⟨_, hids, hperm⟩ := h.exists_perm hfull
  rw [h.numReqs, hids, length_map, hperm.length_eq, length_map]

/-- Up to the last request stand exactly as many requests as the batch has. -/
theorem FilledTo.numReqs (h : s.FilledTo last) (hs : s.Placed live) : s.numReqs = last + 1 := by
  have htake : ∀ i, i ≤ last → (s.reqIds.take (last + 1))[i]? = s.reqIds[i]? :=
    fun i hi => getElem?_take_of_lt (by omega)
  have hlen : (s.reqIds.take (last + 1)).length = last + 1 := by
    rw [List.length_take]
    have := h.1
    omega
  -- the part that is in use, as a batch of its own
  have hplaced : Placed { s with
      reqIds := s.reqIds.take (last + 1)
      reqOutputTokenIds := s.reqOutputTokenIds.take (last + 1) } live := by
    refine ⟨hs.distinct, fun id i => ?_, hs.present, ?_⟩
    · rw [hs.inverse]
      rcases lt_or_ge last i with hgt | hle
      · refine ⟨fun hi => absurd hi (h.2.2 i hgt id), fun hi => ?_⟩
        have := hi.lt_length
        dsimp only at this
        omega
      · unfold StandsAt
        rw [htake i hle]
    · dsimp only
      rw [List.length_take, List.length_take, hs.lengths]
  have hfull : Full { s with
      reqIds := s.reqIds.take (last + 1)
      reqOutputTokenIds := s.reqOutputTokenIds.take (last + 1) } := by
    intro i hi
    dsimp only at hi
    obtain ⟨id, hid⟩ := h.2.1 i (by omega)
    exact ⟨id, (htake i (by omega)).trans hid⟩
  exact (hplaced.length_of_full hfull).symm.trans hlen

/-- Cutting off what is behind the last request. -/
theorem FilledTo.trim (h : s.FilledTo last) (hs : s.Core cfg widths live) :
    s.trim.Core cfg widths live ∧ s.trim.Full ∧
      (∀ P, s.trim.AllRows P live ↔ s.AllRows P live) ∧
      ∀ id i, s.trim.StandsAt id i ↔ s.StandsAt id i := by
  have hnum := h.numReqs hs.placed
  have hstands : ∀ id i, s.trim.StandsAt id i ↔ s.StandsAt id i := by
    intro id i
    unfold StandsAt InputBatch.trim
    rw [getElem?_take, hnum]
    split
    · exact Iff.rfl
    · exact ⟨nofun, fun hi => absurd hi (h.2.2 i (by omega) id)⟩
  refine ⟨⟨⟨hs.placed.distinct, fun id i => (hs.placed.inverse id i).trans (hstands id i).symm,
    hs.placed.present, ?_⟩, ?_, ?_, hs.adapted, hs.widths, ?_⟩, ?_, ?_, hstands⟩
  · unfold InputBatch.trim
    dsimp only
    rw [List.length_take, List.length_take, hs.placed.lengths]
  · exact fun i r hr hi => hs.fits i r hr ((hstands _ i).mp hi)
  · exact fun i hi => hs.clean i fun id hid => hi id ((hstands id i).mpr hid)
  · exact (length_take_le' _ _).trans hs.capacity
  · intro i hi
    have hle : i ≤ last := by
      have : i < (s.reqIds.take s.numReqs).length := hi
      rw [List.length_take] at this
      omega
    obtain ⟨id, hid⟩ := h.2.1 i hle
    exact ⟨id, (hstands id i).mpr hid⟩
  · intro P
    constructor
    · exact fun hP i r hr hi => hP i r hr ((hstands _ i).mpr hi)
    · exact fun hP i r hr hi => hP i r hr ((hstands _ i).mp hi)

section

variable (h : s.Open cfg widths live)
include h

/-- Reading the removed indices only sorts them. -/
theorem Open.readRemoved : Open cfg widths { s with builder := s.builder.removed.2 } live := by
  have hperm := BatchUpdateBuilder.ensureRemovedSorted_perm s.builder
  refine ⟨⟨⟨h.placed.distinct, h.placed.inverse, h.placed.present, h.placed.lengths⟩, h.fits,
    h.clean, h.adapted, h.widths, h.capacity⟩, h.sorted.ensureRemovedSorted, ?_, ?_, ?_⟩
  · exact fun i => hperm.mem_iff.trans (h.empty i)
  · exact h.count.trans (congrArg (s.numReqs + ·) hperm.length_eq.symm)
  · exact fun i hi => h.cleared i (hperm.mem_iff.mp hi)

/-- Without an empty slot the batch is full. -/
theorem Open.full (hnil : s.builder.removedList = []) : s.Full := by
  intro i hi
  rcases hentry : s.reqIds[i] with _ | id
  · have hmem := (h.empty i).mpr (by rw [getElem?_eq_getElem hi, hentry])
    rw [hnil] at hmem
    cases hmem
  · exact ⟨id, by rw [StandsAt, getElem?_eq_getElem hi, hentry]⟩

/-- The loop starts at the last index. -/
theorem Open.sliding (hnil : s.builder.removedList ≠ []) (hzero : s.numReqs ≠ 0) :
    s.Sliding cfg widths live (s.numReqs + s.builder.removedList.length - 1) := by
  have hcount := h.count
  have hpos := length_pos_of_ne_nil hnil
  refine ⟨h.toCore, h.sorted, fun i _ => h.empty i, ?_, by omega, ?_⟩
  · intro i hi
    apply vacantAt_of_length_le
    omega
  · rintro rfl
    exact hzero h.placed.numReqs

theorem fillEmpty_spec : ∃ s', s.fillEmpty = .ok s' ∧ s'.Core cfg widths live ∧ s'.Full ∧
      (∀ P, s'.AllRows P live ↔ s.AllRows P live) ∧
      ∀ I, KeptByMoves cfg widths live I → I s → I s' := by
  unfold fillEmpty
  by_cases hnil : s.builder.removedList = []
  · rw [if_pos hnil]
    exact ⟨s, rfl, h.toCore, h.full hnil, fun _ => Iff.rfl, fun _ _ hI => hI⟩
  rw [if_neg hnil]
  by_cases hzero : s.numReqs = 0
  · -- the batch has become empty
    rw [if_pos hzero]
    have hlive : live = [] := length_eq_zero_iff.mp (h.placed.numReqs.symm.trans hzero)
    subst hlive
    have hnone : ∀ id i, ¬ s.StandsAt id i := fun id i hid =>
      not_mem_nil (h.placed.mem_of_standsAt hid)
    have hrows : ∀ (P : Row → CachedRequestState → Prop) (t : InputBatch), t.AllRows P [] :=
      fun P t i r hr => absurd hr not_mem_nil
    refine ⟨_, rfl, ⟨⟨nodup_nil, fun id i => ?_, h.placed.present, rfl⟩, hrows _ _, ?_,
      fun r hr => absurd hr not_mem_nil, h.widths, Nat.zero_le _⟩,
      fun i hi => absurd hi (Nat.not_lt_zero i), fun P => ⟨fun _ => hrows P _, fun _ => hrows P _⟩,
      fun I hI hs => hI.same s _ rfl (fun id i => ?_) hs⟩
    · refine ⟨fun hi => absurd ((h.placed.inverse id i).mp hi) (hnone id i), fun hi => ?_⟩
      exact absurd hi.lt_length (Nat.not_lt_zero i)
    · exact fun i _ => h.clean i fun id => hnone id i
    · exact ⟨fun hi => absurd hi.lt_length (Nat.not_lt_zero i), fun hi => absurd hi (hnone id i)⟩
  · rw [if_neg hzero]
    obtain ⟨s₂, last, hok, hcore, hfilled, hrows₂, hkept⟩ :=
      condenseLoop_spec (h.sliding hnil hzero) (le_refl _)
    obtain ⟨htrim, hfull, hrows₃, hstands⟩ := hfilled.trim hcore
    refine ⟨s₂.trim, Fallible.bind_eq_ok.mpr ⟨s₂, hok, rfl⟩, htrim, hfull, fun P => ?_,
      fun I hI hs => hI.same s₂ s₂.trim rfl hstands (hkept I hI hs)⟩
    rw [hrows₃, hrows₂]

/-- `condense` returns, leaves no empty slot and keeps the rows of all requests. -/
theorem condense_spec : ∃ s', s.condense = .ok s' ∧ s'.Core cfg widths live ∧ s'.Full ∧
      ∀ P, s'.AllRows P live ↔ s.AllRows P live := by
  obtain ⟨s', hok, hcore, hfull, hrows, -⟩ := fillEmpty_spec h.readRemoved
  exact ⟨s', hok, hcore, hfull, hrows⟩

end

end Batch.InputBatch
