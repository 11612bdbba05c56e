import Mosaic.Broadcast.Consistent
import Mathlib.Data.List.Induction

/-!
# The broadcast is first in, first out

Every reader returns the objects in the order in which they were given to `enqueue`, none of them
twice and none left out, however the steps of the writer and the readers are interleaved. The
writer and a reader are never at work on the same chunk.
-/

open Transition (Execution)

namespace Broadcast

open List Function Option

variable {α : Type} {cfg : RingConfig} {pickle : Pickle α}

/-! ### Steps of a reader -/

section Reader

variable {s t : State α} {i : ℕ} {r : Reader α} {obj : α} {enqueued : List α}

/-- What the writer knows stays true when readers advance. -/
theorem WriterOk.mono {chunks chunks' : ℕ → Chunk} {published : ℕ}
    {finished finished' : ℕ → ℕ} {writer : WriterPc α}
    (h : WriterOk cfg pickle chunks enqueued published finished writer)
    (hle : ∀ j < cfg.nReader, finished j ≤ finished' j)
    (hchunk : writer.writing = true →
      chunks' (published % cfg.maxChunks) = chunks (published % cfg.maxChunks)) :
    WriterOk cfg pickle chunks' enqueued published finished' writer := by
  have hround : (∀ j < cfg.nReader, published < finished j + cfg.maxChunks) →
      ∀ j < cfg.nReader, published < finished' j + cfg.maxChunks := fun hall j hj =>
    Nat.lt_of_lt_of_le (hall j hj) (Nat.add_le_add_right (hle j hj) _)
  cases writer with
  | idle => trivial
  | counting obj i readCount =>
    obtain ⟨hobj, hi, hcount, hall⟩ := h
    exact ⟨hobj, hi, hcount, fun heq hmax j hj =>
      Nat.lt_of_lt_of_le (hall heq hmax j hj) (Nat.add_le_add_right (hle j (by omega)) _)⟩
  | resetting obj => exact ⟨h.1, hround h.2⟩
  | writingHeader obj => exact ⟨h.1, hround h.2⟩
  | writingPayload obj =>
    obtain ⟨hobj, hall, hfits, hhead⟩ := h
    exact ⟨hobj, hround hall, hfits, by rw [hchunk rfl]; exact hhead⟩
  | clearing obj i =>
    obtain ⟨hobj, hall, hi, hencodes, hcleared⟩ := h
    refine ⟨hobj, hround hall, hi, ?_, ?_⟩
    · rw [hchunk rfl]
      exact hencodes
    · rw [hchunk rfl]
      exact hcleared
  | sending obj => exact h

section

variable (h : Consistent cfg pickle s)
include h

/-- While the writer is at work on a chunk, all readers have finished what was in it. -/
theorem Consistent.ahead (hbusy : s.writer.writing = true) (hi : i < cfg.nReader) :
    s.published < (s.readers i).finished + cfg.maxChunks := by
  have hwriter := h.writer
  cases hw : s.writer with
  | writingHeader obj =>
    rw [hw] at hwriter
    exact hwriter.2 i hi
  | writingPayload obj =>
    rw [hw] at hwriter
    exact hwriter.2.1 i hi
  | clearing obj j =>
    rw [hw] at hwriter
    exact hwriter.2.1 i hi
  | _ =>
    rw [hw] at hbusy
    cases hbusy

/-- The message that a reader is at is in its chunk. -/
theorem Consistent.live (hi : i < cfg.nReader) :
    s.published < (s.readers i).finished + cfg.maxChunks ∨
      s.published = (s.readers i).finished + cfg.maxChunks ∧ s.writer.writing = false := by
  rcases Nat.lt_or_eq_of_le (h.readers i hi).round with hlt | heq
  · exact .inl hlt
  · cases hbusy : s.writer.writing with
    | false => exact .inr ⟨heq, rfl⟩
    | true => exact .inl (h.ahead hbusy hi)

/-- A step of a reader that finishes no message. -/
theorem Consistent.ofReader (hfinished : r.finished = (s.readers i).finished)
    (hreader : ReaderOk cfg pickle s.enqueued s.published s.writer.writing s.sent r) :
    Consistent cfg pickle (s.setReader i r) := by
  have hsame : ∀ j, ((s.setReader i r).readers j).finished = (s.readers j).finished := by
    intro j
    rw [State.setReader_readers, update_apply]
    split
    · rename_i heq
      rw [hfinished, heq]
    · rfl
  refine ⟨h.ring.congr fun j _ => hsame j,
    h.writer.mono (fun j _ => Nat.le_of_eq (hsame j).symm) fun _ => rfl, h.currentIdx,
    fun j hj => ?_⟩
  rw [State.setReader_readers, update_apply]
  split
  · exact hreader
  · exact h.readers j hj

/-- A reader sets its flag. -/
theorem Consistent.ofMark (hi : i < cfg.nReader) (hlt : (s.readers i).finished < s.published)
    (hfinished : r.finished = (s.readers i).finished + 1)
    (hreader : ReaderOk cfg pickle s.enqueued s.published s.writer.writing s.sent r) :
    Consistent cfg pickle ((s.setChunk (s.readers i).currentIdx
      { s.chunks (s.readers i).currentIdx with
        readFlag := update (s.chunks (s.readers i).currentIdx).readFlag i true
          }).setReader i r) := by
  rw [(h.readers i hi).currentIdx]
  have hnew := h.ring.mark hlt (h.live hi) rfl
  have hsame : ∀ j, (update s.readers i r j).finished =
      update (fun j => (s.readers j).finished) i ((s.readers i).finished + 1) j := by
    intro j
    rw [update_apply, update_apply]
    split
    · exact hfinished
    · rfl
  refine ⟨hnew.congr fun j _ => hsame j, h.writer.mono (fun j _ => ?_) fun hbusy => ?_,
    h.currentIdx, fun j hj => ?_⟩
  · rw [State.setReader_readers]
    refine Nat.le_trans ?_ (Nat.le_of_eq (hsame j).symm)
    rw [update_apply]
    split
    · rename_i heq
      rw [heq]
      exact Nat.le_succ _
    · exact Nat.le_refl _
  · -- the writer is at work on another chunk
    exact update_of_ne (mod_ne_of_lt hlt (h.ahead hbusy hi)).symm _ _
  · rw [State.setReader_readers, update_apply]
    split
    · exact hreader
    · exact h.readers j hj

end

/-- The first of the messages that have to be received. -/
theorem pending_eq (cfg : RingConfig) (pickle : Pickle α) {sent d : ℕ}
    (hobj : enqueued[d]? = some obj) (hlt : d < sent) :
    pending cfg pickle enqueued sent d =
      (if Overflows cfg pickle obj then [pickle.dumps obj] else []) ++
        pending cfg pickle enqueued sent (d + 1) := by
  have htake : (enqueued.take sent)[d]? = some obj := by
    rw [getElem?_take, if_pos hlt]
    exact hobj
  obtain ⟨hlen, hget⟩ := List.getElem?_eq_some_iff.mp htake
  unfold pending
  rw [drop_eq_getElem_cons hlen, hget, filter_cons]
  by_cases h : Overflows cfg pickle obj <;> simp [h]

theorem pending_eq_nil (cfg : RingConfig) (pickle : Pickle α) {sent d : ℕ}
    (hle : sent ≤ d) : pending cfg pickle enqueued sent d = [] := by
  unfold pending
  rw [drop_eq_nil_of_le (by rw [List.length_take]; omega)]
  rfl

/-- A reader that stays at the same message, at another place of `dequeue`. -/
theorem ReaderOk.move {published sent : ℕ} {busy : Bool} {pc : ReaderPc α}
    (h : ReaderOk cfg pickle enqueued published busy sent r)
    (hfin : { r with pc }.finished = r.finished)
    (hpc : ReaderPcOk cfg pickle enqueued published busy r.finished pc) :
    ReaderOk cfg pickle enqueued published busy sent { r with pc } where
  currentIdx := h.currentIdx.trans (by rw [hfin])
  le := hfin ▸ h.le
  round := hfin ▸ h.round
  taken := h.taken
  received := h.received
  socket := h.socket
  pc := hfin ▸ hpc

section

variable (h : Consistent cfg pickle s)
include h

/-- A reader finds its chunk. -/
theorem Consistent.find (hi : i < cfg.nReader)
    (hpc : (s.readers i).pc = .checking ∨ ∃ readFlag, (s.readers i).pc = .checked readFlag)
    (hstep : readerStep cfg pickle i s = some t) : Consistent cfg pickle t := by
  have hreader := h.readers i hi
  have hpcOk := hreader.pc
  have hidx := hreader.currentIdx
  have hfinished : (s.readers i).finished = (s.readers i).dequeued.length := by
    unfold Reader.finished
    obtain hpc | ⟨readFlag, hpc⟩ := hpc <;> rw [hpc]
  unfold readerStep at hstep
  dsimp only at hstep
  obtain hpc | ⟨readFlag, hpc⟩ := hpc
  · rw [hpc] at hstep
    cases hstep
    refine h.ofReader hfinished.symm (hreader.move hfinished.symm fun hflag heq => ?_)
    -- an unread chunk of a reader that is up to date was never written, or is being written
    by_contra hnot
    rw [not_or, Nat.not_lt, Bool.not_eq_true] at hnot
    rw [hidx, heq] at hflag
    obtain ⟨-, hread, -⟩ := h.ring.live (s.published - cfg.maxChunks)
      (by have hpos := cfg.maxChunks_pos; omega)
      (.inr ⟨(Nat.sub_add_cancel hnot.1).symm, hnot.2⟩)
    rw [← Nat.mod_eq_sub_mod hnot.1] at hread
    rw [hread i hi, decide_eq_false_iff_not] at hflag
    have hpos := cfg.maxChunks_pos
    omega
  · rw [hpc] at hstep hpcOk
    dsimp only at hstep
    split at hstep
    · cases hstep
      exact h.ofReader hfinished.symm (hreader.move hfinished.symm trivial)
    · rename_i hready
      cases hstep
      rw [not_or, Bool.not_eq_false, Bool.not_eq_true] at hready
      obtain ⟨hwritten, hflag⟩ := hready
      refine h.ofReader hfinished.symm (hreader.move hfinished.symm ?_)
      apply Nat.lt_of_le_of_ne hreader.le
      intro heq
      rw [hidx, heq] at hwritten
      rcases hpcOk hflag heq with hlt | hbusy
      · rw [Nat.mod_eq_of_lt hlt, (h.ring.fresh s.published (Nat.le_refl _) hlt).1] at hwritten
        cases hwritten
      · rw [h.ring.closed hbusy] at hwritten
        cases hwritten

/-- A reader reads the data of its chunk. -/
theorem Consistent.load (hi : i < cfg.nReader)
    (hpc : (s.readers i).pc = .opening ∨ (s.readers i).pc = .loading)
    (hstep : readerStep cfg pickle i s = some t) : Consistent cfg pickle t := by
  have hreader := h.readers i hi
  have hpcOk := hreader.pc
  have hfin : (s.readers i).finished = (s.readers i).dequeued.length := by
    unfold Reader.finished
    rcases hpc with hpc | hpc <;> rw [hpc]
  have hlt : (s.readers i).finished < s.published := by
    rcases hpc with hpc | hpc
    · rw [hpc] at hpcOk
      exact hpcOk
    · rw [hpc] at hpcOk
      exact hpcOk.1
  obtain ⟨-, -, obj, hobj, hencodes⟩ := h.ring.live _ hlt (h.live hi)
  unfold readerStep at hstep
  dsimp only at hstep
  rw [hreader.currentIdx] at hstep
  rcases hpc with hpc | hpc
  · rw [hpc] at hstep
    dsimp only at hstep
    split at hstep
    · rename_i hhead
      cases hstep
      rw [← hreader.currentIdx]
      exact h.ofReader hfin.symm
        (hreader.move hfin.symm ⟨hlt, obj, hobj, hencodes.head?_eq.mp hhead⟩)
    · rename_i hhead
      cases hstep
      rw [← hreader.currentIdx]
      exact h.ofReader hfin.symm (hreader.move hfin.symm
        ⟨hlt, obj, hobj, fun hover => hhead (hencodes.head?_eq.mpr hover)⟩)
  · rw [hpc] at hstep hpcOk
    obtain ⟨-, obj', hobj', hfits⟩ := hpcOk
    obtain rfl : obj = obj' := some.inj (hobj.symm.trans hobj')
    rw [hencodes.loads_eq hfits] at hstep
    cases hstep
    rw [← hreader.currentIdx]
    exact h.ofReader hfin.symm (hreader.move hfin.symm ⟨hlt, hobj, hfits⟩)

/-- What is published and not sent is too large. -/
theorem Consistent.sent_eq : s.sent = s.published ∨
    s.published = s.sent + 1 ∧
      ∃ obj, s.enqueued[s.sent]? = some obj ∧ Overflows cfg pickle obj := by
  have hwriter := h.writer
  unfold State.sent State.published
  cases hw : s.writer with
  | sending obj =>
    rw [hw] at hwriter
    obtain ⟨hlast, hover⟩ := hwriter
    rw [getLast?_eq_getElem?] at hlast
    have hpos := (List.getElem?_eq_some_iff.mp hlast).1
    exact .inr ⟨by dsimp only; omega, obj, hlast, hover⟩
  | _ => exact .inl rfl

/-- A reader sets its flag, and returns the object or goes on to receive it. -/
theorem Consistent.finish (hi : i < cfg.nReader) {loaded : Option α}
    (hpc : (s.readers i).pc = .marking loaded) (hstep : readerStep cfg pickle i s = some t) :
    Consistent cfg pickle t := by
  have hreader := h.readers i hi
  have hpcOk := hreader.pc
  have hfin : (s.readers i).finished = (s.readers i).dequeued.length := by
    unfold Reader.finished
    rw [hpc]
  have hidx : ((s.readers i).currentIdx + 1) % cfg.maxChunks =
      ((s.readers i).finished + 1) % cfg.maxChunks := by
    rw [hreader.currentIdx, Nat.mod_add_mod]
  have hround := hreader.round
  unfold readerStep at hstep
  dsimp only at hstep
  rw [hpc] at hstep hpcOk
  cases loaded with
  | none =>
    obtain ⟨hlt, obj, hobj, hover⟩ := hpcOk
    cases hstep
    have hnew : ({ s.readers i with
        currentIdx := ((s.readers i).currentIdx + 1) % cfg.maxChunks
        pc := .receiving } : Reader α).finished = (s.readers i).finished + 1 := by
      rw [hfin]
      rfl
    refine h.ofMark hi hlt hnew ⟨?_, ?_, ?_, hreader.taken, hreader.received, hreader.socket, ?_⟩
    · rw [hnew]
      exact hidx
    · rw [hnew]
      exact hlt
    · rw [hnew]
      omega
    · rw [hnew]
      exact ⟨obj, hobj, hover⟩
  | some obj =>
    obtain ⟨hlt, hobj, hfits⟩ := hpcOk
    cases hstep
    have hlen : ((s.readers i).dequeued ++ [obj]).length = (s.readers i).finished + 1 := by
      rw [length_append, length_singleton, hfin]
    have hnew : ({ s.readers i with
        currentIdx := ((s.readers i).currentIdx + 1) % cfg.maxChunks
        pc := .idle
        dequeued := (s.readers i).dequeued ++ [obj] } : Reader α).finished =
          (s.readers i).finished + 1 := hlen
    -- an object that fits does not have to be sent
    have hsent : (s.readers i).finished < s.sent := by
      rcases h.sent_eq with heq | ⟨heq, obj', hobj', hover⟩
      · omega
      · rcases Nat.lt_succ_iff_lt_or_eq.mp (heq ▸ hlt) with hlt | heq
        · exact hlt
        · rw [heq, hobj'] at hobj
          exact absurd (some.inj hobj ▸ hover) hfits
    refine h.ofMark hi hlt hnew ⟨?_, ?_, ?_, ?_, ?_, ?_, trivial⟩
    · rw [hnew]
      exact hidx
    · rw [hnew]
      exact hlt
    · rw [hnew]
      omega
    · dsimp only
      rw [hlen, take_add_one, hobj, toList_some, hfin, ← hreader.taken]
    · dsimp only
      omega
    · have hpending := pending_eq cfg pickle (hfin ▸ hobj) (hfin ▸ hsent)
      rw [if_neg hfits, nil_append] at hpending
      rw [hlen, hfin, ← hpending]
      exact hreader.socket

/-- A reader receives an object that is too large. -/
theorem Consistent.receive (hi : i < cfg.nReader) (hpc : (s.readers i).pc = .receiving)
    (hstep : readerStep cfg pickle i s = some t) : Consistent cfg pickle t := by
  have hreader := h.readers i hi
  have hpcOk := hreader.pc
  have hfinished : (s.readers i).finished = (s.readers i).dequeued.length + 1 := by
    unfold Reader.finished
    rw [hpc]
  unfold readerStep at hstep
  dsimp only at hstep
  rw [hpc] at hstep hpcOk
  obtain ⟨obj, hobj, hover⟩ := hpcOk
  rw [hfinished, Nat.add_sub_cancel] at hobj
  dsimp only at hstep
  split at hstep
  · cases hstep
  · rename_i bytes rest hsocket
    -- the socket has a message, and the first one is the object
    have hsent : (s.readers i).dequeued.length < s.sent := by
      by_contra hnot
      have hnil := hreader.socket
      rw [pending_eq_nil cfg pickle (Nat.not_lt.mp hnot), hsocket] at hnil
      cases hnil
    have hpending := pending_eq cfg pickle hobj hsent
    rw [if_pos hover, ← hreader.socket, hsocket] at hpending
    obtain ⟨rfl, hrest⟩ := List.cons.inj hpending
    have hloads := pickle.loads_dumps obj []
    rw [append_nil] at hloads
    rw [hloads] at hstep
    cases hstep
    have hlength : ((s.readers i).dequeued ++ [obj]).length = (s.readers i).finished := by
      rw [length_append, length_singleton, hfinished]
    have hnew : ({ s.readers i with
        pc := .idle
        socket := rest
        dequeued := (s.readers i).dequeued ++ [obj] } : Reader α).finished =
          (s.readers i).finished := hlength
    refine h.ofReader hnew ⟨?_, ?_, ?_, ?_, ?_, ?_, trivial⟩
    · rw [hnew]
      exact hreader.currentIdx
    · rw [hnew]
      exact hreader.le
    · rw [hnew]
      exact hreader.round
    · dsimp only
      rw [hlength, hfinished, take_add_one, hobj, toList_some, ← hreader.taken]
    · dsimp only
      omega
    · dsimp only
      rw [hlength, hfinished]
      exact hrest

theorem Consistent.read (hi : i < cfg.nReader) (hstep : readerStep cfg pickle i s = some t) :
    Consistent cfg pickle t := by
  cases hpc : (s.readers i).pc with
  | idle =>
    unfold readerStep at hstep
    dsimp only at hstep
    rw [hpc] at hstep
    cases hstep
  | checking => exact h.find hi (.inl hpc) hstep
  | checked readFlag => exact h.find hi (.inr ⟨readFlag, hpc⟩) hstep
  | opening => exact h.load hi (.inl hpc) hstep
  | loading => exact h.load hi (.inr hpc) hstep
  | marking loaded => exact h.finish hi hpc hstep
  | receiving => exact h.receive hi hpc hstep
  | crashed =>
    unfold readerStep at hstep
    dsimp only at hstep
    rw [hpc] at hstep
    cases hstep

end

end Reader

/-! ### Runs -/

section Runs

variable {s t : State α} {event : Event α} {events : List (Event α)}

/-- The objects of the calls of `enqueue`. -/
def enqueues (events : List (Event α)) : List α :=
  events.filterMap fun
    | .enqueue obj => some obj
    | _ => none

theorem Step.consistent (hstep : Step cfg pickle s event t) (h : Consistent cfg pickle s) :
    Consistent cfg pickle t := by
  unfold Step step at hstep
  cases event with
  | enqueue obj =>
    dsimp only at hstep
    split at hstep
    · rename_i hidle
      cases hstep
      exact h.enqueue hidle obj
    · cases hstep
  | write => exact h.write hstep
  | dequeue i =>
    dsimp only at hstep
    split at hstep
    · rename_i hidle
      split at hstep
      · rename_i hi
        cases hstep
        have hfin : ({ s.readers i with pc := .checking } : Reader α).finished =
            (s.readers i).finished := by
          unfold Reader.finished
          rw [hidle]
        exact h.ofReader hfin ((h.readers i hi).move hfin trivial)
      · cases hstep
    · cases hstep
  | read i =>
    dsimp only at hstep
    split at hstep
    · rename_i hi
      exact h.read hi hstep
    · cases hstep

theorem consistent_of_execution (run : Execution (Step cfg pickle) (.new cfg) events s) :
    Consistent cfg pickle s :=
  run.preserves (fun _ _ _ h hstep => hstep.consistent h) (consistent_new cfg pickle)

/-- A step of the writer inside of `enqueue` takes no new object. -/
theorem writerStep_enqueued (hstep : writerStep cfg pickle s = some t) :
    t.enqueued = s.enqueued := by
  unfold writerStep at hstep
  dsimp only at hstep
  split at hstep
  · cases hstep
  · split at hstep
    · cases hstep
      rfl
    · split at hstep <;> cases hstep <;> rfl
  · cases hstep
    rfl
  · split at hstep <;> cases hstep <;> rfl
  · cases hstep
    rfl
  · split at hstep <;> cases hstep <;> rfl
  · cases hstep
    rfl

theorem readerStep_enqueued {i : ℕ} (hstep : readerStep cfg pickle i s = some t) :
    t.enqueued = s.enqueued := by
  unfold readerStep at hstep
  dsimp only at hstep
  split at hstep
  · cases hstep
  · cases hstep
    rfl
  · split at hstep <;> cases hstep <;> rfl
  · split at hstep <;> cases hstep <;> rfl
  · split at hstep <;> cases hstep <;> rfl
  · split at hstep <;> cases hstep <;> rfl
  · split at hstep
    · cases hstep
    · split at hstep <;> cases hstep <;> rfl
  · cases hstep

/-- Only a call of `enqueue` takes an object. -/
theorem Step.enqueued (hstep : Step cfg pickle s event t) :
    t.enqueued = s.enqueued ++ enqueues [event] := by
  unfold Step step at hstep
  cases event with
  | enqueue obj =>
    dsimp only at hstep
    split at hstep
    · cases hstep
      rfl
    · cases hstep
  | write =>
    rw [writerStep_enqueued hstep]
    exact (append_nil _).symm
  | dequeue i =>
    dsimp only at hstep
    split at hstep
    · split at hstep
      · cases hstep
        exact (append_nil _).symm
      · cases hstep
    · cases hstep
  | read i =>
    dsimp only at hstep
    split at hstep
    · rw [readerStep_enqueued hstep]
      exact (append_nil _).symm
    · cases hstep

theorem enqueued_of_execution (run : Execution (Step cfg pickle) (.new cfg) events s) :
    s.enqueued = enqueues events := by
  induction run with
  | start => rfl
  | extend run hstep ih =>
    rw [hstep.enqueued, ih]
    exact (filterMap_append ..).symm

/-- Who may be at work on the chunks. While the writer is at work on a chunk, every reader has
finished the message that was in it, and none is reading there. A reader only reads a chunk that
is published, and finds in it the message that is its next one. -/
structure Exclusive (cfg : RingConfig) (pickle : Pickle α) (s : State α) (i : ℕ) : Prop where
  overwritten : s.writer.writing = true → s.published < (s.readers i).finished + cfg.maxChunks
  apart : s.writer.writing = true → (s.readers i).pc.reading = true →
    (s.readers i).currentIdx ≠ s.currentIdx
  complete : (s.readers i).pc.reading = true → (s.chunks (s.readers i).currentIdx).written = true ∧
    ∃ obj, s.enqueued[(s.readers i).finished]? = some obj ∧
      Encodes cfg pickle (s.chunks (s.readers i).currentIdx).data obj

/-- A reader that reads is at a message that was published. -/
theorem ReaderOk.lt_of_reading {enqueued : List α} {published sent : ℕ} {busy : Bool} {r : Reader α}
    (h : ReaderOk cfg pickle enqueued published busy sent r) (hreading : r.pc.reading = true) :
    r.finished < published := by
  have hpc := h.pc
  cases hr : r.pc with
  | opening =>
    rw [hr] at hpc
    exact hpc
  | loading =>
    rw [hr] at hpc
    exact hpc.1
  | marking loaded =>
    rw [hr] at hpc
    cases loaded <;> exact hpc.1
  | _ =>
    rw [hr] at hreading
    cases hreading

theorem Consistent.exclusive (h : Consistent cfg pickle s) {i : ℕ} (hi : i < cfg.nReader) :
    Exclusive cfg pickle s i where
  overwritten hbusy := h.ahead hbusy hi
  apart hbusy hreading := by
    rw [(h.readers i hi).currentIdx, h.currentIdx]
    exact mod_ne_of_lt ((h.readers i hi).lt_of_reading hreading) (h.ahead hbusy hi)
  complete hreading := by
    rw [(h.readers i hi).currentIdx]
    obtain ⟨hwritten, -, hobj⟩ :=
      h.ring.live _ ((h.readers i hi).lt_of_reading hreading) (h.live hi)
    exact ⟨hwritten, hobj⟩

/-- In every run each reader has returned the first objects that were given to `enqueue`, in order
and without an error, and the writer and the readers are never at work on the same chunk. -/
theorem fifo_of_execution (run : Execution (Step cfg pickle) (.new cfg) events s) :
    ∀ i < cfg.nReader, (s.readers i).dequeued <+: enqueues events ∧
      (s.readers i).pc ≠ .crashed ∧ Exclusive cfg pickle s i := by
  intro i hi
  have h := consistent_of_execution run
  have hreader := h.readers i hi
  refine ⟨?_, fun hcrashed => ?_, h.exclusive hi⟩
  · rw [← enqueued_of_execution run, hreader.taken]
    exact take_prefix _ _
  · have hpc := hreader.pc
    rw [hcrashed] at hpc
    exact hpc

/-- In every run, a reader that calls `dequeue` when another message was sent returns it in five
steps of its own. -/
theorem dequeue_of_execution (run : Execution (Step cfg pickle) (.new cfg) events s) {i : ℕ}
    (hi : i < cfg.nReader) (idle : (s.readers i).pc = .idle)
    (hsent : (s.readers i).dequeued.length < s.sent) :
    ∃ obj t, s.enqueued[(s.readers i).dequeued.length]? = some obj ∧
      (.dequeue i :: List.replicate 5 (.read i)).foldlM (step cfg pickle) s = some t ∧
      (t.readers i).pc = .idle ∧ (t.readers i).dequeued = (s.readers i).dequeued ++ [obj] := by
  have h := consistent_of_execution run
  have hreader := h.readers i hi
  have hfinished : (s.readers i).finished = (s.readers i).dequeued.length := by
    rw [Reader.finished, idle]
  have hidx := hreader.currentIdx
  -- What was sent has been published before.
  have hlt : (s.readers i).dequeued.length < s.published := by
    rcases h.sent_eq with heq | heq <;> omega
  obtain ⟨hwritten, hflags, obj, hobj, hencodes⟩ :=
    h.ring.live _ (hfinished ▸ hlt) (h.live hi)
  rw [← hidx] at hwritten hflags hencodes
  have hflag : (s.chunks (s.readers i).currentIdx).readFlag i = false := by
    rw [hflags i hi, decide_eq_false (Nat.lt_irrefl _)]
  rw [hfinished] at hobj
  by_cases hlarge : Overflows cfg pickle obj
  · -- The chunk says overflow, and the message is the next one of the socket.
    have hsocket := hreader.socket
    rw [pending_eq cfg pickle hobj hsent, if_pos hlarge] at hsocket
    have hhead := hencodes.head?_eq.mpr hlarge
    have hloads := pickle.loads_dumps obj []
    rw [append_nil] at hloads
    exact ⟨obj, _, hobj, by
      simp [step, readerStep, State.setReader, State.setChunk, idle, hi, hwritten, hflag, hhead,
        hsocket, hloads]
      rfl, by simp, by simp⟩
  · -- The message is in the chunk, behind its header.
    have hhead : ¬ _ := mt hencodes.head?_eq.mp hlarge
    have hloads := hencodes.loads_eq hlarge
    rw [drop_one] at hloads
    exact ⟨obj, _, hobj, by
      simp [step, readerStep, State.setReader, State.setChunk, idle, hi, hwritten, hflag, hhead,
        hloads]
      rfl, by simp, by simp⟩

/-- Events whose steps can all be made are a run. -/
theorem execution_of_foldlM (h : events.foldlM (step cfg pickle) s = some t) :
    Execution (Step cfg pickle) s events t := by
  induction events using List.reverseRecOn generalizing t with
  | nil =>
    cases h
    exact .start
  | append_singleton events event ih =>
    rw [foldlM_append] at h
    obtain ⟨_, hu, hlast⟩ := bind_eq_some_iff.mp h
    obtain ⟨_, hv, hend⟩ := bind_eq_some_iff.mp hlast
    cases hend
    exact (ih hu).extend hv

end Runs

section Example

/-- A ring with one chunk of two bytes. -/
def oneChunk : RingConfig where
  nReader := 2
  maxChunkBytes := 2
  maxChunks := 1
  maxChunkBytes_pos := by decide
  maxChunks_pos := by decide

/-- A serialization with one short and one long form. -/
def boolPickle : Pickle Bool where
  dumps obj := if obj then [1] else [0, 0, 0]
  loads
    | 1 :: _ => some true
    | 0 :: 0 :: 0 :: _ => some false
    | _ => none
  loads_dumps obj _ := by cases obj <;> rfl

/-- Both readers return an object that fits, and then one of them an object that does not. -/
def twoObjects : List (Event Bool) :=
  .enqueue true :: List.replicate 9 .write ++
  .dequeue 0 :: List.replicate 5 (.read 0) ++ .dequeue 1 :: List.replicate 5 (.read 1) ++
  .enqueue false :: List.replicate 9 .write ++ .dequeue 0 :: List.replicate 5 (.read 0)

theorem fifo_of_execution_two :
    ∃ s, twoObjects.foldlM (step oneChunk boolPickle) (.new oneChunk) = some s ∧
      (s.readers 0).dequeued <+: [true, false] ∧ (s.readers 1).dequeued <+: [true, false] := by
  have hsome : (twoObjects.foldlM (step oneChunk boolPickle) (.new oneChunk)).isSome = true := by
    decide +kernel
  obtain ⟨s, hs⟩ := isSome_iff_exists.mp hsome
  have h := fifo_of_execution (execution_of_foldlM hs)
  exact ⟨s, hs, (h 0 (by decide)).1, (h 1 (by decide)).1⟩

/-- Then the other reader calls `dequeue` for the object that does not fit. -/
theorem dequeue_of_execution_overflow : ∃ s t,
    twoObjects.foldlM (step oneChunk boolPickle) (.new oneChunk) = some s ∧
    (.dequeue 1 :: List.replicate 5 (.read 1)).foldlM (step oneChunk boolPickle) s = some t ∧
    (s.readers 1).dequeued = [true] ∧ (t.readers 1).dequeued = [true, false] := by
  have hview : (twoObjects.foldlM (step oneChunk boolPickle) (.new oneChunk)).map
      (fun s => ((s.readers 1).pc, (s.readers 1).dequeued, s.sent, s.enqueued)) =
        some (.idle, [true], 2, [true, false]) := by
    decide +kernel
  obtain ⟨s, hs, hview⟩ := map_eq_some_iff.mp hview
  obtain ⟨hpc, hrest⟩ := Prod.mk.inj hview
  obtain ⟨hold, hrest⟩ := Prod.mk.inj hrest
  obtain ⟨hsent, henqueued⟩ := Prod.mk.inj hrest
  obtain ⟨obj, t, hobj, ht, -, hdequeued⟩ := dequeue_of_execution (execution_of_foldlM hs)
    (by decide : 1 < oneChunk.nReader) hpc (by rw [hold, hsent]; decide)
  rw [hold, henqueued] at hobj
  cases hobj
  rw [hold] at hdequeued
  exact ⟨s, t, hs, ht, hold, hdequeued⟩

end Example

end Broadcast
