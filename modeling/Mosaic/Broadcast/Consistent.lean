import Mosaic.Broadcast.Ring

/-!
# The invariant of the broadcast

What the chunks hold, what the writer knows at each place of `enqueue`, and what a reader knows at
each place of `dequeue`. The invariant speaks of the numbers of messages: published by the writer,
sent to the sockets, and finished by each reader. Here are its definition and the steps of the
writer.
-/

namespace Broadcast

open List Function

variable {α : Type} {cfg : RingConfig} {pickle : Pickle α}

/-! ### The numbers of messages -/

/-- The writer is between opening a chunk and publishing it. -/
def WriterPc.writing : WriterPc α → Bool
  | .writingHeader _ | .writingPayload _ | .clearing _ _ => true
  | _ => false

/-- The reader is between finding a chunk and setting its flag. -/
def ReaderPc.reading : ReaderPc α → Bool
  | .opening | .loading | .marking _ => true
  | _ => false

/-- The messages that were published: the object that is being written does not count. -/
def State.published (s : State α) : ℕ :=
  match s.writer with
  | .idle | .sending _ => s.enqueued.length
  | _ => s.enqueued.length - 1

/-- The messages that the writer is done with: one that has to be sent does not count. -/
def State.sent (s : State α) : ℕ :=
  match s.writer with
  | .idle => s.enqueued.length
  | _ => s.enqueued.length - 1

/-- The messages that the reader has finished in the ring. -/
def Reader.finished (r : Reader α) : ℕ :=
  match r.pc with
  | .receiving => r.dequeued.length + 1
  | _ => r.dequeued.length

/-! ### The writer -/

/-- What the writer knows at each place of `enqueue`. -/
def WriterOk (cfg : RingConfig) (pickle : Pickle α) (chunks : ℕ → Chunk) (enqueued : List α)
    (published : ℕ) (finished : ℕ → ℕ) : WriterPc α → Prop
  | .idle => True
  | .counting obj i readCount => enqueued[published]? = some obj ∧ i ≤ cfg.nReader ∧
      readCount ≤ i ∧ (readCount = i → cfg.maxChunks ≤ published →
        ∀ j < i, published < finished j + cfg.maxChunks)
  | .resetting obj => enqueued[published]? = some obj ∧
      ∀ i < cfg.nReader, published < finished i + cfg.maxChunks
  | .writingHeader obj => enqueued[published]? = some obj ∧
      ∀ i < cfg.nReader, published < finished i + cfg.maxChunks
  | .writingPayload obj => enqueued[published]? = some obj ∧
      (∀ i < cfg.nReader, published < finished i + cfg.maxChunks) ∧
      ¬Overflows cfg pickle obj ∧ (chunks (published % cfg.maxChunks)).data.head? = some 0
  | .clearing obj i => enqueued[published]? = some obj ∧
      (∀ i < cfg.nReader, published < finished i + cfg.maxChunks) ∧ i ≤ cfg.nReader ∧
      Encodes cfg pickle (chunks (published % cfg.maxChunks)).data obj ∧
      ∀ j < i, (chunks (published % cfg.maxChunks)).readFlag j = false
  | .sending obj => enqueued.getLast? = some obj ∧ Overflows cfg pickle obj

/-! ### The readers -/

/-- What a reader knows at each place of `dequeue`. -/
def ReaderPcOk (cfg : RingConfig) (pickle : Pickle α) (enqueued : List α) (published : ℕ)
    (busy : Bool) (finished : ℕ) : ReaderPc α → Prop
  | .idle | .checking => True
  | .checked readFlag =>
    readFlag = false → finished = published → published < cfg.maxChunks ∨ busy = true
  | .opening => finished < published
  | .loading => finished < published ∧
      ∃ obj, enqueued[finished]? = some obj ∧ ¬Overflows cfg pickle obj
  | .marking none => finished < published ∧
      ∃ obj, enqueued[finished]? = some obj ∧ Overflows cfg pickle obj
  | .marking (some obj) => finished < published ∧
      enqueued[finished]? = some obj ∧ ¬Overflows cfg pickle obj
  | .receiving => ∃ obj, enqueued[finished - 1]? = some obj ∧ Overflows cfg pickle obj
  | .crashed => False

/-- What was sent and not yet received. -/
def pending (cfg : RingConfig) (pickle : Pickle α) (enqueued : List α) (sent dequeued : ℕ) :
    List (List UInt8) :=
  (((enqueued.take sent).drop dequeued).filter fun obj => Overflows cfg pickle obj).map pickle.dumps

/-- A reader is at most one round behind the writer, has returned the first objects, and finds in
its socket those that follow and are too large. -/
structure ReaderOk (cfg : RingConfig) (pickle : Pickle α) (enqueued : List α) (published : ℕ)
    (busy : Bool) (sent : ℕ) (r : Reader α) : Prop where
  currentIdx : r.currentIdx = r.finished % cfg.maxChunks
  le : r.finished ≤ published
  round : published ≤ r.finished + cfg.maxChunks
  taken : r.dequeued = enqueued.take r.dequeued.length
  received : r.dequeued.length ≤ sent
  socket : r.socket = pending cfg pickle enqueued sent r.dequeued.length
  pc : ReaderPcOk cfg pickle enqueued published busy r.finished r.pc

/-- The invariant: of the ring, of the writer and of every reader. -/
structure Consistent (cfg : RingConfig) (pickle : Pickle α) (s : State α) : Prop where
  ring : RingOk cfg pickle s.chunks s.enqueued s.published (fun i => (s.readers i).finished)
    s.writer.writing
  writer : WriterOk cfg pickle s.chunks s.enqueued s.published
    (fun i => (s.readers i).finished) s.writer
  currentIdx : s.currentIdx = s.published % cfg.maxChunks
  readers : ∀ i < cfg.nReader,
    ReaderOk cfg pickle s.enqueued s.published s.writer.writing s.sent (s.readers i)

theorem consistent_new (cfg : RingConfig) (pickle : Pickle α) :
    Consistent cfg pickle (State.new cfg) where
  ring :=
    { length := fun _ => length_replicate
      live := fun m hm => absurd hm (Nat.not_lt_zero m)
      fresh := fun _ _ _ => ⟨rfl, fun _ _ => rfl⟩
      closed := nofun }
  writer := trivial
  currentIdx := (Nat.zero_mod _).symm
  readers _ _ :=
    { currentIdx := (Nat.zero_mod _).symm
      le := Nat.le_refl _
      round := Nat.zero_le _
      taken := rfl
      received := Nat.le_refl _
      socket := rfl
      pc := trivial }

/-! ### Data in a chunk -/

section Data

variable {data : List UInt8} {obj : α}

theorem length_writeSlice {bytes : List UInt8} (h : 1 + bytes.length ≤ data.length) :
    (writeSlice data 1 bytes).length = data.length := by
  unfold writeSlice
  rw [length_append, length_append, List.length_take, length_drop]
  omega

/-- The announcement of an object that is too large. -/
theorem encodes_header (hpos : 0 < data.length) (hobj : Overflows cfg pickle obj) :
    Encodes cfg pickle (data.set 0 1) obj := by
  unfold Encodes
  rw [if_pos hobj]
  cases data with
  | nil => cases hpos
  | cons byte rest => rfl

/-- The header and the object that fits behind it. -/
theorem encodes_payload (hhead : data.head? = some 0) (hobj : ¬Overflows cfg pickle obj) :
    Encodes cfg pickle (writeSlice data 1 (pickle.dumps obj)) obj := by
  unfold Encodes
  rw [if_neg hobj]
  cases data with
  | nil => cases hhead
  | cons byte rest =>
    cases hhead
    exact ⟨rest.drop (pickle.dumps obj).length, by
      simp [writeSlice, Nat.add_comm 1]⟩

/-- The header tells whether the object is too large. -/
theorem Encodes.head?_eq (h : Encodes cfg pickle data obj) :
    data.head? = some 1 ↔ Overflows cfg pickle obj := by
  unfold Encodes at h
  split at h
  · rename_i hobj
    exact ⟨fun _ => hobj, fun _ => h⟩
  · rename_i hobj
    obtain ⟨_, rfl⟩ := h
    exact ⟨fun heq => absurd (Option.some.inj heq) (by decide), fun h => absurd h hobj⟩

/-- The object behind the header is loaded. -/
theorem Encodes.loads_eq (h : Encodes cfg pickle data obj) (hobj : ¬Overflows cfg pickle obj) :
    pickle.loads (data.drop 1) = some obj := by
  unfold Encodes at h
  rw [if_neg hobj] at h
  obtain ⟨rest, rfl⟩ := h
  rw [drop_succ_cons, drop_zero]
  exact pickle.loads_dumps obj rest

end Data

/-! ### Steps of the writer -/

section Writer

variable {s t : State α} {obj : α} {enqueued : List α}

/-- The readers do not notice a step that publishes nothing and sends nothing. -/
theorem ReaderOk.busy {published sent : ℕ} {busy busy' : Bool} {r : Reader α}
    (h : ReaderOk cfg pickle enqueued published busy sent r) (hbusy : busy = true → busy' = true) :
    ReaderOk cfg pickle enqueued published busy' sent r where
  currentIdx := h.currentIdx
  le := h.le
  round := h.round
  taken := h.taken
  received := h.received
  socket := h.socket
  pc := by
    have hpc := h.pc
    cases hr : r.pc with
    | checked readFlag =>
      rw [hr] at hpc
      exact fun hflag heq => (hpc hflag heq).imp_right hbusy
    | marking loaded =>
      rw [hr] at hpc
      cases loaded <;> exact hpc
    | _ =>
      rw [hr] at hpc
      exact hpc

/-- The readers do not lose what they know when a message is published. -/
theorem ReaderOk.publish {published sent sent' : ℕ} {busy : Bool} {r : Reader α}
    (h : ReaderOk cfg pickle enqueued published busy sent r)
    (hround : published < r.finished + cfg.maxChunks) (hle : sent ≤ sent')
    (hsent : pending cfg pickle enqueued sent' r.dequeued.length =
      pending cfg pickle enqueued sent r.dequeued.length) :
    ReaderOk cfg pickle enqueued (published + 1) false sent' r where
  currentIdx := h.currentIdx
  le := Nat.le_succ_of_le h.le
  round := hround
  taken := h.taken
  received := Nat.le_trans h.received hle
  socket := h.socket.trans hsent.symm
  pc := by
    have hpc := h.pc
    have hle := h.le
    cases hr : r.pc with
    | idle => trivial
    | checking => trivial
    | checked readFlag =>
      intro _ heq
      omega
    | opening =>
      rw [hr] at hpc
      exact Nat.lt_succ_of_lt hpc
    | loading =>
      rw [hr] at hpc
      exact ⟨Nat.lt_succ_of_lt hpc.1, hpc.2⟩
    | marking loaded =>
      rw [hr] at hpc
      cases loaded <;> exact ⟨Nat.lt_succ_of_lt hpc.1, hpc.2⟩
    | receiving =>
      rw [hr] at hpc
      exact hpc
    | crashed =>
      rw [hr] at hpc
      exact hpc.elim

/-- A step of the writer within `enqueue` that publishes nothing: the ring, and what the writer
knows then. -/
theorem Consistent.ofWriter (h : Consistent cfg pickle s)
    (frame : t.readers = s.readers ∧ t.enqueued = s.enqueued ∧
      t.currentIdx = s.published % cfg.maxChunks)
    (hpublished : t.published = s.published) (hsent : t.sent = s.sent)
    (hwriting : s.writer.writing = true → t.writer.writing = true)
    (hring : RingOk cfg pickle t.chunks s.enqueued s.published (fun i => (s.readers i).finished)
      t.writer.writing)
    (hwriter : WriterOk cfg pickle t.chunks s.enqueued s.published
      (fun i => (s.readers i).finished) t.writer) :
    Consistent cfg pickle t := by
  obtain ⟨hreaders, henqueued, hidx⟩ := frame
  refine ⟨?_, ?_, ?_, fun i hi => ?_⟩
  · rw [hpublished, hreaders, henqueued]
    exact hring
  · rw [hpublished, hreaders, henqueued]
    exact hwriter
  · rw [hidx, hpublished]
  · rw [hpublished, hsent, hreaders, henqueued]
    exact (h.readers i hi).busy hwriting

/-- Before a chunk is opened for the first time, its flags are 0. -/
theorem Consistent.unread (h : Consistent cfg pickle s) (hlt : s.published < cfg.maxChunks)
    {i : ℕ} (hi : i < cfg.nReader) :
    (s.chunks (s.published % cfg.maxChunks)).readFlag i = false := by
  rw [Nat.mod_eq_of_lt hlt]
  exact (h.ring.fresh s.published (Nat.le_refl _) hlt).2 i hi

/-- The chunk of the next message holds the message of the round before. -/
theorem Consistent.before (h : Consistent cfg pickle s) (hidle : s.writer.writing = false)
    (hle : cfg.maxChunks ≤ s.published) :
    (s.chunks (s.published % cfg.maxChunks)).written = true ∧ ∀ i < cfg.nReader,
      (s.chunks (s.published % cfg.maxChunks)).readFlag i = true →
        s.published < (s.readers i).finished + cfg.maxChunks := by
  have hpos := cfg.maxChunks_pos
  obtain ⟨hwritten, hread, -⟩ := h.ring.live (s.published - cfg.maxChunks) (by omega)
    (.inr ⟨(Nat.sub_add_cancel hle).symm, hidle⟩)
  have hmod : (s.published - cfg.maxChunks) % cfg.maxChunks = s.published % cfg.maxChunks :=
    (Nat.mod_eq_sub_mod hle).symm
  rw [hmod] at hwritten hread
  refine ⟨hwritten, fun i hi hflag => ?_⟩
  rw [hread i hi, decide_eq_true_iff] at hflag
  omega

theorem Consistent.count (h : Consistent cfg pickle s) {i readCount : ℕ}
    (hw : s.writer = .counting obj i readCount) (hstep : writerStep cfg pickle s = some t) :
    Consistent cfg pickle t := by
  have hidle : s.writer.writing = false := by rw [hw]; rfl
  have hpublished : s.published = s.enqueued.length - 1 := by unfold State.published; rw [hw]
  have hsent : s.sent = s.enqueued.length - 1 := by unfold State.sent; rw [hw]
  have hring := h.ring
  rw [hidle] at hring
  have hwriter := h.writer
  rw [hw] at hwriter
  obtain ⟨hobj, hi, hcount, hall⟩ := hwriter
  unfold writerStep at hstep
  rw [hw, h.currentIdx] at hstep
  dsimp only at hstep
  split at hstep
  · -- one more flag of a reader
    rename_i hlt
    cases hstep
    refine h.ofWriter ⟨rfl, rfl, rfl⟩ hpublished.symm hsent.symm (by rw [hidle]; nofun) hring
      ⟨hobj, hlt, ?_, fun heq hle j hj => ?_⟩
    · split <;> omega
    · by_cases hflag : (s.chunks (s.published % cfg.maxChunks)).readFlag i = true
      · rw [if_pos hflag] at heq
        rcases Nat.lt_succ_iff_lt_or_eq.mp hj with hj | rfl
        · exact hall (by omega) hle j hj
        · exact (h.before hidle hle).2 j hlt hflag
      · rw [if_neg hflag] at heq
        omega
  obtain rfl : i = cfg.nReader := by omega
  split at hstep
  · -- not all readers are done
    cases hstep
    exact h.ofWriter ⟨rfl, rfl, rfl⟩ hpublished.symm hsent.symm (by rw [hidle]; nofun) hring
      ⟨hobj, Nat.zero_le _, Nat.le_refl _, fun _ _ j hj => absurd hj (Nat.not_lt_zero j)⟩
  · rename_i hready
    cases hstep
    refine h.ofWriter ⟨rfl, rfl, rfl⟩ hpublished.symm hsent.symm (by rw [hidle]; nofun) hring
      ⟨hobj, fun j hj => ?_⟩
    by_cases hle : cfg.maxChunks ≤ s.published
    · have hwritten := (h.before hidle hle).1
      have heq : readCount = cfg.nReader := not_not.mp fun hne => hready ⟨hwritten, hne⟩
      exact hall heq hle j hj
    · omega

/-- The writer opens the chunk and writes to it. -/
theorem Consistent.fill (h : Consistent cfg pickle s)
    (hw : s.writer = .resetting obj ∨ s.writer = .writingHeader obj ∨
      s.writer = .writingPayload obj)
    (hstep : writerStep cfg pickle s = some t) : Consistent cfg pickle t := by
  -- The message is enqueued but not published: no reader looks at its chunk yet.
  have hpublished : s.published = s.enqueued.length - 1 := by
    unfold State.published
    rcases hw with hw | hw | hw <;> rw [hw]
  have hsent : s.sent = s.enqueued.length - 1 := by
    unfold State.sent
    rcases hw with hw | hw | hw <;> rw [hw]
  have hwriter := h.writer
  have hlength := h.ring.length (s.published % cfg.maxChunks)
  have hpos := cfg.maxChunkBytes_pos
  unfold writerStep at hstep
  rw [h.currentIdx] at hstep
  rcases hw with hw | hw | hw
  · rw [hw] at hstep hwriter
    cases hstep
    exact h.ofWriter ⟨rfl, rfl, h.currentIdx⟩ hpublished.symm hsent.symm (fun _ => rfl)
      (h.ring.modify rfl hlength fun hlt i hi => h.unread hlt hi) hwriter
  · -- The header: the message is too large for a chunk, or it fits.
    have hclosed := h.ring.closed (by rw [hw]; rfl)
    rw [hw] at hstep hwriter
    dsimp only at hstep
    split at hstep
    · rename_i hobj
      cases hstep
      refine h.ofWriter ⟨rfl, rfl, h.currentIdx⟩ hpublished.symm hsent.symm (fun _ => rfl)
        (h.ring.modify hclosed ((length_set).trans hlength) fun hlt i hi => h.unread hlt hi)
        ⟨hwriter.1, hwriter.2, Nat.zero_le _, ?_, fun j hj => absurd hj (Nat.not_lt_zero j)⟩
      rw [State.setChunk_chunks, update_self]
      exact encodes_header (by omega) hobj
    · rename_i hobj
      cases hstep
      refine h.ofWriter ⟨rfl, rfl, h.currentIdx⟩ hpublished.symm hsent.symm (fun _ => rfl)
        (h.ring.modify hclosed ((length_set).trans hlength) fun hlt i hi => h.unread hlt hi)
        ⟨hwriter.1, hwriter.2, hobj, ?_⟩
      rw [State.setChunk_chunks, update_self]
      cases hdata : (s.chunks (s.published % cfg.maxChunks)).data with
      | nil =>
        rw [hdata, length_nil] at hlength
        omega
      | cons byte rest => rfl
  · -- The payload, behind the header.
    have hclosed := h.ring.closed (by rw [hw]; rfl)
    rw [hw] at hstep hwriter
    obtain ⟨hobj, hround, hfits, hhead⟩ := hwriter
    cases hstep
    have hbound : 1 + (pickle.dumps obj).length ≤
        (s.chunks (s.published % cfg.maxChunks)).data.length := by
      rw [hlength]
      have hlt : ¬cfg.maxChunkBytes ≤ (pickle.dumps obj).length := hfits
      omega
    refine h.ofWriter ⟨rfl, rfl, h.currentIdx⟩ hpublished.symm hsent.symm (fun _ => rfl)
      (h.ring.modify hclosed ((length_writeSlice hbound).trans hlength) fun hlt i hi =>
        h.unread hlt hi)
      ⟨hobj, hround, Nat.zero_le _, ?_, fun j hj => absurd hj (Nat.not_lt_zero j)⟩
    rw [State.setChunk_chunks, update_self]
    exact encodes_payload hhead hfits

/-- One more message is sent if it is too large, and nothing otherwise. -/
theorem pending_succ (cfg : RingConfig) (pickle : Pickle α)
    {sent dequeued : ℕ} (hobj : enqueued[sent]? = some obj)
    (hle : dequeued ≤ sent) :
    pending cfg pickle enqueued (sent + 1) dequeued =
      pending cfg pickle enqueued sent dequeued ++
        if Overflows cfg pickle obj then [pickle.dumps obj] else [] := by
  have hlt := (List.getElem?_eq_some_iff.mp hobj).1
  have hlen : dequeued ≤ (enqueued.take sent).length := by
    rw [List.length_take]
    omega
  unfold pending
  rw [take_add_one, hobj, Option.toList_some, drop_append_of_le_length hlen,
    filter_append, map_append]
  by_cases h : Overflows cfg pickle obj <;> simp [h]

theorem Reader.dequeued_le_finished (r : Reader α) : r.dequeued.length ≤ r.finished := by
  unfold Reader.finished
  split
  · exact Nat.le_succ _
  · exact Nat.le_refl _

/-- The writer resets the flags of the readers and publishes the chunk. -/
theorem Consistent.clear (h : Consistent cfg pickle s) {i : ℕ} (hw : s.writer = .clearing obj i)
    (hstep : writerStep cfg pickle s = some t) : Consistent cfg pickle t := by
  have hbusy : s.writer.writing = true := by rw [hw]; rfl
  have hpublished : s.published = s.enqueued.length - 1 := by unfold State.published; rw [hw]
  have hsent : s.sent = s.enqueued.length - 1 := by unfold State.sent; rw [hw]
  have hlength := h.ring.length (s.published % cfg.maxChunks)
  have hclosed := h.ring.closed hbusy
  have hwriter := h.writer
  rw [hw] at hwriter
  obtain ⟨hobj, hround, hi, hencodes, hcleared⟩ := hwriter
  unfold writerStep at hstep
  rw [hw, h.currentIdx] at hstep
  dsimp only at hstep
  split at hstep
  · rename_i hlt
    cases hstep
    refine h.ofWriter ⟨rfl, rfl, h.currentIdx⟩ hpublished.symm hsent.symm (fun _ => rfl)
      (h.ring.modify hclosed hlength fun hlt j hj => ?_) ⟨hobj, hround, hlt, ?_, fun j hj => ?_⟩
    · dsimp only
      rw [update_apply]
      split
      · rfl
      · exact h.unread hlt hj
    · rw [State.setChunk_chunks, update_self]
      exact hencodes
    · rw [State.setChunk_chunks, update_self]
      dsimp only
      rw [update_apply]
      split
      · rfl
      · exact hcleared j (by omega)
  · rename_i hend
    obtain rfl : i = cfg.nReader := by omega
    cases hstep
    have hlt := (List.getElem?_eq_some_iff.mp hobj).1
    have hring := h.ring
    rw [hbusy] at hring
    have hnew := RingOk.publish { s.chunks (s.published % cfg.maxChunks) with written := true }
      hring hobj rfl hlength hencodes hcleared fun j hj => (h.readers j hj).le
    have hidx : (s.published % cfg.maxChunks + 1) % cfg.maxChunks =
        (s.published + 1) % cfg.maxChunks := Nat.mod_add_mod _ _ _
    by_cases hover : Overflows cfg pickle obj
    · rw [if_pos hover]
      have hall : s.published + 1 = s.enqueued.length := by omega
      refine ⟨?_, ⟨?_, hover⟩, ?_, fun j hj => ?_⟩
      · rw [hall] at hnew
        exact hnew
      · rw [getLast?_eq_getElem?]
        exact hpublished ▸ hobj
      · exact hidx.trans (by rw [hall]; rfl)
      · have hreader := (h.readers j hj).publish (hround j hj) (Nat.le_refl _) rfl
        rw [hall, hsent] at hreader
        exact hreader
    · rw [if_neg hover]
      have hall : s.published + 1 = s.enqueued.length := by omega
      refine ⟨?_, trivial, ?_, fun j hj => ?_⟩
      · rw [hall] at hnew
        exact hnew
      · exact hidx.trans (by rw [hall]; rfl)
      · -- nothing has to be sent
        have hle := Nat.le_trans (s.readers j).dequeued_le_finished (h.readers j hj).le
        have hpending := pending_succ cfg pickle hobj hle
        rw [if_neg hover, append_nil] at hpending
        rw [hpublished, ← hsent] at hpending
        have hreader := (h.readers j hj).publish (hround j hj) (by omega) hpending
        rw [hsent, ← hpublished, hall] at hreader
        exact hreader

/-- The object that was too large arrives at the sockets of the readers. -/
theorem Consistent.send (h : Consistent cfg pickle s) (hw : s.writer = .sending obj)
    (hstep : writerStep cfg pickle s = some t) : Consistent cfg pickle t := by
  have hidle : s.writer.writing = false := by rw [hw]; rfl
  have hpublished : s.published = s.enqueued.length := by unfold State.published; rw [hw]
  have hsent : s.sent = s.enqueued.length - 1 := by unfold State.sent; rw [hw]
  have hring := h.ring
  rw [hidle, hpublished] at hring
  have hwriter := h.writer
  rw [hw] at hwriter
  obtain ⟨hlast, hover⟩ := hwriter
  rw [getLast?_eq_getElem?] at hlast
  have hpos := (List.getElem?_eq_some_iff.mp hlast).1
  unfold writerStep at hstep
  rw [hw] at hstep
  cases hstep
  refine ⟨hring, trivial, ?_, fun i hi => ?_⟩
  · rw [h.currentIdx, hpublished]
    rfl
  · have hreader := h.readers i hi
    rw [hpublished, hidle, hsent] at hreader
    have hsucc := pending_succ cfg pickle hlast hreader.received
    rw [if_pos hover, Nat.sub_add_cancel (by omega), ← hreader.socket] at hsucc
    exact ⟨hreader.currentIdx, hreader.le, hreader.round, hreader.taken,
      Nat.le_trans hreader.received (Nat.sub_le _ _), hsucc.symm, hreader.pc⟩

theorem Consistent.write (h : Consistent cfg pickle s)
    (hstep : writerStep cfg pickle s = some t) : Consistent cfg pickle t := by
  cases hw : s.writer with
  | idle =>
    unfold writerStep at hstep
    rw [hw] at hstep
    cases hstep
  | counting obj i readCount => exact h.count hw hstep
  | resetting obj => exact h.fill (.inl hw) hstep
  | writingHeader obj => exact h.fill (.inr (.inl hw)) hstep
  | writingPayload obj => exact h.fill (.inr (.inr hw)) hstep
  | clearing obj i => exact h.clear hw hstep
  | sending obj => exact h.send hw hstep

/-- A reader does not notice an object that is only given to `enqueue`. -/
theorem ReaderOk.enqueue {published : ℕ} {busy : Bool} {r : Reader α}
    (h : ReaderOk cfg pickle enqueued published busy enqueued.length r) (obj : α) :
    ReaderOk cfg pickle (enqueued ++ [obj]) published busy enqueued.length r where
  currentIdx := h.currentIdx
  le := h.le
  round := h.round
  taken := by
    rw [take_append_of_le_length h.received]
    exact h.taken
  received := h.received
  socket := by
    have hsocket := h.socket
    unfold pending at hsocket ⊢
    rw [take_append_of_le_length (Nat.le_refl _)]
    exact hsocket
  pc := by
    have hget : ∀ {m : ℕ} {x : α}, enqueued[m]? = some x → (enqueued ++ [obj])[m]? = some x := by
      intro m x hx
      rw [getElem?_append_left (List.getElem?_eq_some_iff.mp hx).1]
      exact hx
    have hpc := h.pc
    cases hr : r.pc with
    | loading =>
      rw [hr] at hpc
      obtain ⟨hlt, x, hx, hfits⟩ := hpc
      exact ⟨hlt, x, hget hx, hfits⟩
    | marking loaded =>
      rw [hr] at hpc
      cases loaded with
      | none =>
        obtain ⟨hlt, x, hx, hover⟩ := hpc
        exact ⟨hlt, x, hget hx, hover⟩
      | some x => exact ⟨hpc.1, hget hpc.2.1, hpc.2.2⟩
    | receiving =>
      rw [hr] at hpc
      obtain ⟨x, hx, hover⟩ := hpc
      exact ⟨x, hget hx, hover⟩
    | _ =>
      rw [hr] at hpc
      exact hpc

theorem Consistent.enqueue (h : Consistent cfg pickle s) (hidle : s.writer = .idle) (obj : α) :
    Consistent cfg pickle
      { s with writer := .counting obj 0 0, enqueued := s.enqueued ++ [obj] } := by
  have hpublished : s.published = s.enqueued.length := by unfold State.published; rw [hidle]
  have hsent : s.sent = s.enqueued.length := by unfold State.sent; rw [hidle]
  have hlength : (s.enqueued ++ [obj]).length - 1 = s.enqueued.length := by
    rw [length_append, length_singleton, Nat.add_sub_cancel]
  have hring := h.ring
  rw [hidle, hpublished] at hring
  refine ⟨?_, ⟨?_, Nat.zero_le _, Nat.le_refl _, fun _ _ j hj => absurd hj (Nat.not_lt_zero j)⟩,
    ?_, fun i hi => ?_⟩
  · have hnew := hring.enqueue obj (Nat.le_refl _)
    rw [← hlength] at hnew
    exact hnew
  · refine Eq.trans ?_ (getElem?_concat_length (l := s.enqueued))
    exact congrArg ((s.enqueued ++ [obj])[·]?) hlength
  · rw [h.currentIdx, hpublished]
    exact congrArg (· % cfg.maxChunks) hlength.symm
  · have hreader := h.readers i hi
    rw [hpublished, hidle, hsent] at hreader
    have hnew := hreader.enqueue obj
    rw [← hlength] at hnew
    exact hnew

end Writer

end Broadcast
