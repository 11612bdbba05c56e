import Mosaic.Broadcast.Fifo

/-!
# Calls that run out of time

The calls of `enqueue` and `dequeue` have a time limit. The writer looks at the clock when its
chunk is not read by all readers. A reader looks at the clock when its chunk is not ready, and
again when an object that is too large does not arrive at the socket. While it waits for its chunk
a reader can also be cancelled.

Where a call of `dequeue` gives up at the ring, it has changed nothing. Where it gives up at the
socket, the chunk is marked as read already: the object that was announced stays in the socket, and
the next call does not return it.
-/

open Transition (Execution)

namespace Broadcast

open List Function Option

variable {α : Type} {cfg : RingConfig} {pickle : Pickle α}

/-! ### Giving up -/

/-- The writer raises `TimeoutError`, and its object is not in the queue. -/
def writeTimeout (cfg : RingConfig) (s : State α) : Option (State α) :=
  match s.writer with
  | .counting _ i readCount =>
    if cfg.nReader ≤ i ∧ (s.chunks s.currentIdx).written = true ∧ readCount ≠ cfg.nReader then
      some { s with writer := .idle, enqueued := s.enqueued.dropLast }
    else none
  | _ => none

/-- Reader `i` raises an error where it would look at the flags of its chunk again. -/
def leaveRing (i : ℕ) (s : State α) : Option (State α) :=
  let r := s.readers i
  match r.pc with
  | .checked readFlag =>
    if (s.chunks r.currentIdx).written = false ∨ readFlag = true then
      some (s.setReader i { r with pc := .idle })
    else none
  | _ => none

/-- Reader `i` raises `TimeoutError`. What was sent may still be on its way to the socket, so it
may miss an object that the writer is done with. -/
def readTimeout (i : ℕ) (s : State α) : Option (State α) :=
  match (s.readers i).pc with
  | .receiving => some (s.setReader i { s.readers i with pc := .idle })
  | _ => leaveRing i s

/-- What the processes do: a step, or the early end of a call. -/
inductive TimedEvent (α : Type) where
  | step (event : Event α)
  | writeTimeout
  | readTimeout (i : ℕ)
  | readCancelled (i : ℕ)

def timedStep (cfg : RingConfig) (pickle : Pickle α) (s : State α) :
    TimedEvent α → Option (State α)
  | .step event => step cfg pickle s event
  | .writeTimeout => writeTimeout cfg s
  | .readTimeout i => if i < cfg.nReader then readTimeout i s else none
  | .readCancelled i => if i < cfg.nReader then leaveRing i s else none

def TimedStep (cfg : RingConfig) (pickle : Pickle α) (s : State α) (event : TimedEvent α)
    (t : State α) : Prop :=
  timedStep cfg pickle s event = some t

/-- No reader runs out of time where it waits for an object that was announced. -/
def InTime (s : State α) : TimedEvent α → Prop
  | .readTimeout i => (s.readers i).pc ≠ .receiving
  | _ => True

def InTimeStep (cfg : RingConfig) (pickle : Pickle α) (s : State α) (event : TimedEvent α)
    (t : State α) : Prop :=
  InTime s event ∧ TimedStep cfg pickle s event t

/-- The objects in the queue, after one more event. -/
def TimedEvent.accept (objs : List α) : TimedEvent α → List α
  | .step event => objs ++ enqueues [event]
  | .writeTimeout => objs.dropLast
  | .readTimeout _ | .readCancelled _ => objs

/-- The objects that calls of `enqueue` have put into the queue. -/
def accepted (events : List (TimedEvent α)) : List α :=
  events.foldl TimedEvent.accept []

/-- Reader `i` is where it was in the queue: at the same chunk, with no flag set that was not, and
nothing was taken from its socket. The writer may have reset flags and sent objects. -/
structure SamePosition (i : ℕ) (s t : State α) : Prop where
  currentIdx : (t.readers i).currentIdx = (s.readers i).currentIdx
  readFlag : ∀ c, (t.chunks c).readFlag i = true → (s.chunks c).readFlag i = true
  socket : (s.readers i).socket <+: (t.readers i).socket
  dequeued : (t.readers i).dequeued = (s.readers i).dequeued

/-- A step in a call of `dequeue` by which reader `i` itself changes nothing in the queue. -/
def IdleStep (cfg : RingConfig) (pickle : Pickle α) (i : ℕ) (s : State α) (event : TimedEvent α)
    (t : State α) : Prop :=
  TimedStep cfg pickle s event t ∧
    (event = .step (.read i) → t = s.setReader i { s.readers i with pc := (t.readers i).pc })

/-! ### The invariant -/

section Invariant

variable {s t : State α} {i : ℕ}

/-- Only the objects that were published count for the chunks. -/
theorem RingOk.congr_enqueued {chunks : ℕ → Chunk} {enqueued enqueued' : List α} {published : ℕ}
    {finished : ℕ → ℕ} {busy : Bool}
    (h : RingOk cfg pickle chunks enqueued published finished busy)
    (hsame : ∀ m < published, enqueued'[m]? = enqueued[m]?) :
    RingOk cfg pickle chunks enqueued' published finished busy where
  length := h.length
  live m hm hround := by
    obtain ⟨hwritten, hread, obj, hobj, hencodes⟩ := h.live m hm hround
    exact ⟨hwritten, hread, obj, (hsame m hm).trans hobj, hencodes⟩
  fresh := h.fresh
  closed := h.closed

theorem take_congr {l l' : List α} {n k : ℕ} (hsame : ∀ m < n, l'[m]? = l[m]?) (hle : k ≤ n) :
    l'.take k = l.take k := by
  apply ext_getElem?
  intro m
  rw [getElem?_take, getElem?_take]
  split
  · apply hsame
    omega
  · rfl

/-- Only the objects that were published count for a reader. -/
theorem ReaderOk.congr_enqueued {enqueued enqueued' : List α} {published sent : ℕ} {busy : Bool}
    {r : Reader α} (h : ReaderOk cfg pickle enqueued published busy sent r) (hle : sent ≤ published)
    (hsame : ∀ m < published, enqueued'[m]? = enqueued[m]?) :
    ReaderOk cfg pickle enqueued' published busy sent r where
  currentIdx := h.currentIdx
  le := h.le
  round := h.round
  taken := by
    rw [take_congr hsame (Nat.le_trans h.received hle)]
    exact h.taken
  received := h.received
  socket := by
    have hsocket := h.socket
    unfold pending at hsocket ⊢
    rw [take_congr hsame hle]
    exact hsocket
  pc := by
    have hpc := h.pc
    have hfinished := h.le
    cases hr : r.pc with
    | loading =>
      rw [hr] at hpc
      obtain ⟨hlt, obj, hobj, hfits⟩ := hpc
      exact ⟨hlt, obj, (hsame _ hlt).trans hobj, hfits⟩
    | marking loaded =>
      rw [hr] at hpc
      cases loaded with
      | none =>
        obtain ⟨hlt, obj, hobj, hover⟩ := hpc
        exact ⟨hlt, obj, (hsame _ hlt).trans hobj, hover⟩
      | some obj =>
        obtain ⟨hlt, hobj, hfits⟩ := hpc
        exact ⟨hlt, (hsame _ hlt).trans hobj, hfits⟩
    | receiving =>
      rw [hr] at hpc
      obtain ⟨obj, hobj, hover⟩ := hpc
      have hpos : 0 < r.finished := by
        unfold Reader.finished
        rw [hr]
        exact Nat.succ_pos _
      exact ⟨obj, (hsame _ (by omega)).trans hobj, hover⟩
    | _ =>
      rw [hr] at hpc
      exact hpc

/-- A writer that gives up takes back an object that it has not published. -/
theorem Consistent.writeTimeout (h : Consistent cfg pickle s)
    (hstep : writeTimeout cfg s = some t) : Consistent cfg pickle t := by
  unfold Broadcast.writeTimeout at hstep
  split at hstep
  · rename_i obj i readCount hw
    split at hstep
    · cases hstep
      have hpublished : s.published = s.enqueued.length - 1 := by
        unfold State.published
        rw [hw]
      have hsent : s.sent = s.enqueued.length - 1 := by
        unfold State.sent
        rw [hw]
      have hlength : s.enqueued.dropLast.length = s.enqueued.length - 1 := length_dropLast
      have hsame : ∀ m < s.published, s.enqueued.dropLast[m]? = s.enqueued[m]? := by
        intro m hm
        rw [getElem?_dropLast, if_pos (hpublished ▸ hm)]
      have hnewPublished : ({ s with
          writer := .idle, enqueued := s.enqueued.dropLast } : State α).published =
            s.published := hlength.trans hpublished.symm
      have hnewSent : ({ s with
          writer := .idle, enqueued := s.enqueued.dropLast } : State α).sent = s.sent :=
        hlength.trans hsent.symm
      have hwriting : s.writer.writing = false := by
        rw [hw]
        rfl
      refine ⟨?_, trivial, ?_, fun j hj => ?_⟩
      · rw [hnewPublished]
        have hring := h.ring.congr_enqueued hsame
        rw [hwriting] at hring
        exact hring
      · rw [hnewPublished]
        exact h.currentIdx
      · rw [hnewPublished, hnewSent]
        have hreader := (h.readers j hj).congr_enqueued
          (Nat.le_of_eq (hsent.trans hpublished.symm)) hsame
        rw [hwriting] at hreader
        exact hreader
    · cases hstep
  · cases hstep

/-- A reader that gives up at the ring stays at the same message. -/
theorem Consistent.leaveRing (h : Consistent cfg pickle s) (hi : i < cfg.nReader)
    (hstep : leaveRing i s = some t) : Consistent cfg pickle t := by
  unfold Broadcast.leaveRing at hstep
  dsimp only at hstep
  split at hstep
  · rename_i readFlag hpc
    split at hstep
    · cases hstep
      have hfin : ({ s.readers i with pc := .idle } : Reader α).finished =
          (s.readers i).finished := by
        unfold Reader.finished
        rw [hpc]
      exact h.ofReader hfin ((h.readers i hi).move hfin trivial)
    · cases hstep
  · cases hstep

theorem readTimeout_of_ne (hpc : (s.readers i).pc ≠ .receiving) :
    readTimeout i s = leaveRing i s := by
  unfold readTimeout
  split
  · exact absurd ‹_› hpc
  · rfl

theorem InTimeStep.consistent {event : TimedEvent α} (hstep : InTimeStep cfg pickle s event t)
    (h : Consistent cfg pickle s) : Consistent cfg pickle t := by
  obtain ⟨hintime, hstep⟩ := hstep
  unfold TimedStep timedStep at hstep
  cases event with
  | step event => exact Step.consistent hstep h
  | writeTimeout => exact h.writeTimeout hstep
  | readTimeout i =>
    dsimp only at hstep
    split at hstep
    · rename_i hi
      rw [readTimeout_of_ne hintime] at hstep
      exact h.leaveRing hi hstep
    · cases hstep
  | readCancelled i =>
    dsimp only at hstep
    split at hstep
    · rename_i hi
      exact h.leaveRing hi hstep
    · cases hstep

end Invariant

/-! ### What the steps leave alone -/

section Frames

variable {s t u : State α} {i j : ℕ} {event : TimedEvent α}

/-- The reader waits for its chunk. -/
def ReaderPc.waiting : ReaderPc α → Bool
  | .checking | .checked _ => true
  | _ => false

/-- The reader whose call an event belongs to. -/
def TimedEvent.reader? : TimedEvent α → Option ℕ
  | .step (.dequeue i) | .step (.read i) | .readTimeout i | .readCancelled i => some i
  | .step (.enqueue _) | .step .write | .writeTimeout => none

namespace SamePosition

theorem trans (h : SamePosition i s t) (h' : SamePosition i t u) : SamePosition i s u where
  currentIdx := h'.currentIdx.trans h.currentIdx
  readFlag c hc := h.readFlag c (h'.readFlag c hc)
  socket := h.socket.trans h'.socket
  dequeued := h'.dequeued.trans h.dequeued

/-- The reader stays where it is when one chunk changes and no flag of the reader is set there. -/
theorem ofChunk {idx : ℕ} {chunk : Chunk} (hreader : t.readers i = s.readers i)
    (hchunks : t.chunks = update s.chunks idx chunk)
    (hflag : chunk.readFlag i = true → (s.chunks idx).readFlag i = true) :
    SamePosition i s t where
  currentIdx := by rw [hreader]
  readFlag c hc := by
    rw [hchunks, update_apply] at hc
    split at hc
    · rename_i heq
      rw [heq]
      exact hflag hc
    · exact hc
  socket := by simp only [hreader, prefix_rfl]
  dequeued := by rw [hreader]

theorem ofEq (hreader : t.readers i = s.readers i) (hchunks : t.chunks = s.chunks) :
    SamePosition i s t where
  currentIdx := by rw [hreader]
  readFlag c hc := hchunks ▸ hc
  socket := by simp only [hreader, prefix_rfl]
  dequeued := by rw [hreader]

/-- A reader that only goes to another place of `dequeue`. -/
theorem setPc (s : State α) (i : ℕ) (pc : ReaderPc α) :
    SamePosition i s (s.setReader i { s.readers i with pc }) where
  currentIdx := by rw [State.setReader_readers, update_self]
  readFlag _ hc := hc
  socket := by simp only [State.setReader_readers, update_self, prefix_rfl]
  dequeued := by rw [State.setReader_readers, update_self]

end SamePosition

/-- The writer resets flags and sends objects. It does not move the readers. -/
theorem writerStep_frame (hstep : writerStep cfg pickle s = some t) (i : ℕ) :
    (t.readers i).pc = (s.readers i).pc ∧ SamePosition i s t := by
  unfold writerStep at hstep
  dsimp only at hstep
  split at hstep
  · cases hstep
  · -- the flags are only read
    split at hstep
    · cases hstep
      exact ⟨rfl, .ofEq rfl rfl⟩
    · split at hstep <;> cases hstep <;> exact ⟨rfl, .ofEq rfl rfl⟩
  · cases hstep
    exact ⟨rfl, .ofChunk rfl rfl id⟩
  · split at hstep <;> cases hstep <;> exact ⟨rfl, .ofChunk rfl rfl id⟩
  · cases hstep
    exact ⟨rfl, .ofChunk rfl rfl id⟩
  · rename_i k hw
    split at hstep
    · -- a flag is reset
      cases hstep
      refine ⟨rfl, .ofChunk rfl rfl fun hflag => ?_⟩
      dsimp only at hflag
      rw [update_apply] at hflag
      split at hflag
      · cases hflag
      · exact hflag
    · cases hstep
      exact ⟨rfl, .ofChunk rfl rfl id⟩
  · cases hstep
    exact ⟨rfl, rfl, fun _ hc => hc, prefix_append _ _, rfl⟩

theorem setReader_frame (s : State α) (r : Reader α) (hne : i ≠ j) :
    ((s.setReader j r).readers i).pc = (s.readers i).pc ∧ SamePosition i s (s.setReader j r) := by
  have hsame : (s.setReader j r).readers i = s.readers i := update_of_ne hne _ _
  exact ⟨congrArg Reader.pc hsame, .ofEq hsame rfl⟩

/-- A reader does not move another reader. -/
theorem readerStep_frame (hne : i ≠ j) (hstep : readerStep cfg pickle j s = some t) :
    (t.readers i).pc = (s.readers i).pc ∧ SamePosition i s t := by
  -- the flag that it sets is its own
  have hmark : ∀ (r : Reader α) (chunk : Chunk) (idx : ℕ),
      chunk.readFlag = update (s.chunks idx).readFlag j true →
        (((s.setChunk idx chunk).setReader j r).readers i).pc = (s.readers i).pc ∧
          SamePosition i s ((s.setChunk idx chunk).setReader j r) := by
    intro r chunk idx hchunk
    obtain ⟨hpc, hframe⟩ := setReader_frame (s.setChunk idx chunk) r hne
    have hset : SamePosition i s (s.setChunk idx chunk) := by
      refine .ofChunk rfl rfl fun hflag => ?_
      rw [hchunk, update_of_ne hne] at hflag
      exact hflag
    exact ⟨hpc, hset.trans hframe⟩
  unfold readerStep at hstep
  dsimp only at hstep
  split at hstep
  · cases hstep
  · cases hstep
    exact setReader_frame s _ hne
  · split at hstep <;> cases hstep <;> exact setReader_frame s _ hne
  · split at hstep <;> cases hstep <;> exact setReader_frame s _ hne
  · split at hstep <;> cases hstep <;> exact setReader_frame s _ hne
  · split at hstep <;> cases hstep <;> exact hmark _ _ _ rfl
  · split at hstep
    · cases hstep
    · split at hstep <;> cases hstep <;> exact setReader_frame s _ hne
  · cases hstep

/-- A call of a reader that ends early goes back to the place between the calls. -/
theorem leaveRing_eq_some (hstep : leaveRing i s = some t) :
    (s.readers i).pc.waiting = true ∧ t = s.setReader i { s.readers i with pc := .idle } := by
  unfold leaveRing at hstep
  dsimp only at hstep
  split at hstep
  · rename_i readFlag hpc
    split at hstep
    · exact ⟨by rw [hpc]; rfl, (some.inj hstep).symm⟩
    · cases hstep
  · cases hstep

theorem readTimeout_eq_some (hstep : readTimeout i s = some t) :
    t = s.setReader i { s.readers i with pc := .idle } := by
  unfold readTimeout at hstep
  split at hstep
  · exact (some.inj hstep).symm
  · exact (leaveRing_eq_some hstep).2

/-- A step that does not belong to a call of the reader does not move it. -/
theorem TimedStep.frame (hstep : TimedStep cfg pickle s event t) (hother : event.reader? ≠ some i) :
    (t.readers i).pc = (s.readers i).pc ∧ SamePosition i s t := by
  have hne : ∀ {j}, event.reader? = some j → i ≠ j := fun hj heq => hother (heq ▸ hj)
  unfold TimedStep timedStep at hstep
  cases event with
  | step event =>
    unfold step at hstep
    cases event with
    | enqueue obj =>
      dsimp only at hstep
      split at hstep
      · cases hstep
        exact ⟨rfl, .ofEq rfl rfl⟩
      · cases hstep
    | write => exact writerStep_frame hstep i
    | dequeue j =>
      dsimp only at hstep
      split at hstep
      · split at hstep
        · cases hstep
          exact setReader_frame s _ (hne rfl)
        · cases hstep
      · cases hstep
    | read j =>
      dsimp only at hstep
      split at hstep
      · exact readerStep_frame (hne rfl) hstep
      · cases hstep
  | writeTimeout =>
    dsimp only at hstep
    unfold writeTimeout at hstep
    split at hstep
    · split at hstep
      · cases hstep
        exact ⟨rfl, .ofEq rfl rfl⟩
      · cases hstep
    · cases hstep
  | readTimeout j =>
    dsimp only at hstep
    split at hstep
    · rw [readTimeout_eq_some hstep]
      exact setReader_frame s _ (hne rfl)
    · cases hstep
  | readCancelled j =>
    dsimp only at hstep
    split at hstep
    · rw [(leaveRing_eq_some hstep).2]
      exact setReader_frame s _ (hne rfl)
    · cases hstep

/-- A reader that waits for its chunk changes nothing. -/
theorem readerStep_of_waiting (hwaits : (s.readers i).pc.waiting = true)
    (hstep : readerStep cfg pickle i s = some t) :
    t = s.setReader i { s.readers i with pc := (t.readers i).pc } := by
  have hplace : ∀ pc : ReaderPc α, some (s.setReader i { s.readers i with pc }) = some t →
      t = s.setReader i { s.readers i with pc := (t.readers i).pc } := by
    intro pc heq
    cases heq
    rw [State.setReader_readers, update_self]
  unfold readerStep at hstep
  dsimp only at hstep
  cases hpc : (s.readers i).pc with
  | checking =>
    rw [hpc] at hstep
    exact hplace _ hstep
  | checked readFlag =>
    rw [hpc] at hstep
    dsimp only at hstep
    split at hstep <;> exact hplace _ hstep
  | _ =>
    rw [hpc] at hwaits
    cases hwaits

/-- A reader that has found its chunk does not go back to wait for it. -/
theorem readerStep_of_not_waiting (hpast : (s.readers i).pc.waiting = false)
    (hstep : readerStep cfg pickle i s = some t) : (t.readers i).pc.waiting = false := by
  have hplace : ∀ (s' : State α) (r : Reader α), r.pc.waiting = false →
      some (s'.setReader i r) = some t → (t.readers i).pc.waiting = false := by
    intro s' r hr heq
    cases heq
    rw [State.setReader_readers, update_self]
    exact hr
  unfold readerStep at hstep
  dsimp only at hstep
  cases hpc : (s.readers i).pc with
  | checking =>
    rw [hpc] at hpast
    cases hpast
  | checked readFlag =>
    rw [hpc] at hpast
    cases hpast
  | opening =>
    rw [hpc] at hstep
    dsimp only at hstep
    split at hstep <;> exact hplace _ _ rfl hstep
  | loading =>
    rw [hpc] at hstep
    dsimp only at hstep
    split at hstep <;> exact hplace _ _ rfl hstep
  | marking loaded =>
    rw [hpc] at hstep
    cases loaded <;> exact hplace _ _ rfl hstep
  | receiving =>
    rw [hpc] at hstep
    dsimp only at hstep
    split at hstep
    · cases hstep
    · split at hstep <;> exact hplace _ _ rfl hstep
  | idle =>
    rw [hpc] at hstep
    cases hstep
  | crashed =>
    rw [hpc] at hstep
    cases hstep

/-- A reader that waits for its chunk after a step of its call has waited for it before, and has
changed nothing. -/
theorem TimedStep.waiting (hstep : TimedStep cfg pickle s event t)
    (hcall : event ≠ .step (.dequeue i)) (hwaits : (t.readers i).pc.waiting = true) :
    (s.readers i).pc.waiting = true ∧ IdleStep cfg pickle i s event t := by
  by_cases hreader : event.reader? = some i
  · have hidle : t ≠ s.setReader i { s.readers i with pc := .idle } := by
      intro heq
      rw [heq, State.setReader_readers, update_self] at hwaits
      cases hwaits
    have hall := hstep
    unfold TimedStep timedStep at hall
    cases event with
    | step event =>
      cases event with
      | dequeue j =>
        obtain rfl := some.inj hreader
        exact absurd rfl hcall
      | read j =>
        obtain rfl := some.inj hreader
        dsimp only [step] at hall
        split at hall
        · cases hbefore : (s.readers j).pc.waiting with
          | true => exact ⟨rfl, hstep, fun _ => readerStep_of_waiting hbefore hall⟩
          | false =>
            rw [readerStep_of_not_waiting hbefore hall] at hwaits
            cases hwaits
        · cases hall
      | _ => cases hreader
    | readTimeout j =>
      obtain rfl := some.inj hreader
      dsimp only at hall
      split at hall
      · exact (hidle (readTimeout_eq_some hall)).elim
      · cases hall
    | readCancelled j =>
      obtain rfl := some.inj hreader
      dsimp only at hall
      split at hall
      · exact (hidle (leaveRing_eq_some hall).2).elim
      · cases hall
    | writeTimeout => cases hreader
  · obtain ⟨hpc, -⟩ := hstep.frame hreader
    refine ⟨hpc ▸ hwaits, hstep, fun heq => ?_⟩
    rw [heq] at hreader
    exact absurd rfl hreader

theorem IdleStep.samePosition (h : IdleStep cfg pickle i s event t) : SamePosition i s t := by
  obtain ⟨hstep, hidle⟩ := h
  by_cases hreader : event.reader? = some i
  · have hall := hstep
    unfold TimedStep timedStep at hall
    cases event with
    | step event =>
      cases event with
      | dequeue j =>
        obtain rfl := some.inj hreader
        dsimp only [step] at hall
        split at hall
        · split at hall
          · obtain rfl := some.inj hall
            exact .setPc s j _
          · cases hall
        · cases hall
      | read j =>
        obtain rfl := some.inj hreader
        rw [hidle rfl]
        exact .setPc s j _
      | _ => cases hreader
    | readTimeout j =>
      obtain rfl := some.inj hreader
      dsimp only at hall
      split at hall
      · rw [readTimeout_eq_some hall]
        exact .setPc s j _
      · cases hall
    | readCancelled j =>
      obtain rfl := some.inj hreader
      dsimp only at hall
      split at hall
      · rw [(leaveRing_eq_some hall).2]
        exact .setPc s j _
      · cases hall
    | writeTimeout => cases hreader
  · exact (hstep.frame hreader).2

end Frames

/-! ### Runs -/

section Runs

variable {s t u : State α} {i : ℕ} {events : List (TimedEvent α)}

/-- A call that still waits for its chunk has changed nothing. -/
theorem idle_of_waiting (call : Execution (TimedStep cfg pickle) s events t)
    (hcall : .step (.dequeue i) ∉ events) (hwaits : (t.readers i).pc.waiting = true) :
    Execution (IdleStep cfg pickle i) s events t := by
  induction call with
  | start => exact .start
  | extend call hstep ih =>
    rw [mem_append, mem_singleton, not_or] at hcall
    obtain ⟨hbefore, hidle⟩ := hstep.waiting (Ne.symm hcall.2) hwaits
    exact (ih hcall.1 hbefore).extend hidle

theorem samePosition_of_idle (run : Execution (IdleStep cfg pickle i) s events t) :
    SamePosition i s t := by
  induction run with
  | start => exact .ofEq rfl rfl
  | extend run hidle ih => exact ih.trans hidle.samePosition

theorem accepted_concat (events : List (TimedEvent α)) (event : TimedEvent α) :
    accepted (events ++ [event]) = event.accept (accepted events) :=
  foldl_append

/-- What was given to `enqueue` and not taken back. -/
theorem enqueued_of_timed (run : Execution (TimedStep cfg pickle) (.new cfg) events s) :
    s.enqueued = accepted events := by
  induction run with
  | start => rfl
  | @extend events t u event run hstep ih =>
    rw [accepted_concat, ← ih]
    unfold TimedStep timedStep at hstep
    cases event with
    | step event => exact Step.enqueued hstep
    | writeTimeout =>
      dsimp only [writeTimeout] at hstep
      split at hstep
      · split at hstep
        · cases hstep
          rfl
        · cases hstep
      · cases hstep
    | readTimeout j =>
      dsimp only at hstep
      split at hstep
      · rw [readTimeout_eq_some hstep]
        rfl
      · cases hstep
    | readCancelled j =>
      dsimp only at hstep
      split at hstep
      · rw [(leaveRing_eq_some hstep).2]
        rfl
      · cases hstep

theorem timed_of_inTime (run : Execution (InTimeStep cfg pickle) s events t) :
    Execution (TimedStep cfg pickle) s events t := by
  induction run with
  | start => exact .start
  | extend run hstep ih => exact ih.extend hstep.2

/-- Each reader returns the objects in order, whatever calls run out of time at the ring. -/
theorem fifo_of_timed (run : Execution (InTimeStep cfg pickle) (.new cfg) events s)
    (hi : i < cfg.nReader) : (s.readers i).dequeued <+: accepted events := by
  have h : Consistent cfg pickle s :=
    run.preserves (fun _ _ _ h hstep => hstep.consistent h) (consistent_new cfg pickle)
  rw [← enqueued_of_timed (timed_of_inTime run), (h.readers i hi).taken]
  exact take_prefix _ _

/-- A call of `dequeue` that runs out of time has consumed nothing, if no call runs out of time at
the socket: each step of the reader in it changes only its place in `dequeue`, it stays where it is
in the queue, and what it has returned at any later time are the first objects of the queue. -/
theorem consumes_nothing_of_run {before during later : List (TimedEvent α)}
    (run : Execution (InTimeStep cfg pickle) (.new cfg) before s)
    (call : Execution (InTimeStep cfg pickle) s
      (.step (.dequeue i) :: during ++ [.readTimeout i]) t)
    (hcall : .step (.dequeue i) ∉ during)
    (rest : Execution (InTimeStep cfg pickle) t later u) :
    Execution (IdleStep cfg pickle i) s (.step (.dequeue i) :: during ++ [.readTimeout i]) t ∧
      SamePosition i s t ∧
      (u.readers i).dequeued <+:
        accepted (before ++ (.step (.dequeue i) :: during ++ [.readTimeout i]) ++ later) := by
  obtain ⟨t', hduring, hintime, hlast⟩ := Execution.concat_iff.mp call
  obtain ⟨_, hfirst, hwait⟩ := Execution.append_iff.mp
    (show Execution (InTimeStep cfg pickle) s ([.step (.dequeue i)] ++ during) t' from hduring)
  obtain ⟨-, hbegin⟩ := Execution.single_iff.mp hfirst
  have hend := hlast
  unfold TimedStep timedStep at hend
  dsimp only at hend
  split at hend
  · rename_i hi
    rw [readTimeout_of_ne hintime] at hend
    -- it gives up where it waits for its chunk, so it was there all the time
    have hidle : Execution (IdleStep cfg pickle i) s
        (.step (.dequeue i) :: during ++ [.readTimeout i]) t :=
      ((Execution.single ⟨hbegin, nofun⟩).append
        (idle_of_waiting (timed_of_inTime hwait) hcall (leaveRing_eq_some hend).1)).extend
          ⟨hlast, nofun⟩
    exact ⟨hidle, samePosition_of_idle hidle, fifo_of_timed ((run.append call).append rest) hi⟩
  · cases hend

/-! ### Objects that all fit -/

theorem mem_of_mem_accepted {obj : α} (hobj : obj ∈ accepted events) :
    .step (.enqueue obj) ∈ events := by
  induction events using List.reverseRecOn with
  | nil => cases hobj
  | append_singleton events event ih =>
    rw [accepted_concat] at hobj
    rw [mem_append, mem_singleton]
    cases event with
    | step event =>
      rcases mem_append.mp hobj with hbefore | hnew
      · exact .inl (ih hbefore)
      · cases event with
        | enqueue obj' =>
          obtain rfl := mem_singleton.mp hnew
          exact .inr rfl
        | _ => cases hnew
    | writeTimeout => exact .inl (ih (dropLast_subset _ hobj))
    | _ => exact .inl (ih hobj)

/-- Nobody waits at the socket while all objects fit into the chunks. -/
theorem inTime_of_fits (run : Execution (TimedStep cfg pickle) (.new cfg) events s)
    (hfits : ∀ obj, .step (.enqueue obj) ∈ events → ¬Overflows cfg pickle obj) :
    Execution (InTimeStep cfg pickle) (.new cfg) events s := by
  induction run with
  | start => exact .start
  | @extend events t u event run hstep ih =>
    have hrun := ih fun obj hobj => hfits obj (mem_append_left _ hobj)
    refine hrun.extend ⟨?_, hstep⟩
    cases event with
    | readTimeout i =>
      intro hpc
      have h : Consistent cfg pickle t :=
        hrun.preserves (fun _ _ _ h hstep => hstep.consistent h) (consistent_new cfg pickle)
      unfold TimedStep timedStep at hstep
      dsimp only at hstep
      split at hstep
      · rename_i hi
        have hreader := (h.readers i hi).pc
        rw [hpc] at hreader
        -- what the reader waits for is an object of the run
        obtain ⟨obj, hobj, hover⟩ := hreader
        rw [enqueued_of_timed run] at hobj
        exact hfits obj (mem_append_left _ (mem_of_mem_accepted (mem_of_getElem? hobj)))
          hover
      · cases hstep
    | _ => trivial

end Runs

section Example

/-- A ring with two chunks of two bytes, and one reader. -/
def oneReader : RingConfig where
  nReader := 1
  maxChunkBytes := 2
  maxChunks := 2
  maxChunkBytes_pos := Nat.two_pos
  maxChunks_pos := Nat.two_pos

/-- An object that is too large is announced. -/
def announced : List (TimedEvent Bool) :=
  .step (.enqueue false) :: List.replicate 6 (.step .write)

/-- The reader goes to the socket before the object is sent, and waits there. -/
def waitsAtSocket : List (TimedEvent Bool) :=
  List.replicate 4 (.step (.read 0))

/-- The object is sent, then one that fits is published, and the reader calls `dequeue` again. -/
def sentTooLate : List (TimedEvent Bool) :=
  .step .write :: .step (.enqueue true) :: List.replicate 7 (.step .write) ++
  .step (.dequeue 0) :: List.replicate 5 (.step (.read 0))

/-- The next call does not return the object that the reader waited for. -/
theorem not_consumes_nothing : ¬ ∀ (α : Type) (cfg : RingConfig) (pickle : Pickle α) (i : ℕ)
    (before during later : List (TimedEvent α)) (s t u : State α),
      Execution (TimedStep cfg pickle) (.new cfg) before s →
      Execution (TimedStep cfg pickle) s
        (.step (.dequeue i) :: during ++ [.readTimeout i]) t →
      .step (.dequeue i) ∉ during →
      Execution (TimedStep cfg pickle) t later u →
      SamePosition i s t ∧ (u.readers i).dequeued <+:
        accepted (before ++ (.step (.dequeue i) :: during ++ [.readTimeout i]) ++ later) := by
  intro h
  let call : List (TimedEvent Bool) := .step (.dequeue 0) :: waitsAtSocket ++ [.readTimeout 0]
  have hall : ((announced ++ call ++ sentTooLate).foldlM (timedStep oneReader boolPickle)
      (.new oneReader)).map (fun s : State Bool => (s.readers 0).dequeued) = some [true] := by
    decide +kernel
  obtain ⟨u, hu, hdequeued⟩ := map_eq_some_iff.mp hall
  have run : Execution (TimedStep oneReader boolPickle) (.new oneReader)
      (announced ++ call ++ sentTooLate) u := .of_foldlM (fun _ _ _ hstep => hstep) hu
  obtain ⟨t, hbefore, hlater⟩ := Execution.append_iff.mp run
  obtain ⟨s, hfirst, hcall⟩ := Execution.append_iff.mp hbefore
  obtain ⟨-, hprefix⟩ := h Bool oneReader boolPickle 0 announced waitsAtSocket sentTooLate s t u
    hfirst hcall (by simp [waitsAtSocket]) hlater
  have haccepted : accepted (announced ++ call ++ sentTooLate) = [false, true] := by decide
  rw [hdequeued, haccepted] at hprefix
  exact absurd hprefix (by decide)

/-- A reader that has waited in vain for its chunk returns the next object. -/
theorem consumes_nothing_one_reader : ∃ s t u : State Bool,
    Execution (TimedStep oneReader boolPickle) s
      [.step (.dequeue 0), .step (.read 0), .readTimeout 0] t ∧
    SamePosition 0 s t ∧ (u.readers 0).dequeued = [true] ∧ (u.readers 0).dequeued <+: [true] := by
  let call : List (TimedEvent Bool) :=
    .step (.dequeue 0) :: [.step (.read 0)] ++ [.readTimeout 0]
  let later : List (TimedEvent Bool) :=
    .step (.enqueue true) :: List.replicate 7 (.step .write) ++
      .step (.dequeue 0) :: List.replicate 5 (.step (.read 0))
  have hall : (([] ++ call ++ later).foldlM (timedStep oneReader boolPickle)
      (.new oneReader)).map (fun s : State Bool => (s.readers 0).dequeued) = some [true] := by
    decide +kernel
  obtain ⟨u, hu, hdequeued⟩ := map_eq_some_iff.mp hall
  have run : Execution (TimedStep oneReader boolPickle) (.new oneReader)
      ([] ++ call ++ later) u := .of_foldlM (fun _ _ _ hstep => hstep) hu
  have hrun : Execution (InTimeStep oneReader boolPickle) (.new oneReader)
      ([] ++ call ++ later) u := by
    refine inTime_of_fits run fun obj hobj => ?_
    cases obj with
    | true => decide
    | false => simp [call, later] at hobj
  obtain ⟨t, hbefore, hlater⟩ := Execution.append_iff.mp hrun
  obtain ⟨s, hfirst, hcall⟩ := Execution.append_iff.mp hbefore
  obtain ⟨-, hsame, hprefix⟩ := consumes_nothing_of_run hfirst hcall (by simp) hlater
  exact ⟨s, t, u, timed_of_inTime hcall, hsame, hdequeued, hprefix⟩

end Example

end Broadcast
