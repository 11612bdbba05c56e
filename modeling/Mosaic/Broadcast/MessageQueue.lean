import Mosaic.Transition.Execution
import Mathlib.Logic.Function.Basic

/-!
# Broadcast through shared memory

One writer sends objects to the readers on its machine through a ring of chunks in shared memory.
Every chunk has a flag that it is written, and a flag for each reader that it is read. An object
that does not fit into a chunk is announced in the ring and sent over a socket.

Every access to a flag and every copy of data is a step of its own, so the steps of the writer and
of the readers can be interleaved in every way.
-/

namespace Broadcast

open Function

/-- The sizes of a ring buffer. -/
structure RingConfig where
  nReader : ℕ
  maxChunkBytes : ℕ
  maxChunks : ℕ
  maxChunkBytes_pos : 0 < maxChunkBytes
  maxChunks_pos : 0 < maxChunks

/-- Serialization. The serialized form shows where it ends, so what follows it does not matter. -/
structure Pickle (α : Type) where
  dumps : α → List UInt8
  loads : List UInt8 → Option α
  loads_dumps : ∀ obj rest, loads (dumps obj ++ rest) = some obj

/-- A chunk of the ring: the bytes of its metadata, as flags, and its data. -/
structure Chunk where
  written : Bool
  readFlag : ℕ → Bool
  data : List UInt8

/-- Where the writer is in `enqueue`: it sums up the flags of the readers, reads the written flag
and perhaps tries again, resets the written flag, writes the data, resets the flags of the
readers, sets the written flag, and sends an object that is too large. -/
inductive WriterPc (α : Type) where
  | idle
  | counting (obj : α) (i readCount : ℕ)
  | resetting (obj : α)
  | writingHeader (obj : α)
  | writingPayload (obj : α)
  | clearing (obj : α) (i : ℕ)
  | sending (obj : α)

/-- Where a reader is in `dequeue`: it reads its own flag and the written flag and perhaps tries
again, reads the data, sets its flag, and receives an object that is too large. -/
inductive ReaderPc (α : Type) where
  | idle
  | checking
  | checked (readFlag : Bool)
  | opening
  | loading
  | marking (loaded : Option α)
  | receiving
  | crashed
  deriving DecidableEq

/-- A reader, with what arrived for it at the socket and what it has returned so far. -/
structure Reader (α : Type) where
  pc : ReaderPc α
  currentIdx : ℕ
  socket : List (List UInt8)
  dequeued : List α

/-- The shared memory, the writer, the readers, and the objects that were given to `enqueue`. -/
structure State (α : Type) where
  chunks : ℕ → Chunk
  writer : WriterPc α
  currentIdx : ℕ
  readers : ℕ → Reader α
  enqueued : List α

variable {α : Type}

/-- All flags are 0 in the beginning, and all readers are connected. -/
def State.new (cfg : RingConfig) : State α where
  chunks _ := ⟨false, fun _ => false, List.replicate cfg.maxChunkBytes 0⟩
  writer := .idle
  currentIdx := 0
  readers _ := ⟨.idle, 0, [], []⟩
  enqueued := []

namespace State

def setChunk (s : State α) (idx : ℕ) (chunk : Chunk) : State α :=
  { s with chunks := update s.chunks idx chunk }

def setReader (s : State α) (i : ℕ) (r : Reader α) : State α :=
  { s with readers := update s.readers i r }

@[simp] theorem setChunk_chunks (s : State α) (idx : ℕ) (chunk : Chunk) :
    (s.setChunk idx chunk).chunks = update s.chunks idx chunk := rfl

@[simp] theorem setReader_readers (s : State α) (i : ℕ) (r : Reader α) :
    (s.setReader i r).readers = update s.readers i r := rfl

end State

/-- The object does not fit into a chunk behind the header. -/
def Overflows (cfg : RingConfig) (pickle : Pickle α) (obj : α) : Prop :=
  cfg.maxChunkBytes ≤ (pickle.dumps obj).length

instance (cfg : RingConfig) (pickle : Pickle α) : DecidablePred (Overflows cfg pickle) :=
  fun _ => inferInstanceAs (Decidable (_ ≤ _))

/-- Copy bytes into a buffer: `buf[start:start + len(bytes)] = bytes`. -/
def writeSlice (buf : List UInt8) (start : ℕ) (bytes : List UInt8) : List UInt8 :=
  buf.take start ++ bytes ++ buf.drop (start + bytes.length)

/-- The next step of the writer. -/
def writerStep (cfg : RingConfig) (pickle : Pickle α) (s : State α) : Option (State α) :=
  let chunk := s.chunks s.currentIdx
  match s.writer with
  | .idle => none
  | .counting obj i readCount =>
    if i < cfg.nReader then
      let readCount' := if chunk.readFlag i then readCount + 1 else readCount
      some { s with writer := .counting obj (i + 1) readCount' }
    else if chunk.written = true ∧ readCount ≠ cfg.nReader then
      some { s with writer := .counting obj 0 0 }
    else
      some { s with writer := .resetting obj }
  | .resetting obj =>
    some { s.setChunk s.currentIdx { chunk with written := false } with
      writer := .writingHeader obj }
  | .writingHeader obj =>
    if Overflows cfg pickle obj then
      some { s.setChunk s.currentIdx { chunk with data := chunk.data.set 0 1 } with
        writer := .clearing obj 0 }
    else
      some { s.setChunk s.currentIdx { chunk with data := chunk.data.set 0 0 } with
        writer := .writingPayload obj }
  | .writingPayload obj =>
    let data := writeSlice chunk.data 1 (pickle.dumps obj)
    some { s.setChunk s.currentIdx { chunk with data } with writer := .clearing obj 0 }
  | .clearing obj i =>
    if i < cfg.nReader then
      let readFlag := update chunk.readFlag i false
      some { s.setChunk s.currentIdx { chunk with readFlag } with writer := .clearing obj (i + 1) }
    else
      some { s.setChunk s.currentIdx { chunk with written := true } with
        currentIdx := (s.currentIdx + 1) % cfg.maxChunks
        writer := if Overflows cfg pickle obj then .sending obj else .idle }
  | .sending obj =>
    some { s with
      readers := fun i =>
        { s.readers i with socket := (s.readers i).socket ++ [pickle.dumps obj] }
      writer := .idle }

/-- The next step of reader `i`. It may have to wait for the socket. -/
def readerStep (cfg : RingConfig) (pickle : Pickle α) (i : ℕ) (s : State α) : Option (State α) :=
  let r := s.readers i
  let chunk := s.chunks r.currentIdx
  match r.pc with
  | .idle => none
  | .checking => some (s.setReader i { r with pc := .checked (chunk.readFlag i) })
  | .checked readFlag =>
    if chunk.written = false ∨ readFlag = true then
      some (s.setReader i { r with pc := .checking })
    else
      some (s.setReader i { r with pc := .opening })
  | .opening =>
    if chunk.data.head? = some 1 then
      some (s.setReader i { r with pc := .marking none })
    else
      some (s.setReader i { r with pc := .loading })
  | .loading =>
    match pickle.loads (chunk.data.drop 1) with
    | none => some (s.setReader i { r with pc := .crashed })
    | some obj => some (s.setReader i { r with pc := .marking (some obj) })
  | .marking loaded =>
    let marked := s.setChunk r.currentIdx
      { chunk with readFlag := update chunk.readFlag i true }
    let r' := { r with currentIdx := (r.currentIdx + 1) % cfg.maxChunks }
    match loaded with
    | none => some (marked.setReader i { r' with pc := .receiving })
    | some obj => some (marked.setReader i { r' with pc := .idle, dequeued := r.dequeued ++ [obj] })
  | .receiving =>
    match r.socket with
    | [] => none
    | bytes :: rest =>
      match pickle.loads bytes with
      | none => some (s.setReader i { r with pc := .crashed })
      | some obj =>
        some (s.setReader i { r with pc := .idle, socket := rest, dequeued := r.dequeued ++ [obj] })
  | .crashed => none

/-- What the processes do: call `enqueue` or `dequeue`, or make the next step of a call. -/
inductive Event (α : Type) where
  | enqueue (obj : α)
  | write
  | dequeue (i : ℕ)
  | read (i : ℕ)

def step (cfg : RingConfig) (pickle : Pickle α) (s : State α) : Event α → Option (State α)
  | .enqueue obj =>
    match s.writer with
    | .idle => some { s with writer := .counting obj 0 0, enqueued := s.enqueued ++ [obj] }
    | _ => none
  | .write => writerStep cfg pickle s
  | .dequeue i =>
    match (s.readers i).pc with
    | .idle => if i < cfg.nReader then
        some (s.setReader i { s.readers i with pc := .checking })
      else none
    | _ => none
  | .read i => if i < cfg.nReader then readerStep cfg pickle i s else none

def Step (cfg : RingConfig) (pickle : Pickle α) (s : State α) (event : Event α) (t : State α) :
    Prop :=
  step cfg pickle s event = some t

end Broadcast
