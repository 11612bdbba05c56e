import Mosaic.Cache.Lru
import Mosaic.Frontend.ParentRequest
import Mathlib.Data.Finset.Erase

/-!
# The caches of multimodal inputs

The engine keeps the multimodal items that it was sent, so that an item need not be sent again. The
front end does not ask the engine what it has: it keeps a cache of its own with the sizes of the
items, updates it in the same way, and sends nothing in place of an item that it finds there. Its
cache is updated when a call is preprocessed, that of the engine when a request arrives. Between
the two the call may be refused or cancelled, and a call for several samples sends its request
several times.
-/

namespace Multimodal

open Lru

/-- What the front end keeps of an item. -/
structure CacheItemMetadata where
  size : ℕ
  deriving DecidableEq

inductive Fault where
  | valueError
  | keyError
  deriving DecidableEq, Repr

/-- The caches of both sides. An item is determined by its hash. -/
structure Config (H V : Type) where
  enabled : Bool
  policy : Policy
  getItemSize : V → ℕ
  content : H → V

variable {H V W : Type} [DecidableEq H]

namespace Config

variable (cfg : Config H V)

def wraps (item : V) : CacheItemMetadata := ⟨cfg.getItemSize item⟩

/-- The update of the front end, item by item: what to send of each of them. If an item is too
large, then the items before it stay in the cache. -/
def visit : List H → Cache H CacheItemMetadata →
    Except Fault (List (Option V)) × Cache H CacheItemMetadata
  | [], c => (.ok [], c)
  | h :: rest, c =>
    match c.get h with
    | some (_, c) =>
      let (sent, c) := visit rest c
      (sent.map (none :: ·), c)
    | none =>
      match c.set cfg.policy CacheItemMetadata.size h (cfg.wraps (cfg.content h)) with
      | none => (.error .valueError, c)
      | some c =>
        let (sent, c) := visit rest c
        (sent.map (some (cfg.content h) :: ·), c)

/-- `get_and_update` of the front end. -/
def clientGetAndUpdate (hashes : List H) (c : Cache H CacheItemMetadata) :
    Except Fault (List (Option V)) × Cache H CacheItemMetadata :=
  if cfg.enabled then cfg.visit hashes c
  else (.ok (hashes.map fun h => some (cfg.content h)), c)

end Config

/-- One item at the engine: it is stored if it was sent, and looked up otherwise. -/
def receive (p : Policy) (size : W → ℕ) (h : H) (sent : Option W) (c : Cache H W) :
    Except Fault (W × Cache H W) :=
  match sent with
  | none => (c.get h).elim (.error .keyError) .ok
  | some w => (c.set p size h w).elim (.error .valueError) fun c => .ok (w, c)

/-- The update of the engine, item by item. -/
def receiveAll (p : Policy) (size : W → ℕ) :
    List (H × Option W) → Cache H W → Except Fault (List W × Cache H W)
  | [], c => .ok ([], c)
  | (h, sent) :: rest, c => do
    let (item, c) ← receive p size h sent c
    let (items, c) ← receiveAll p size rest c
    return (item :: items, c)

/-- A request in the channel: the hashes of its items, with the items that are sent. -/
structure Message (H V : Type) where
  items : List (H × Option V)

/-- `get_and_update` of the engine. If the caches are off, then all items were sent. -/
def Config.serverGetAndUpdate (cfg : Config H V) (m : Message H V) (c : Cache H V) :
    Except Fault (List V × Cache H V) :=
  if cfg.enabled then receiveAll cfg.policy cfg.getItemSize m.items c
  else .ok (m.items.filterMap Prod.snd, c)

/-- A call for several samples of which more children are to be sent. -/
structure PendingCall (H V : Type) where
  requestId : String
  message : Message H V
  next : ℕ
  n : ℕ

/-- A front end with the requests that it knows and the calls in progress, the channel to the
engine, and the engine's cache. -/
structure System (H V : Type) where
  client : Cache H CacheItemMetadata
  requestStates : Finset String
  calls : List (PendingCall H V)
  channel : List (Message H V)
  server : Cache H V

/-- What may happen: a call is preprocessed and sends its first request, another child of a call is
sent, a call ends, a request is finished, the engine takes a request out of the channel. What is
cancelled at its send is not delivered. -/
inductive Event (H : Type) where
  | call (requestId : String) (n : ℕ) (hashes : List H) (cancelled : Bool)
  | child (index : ℕ) (cancelled : Bool)
  | callEnds (index : ℕ)
  | finished (requestId : String)
  | engine

namespace System

def init : System H V := ⟨.empty, ∅, [], [], .empty⟩

/-- The id of the first request of a call. -/
def firstId (requestId : String) (n : ℕ) : String :=
  if n = 1 then requestId else Frontend.childRequestId 0 requestId

/-- A call up to its first send. The cache is updated before the output processor refuses an id
that is in use. -/
def addRequest (cfg : Config H V) (s : System H V) (requestId : String) (n : ℕ) (hashes : List H)
    (cancelled : Bool) : System H V :=
  let (sent, client) := cfg.clientGetAndUpdate hashes s.client
  let s := { s with client }
  match sent with
  | .error _ => s
  | .ok sent =>
    if firstId requestId n ∈ s.requestStates then s
    else
      let s := { s with requestStates := insert (firstId requestId n) s.requestStates }
      if cancelled then s
      else
        let message := ⟨hashes.zip sent⟩
        { s with
          channel := s.channel ++ [message]
          calls := s.calls ++ [⟨requestId, message, 1, n⟩] }

/-- Send the next child of a call. -/
def sendChild (s : System H V) (call : PendingCall H V) (index : ℕ) (cancelled : Bool) :
    System H V :=
  let id := Frontend.childRequestId call.next call.requestId
  if id ∈ s.requestStates then { s with calls := s.calls.eraseIdx index }
  else
    let s := { s with requestStates := insert id s.requestStates }
    if cancelled then { s with calls := s.calls.eraseIdx index }
    else
      { s with
        calls := s.calls.set index { call with next := call.next + 1 }
        channel := s.channel ++ [call.message] }

def step (cfg : Config H V) (s : System H V) : Event H → Option (System H V)
  | .call requestId n hashes cancelled =>
    if 0 < n then some (s.addRequest cfg requestId n hashes cancelled) else none
  | .child index cancelled =>
    match s.calls[index]? with
    | none => none
    | some call => if call.next < call.n then some (s.sendChild call index cancelled) else none
  | .callEnds index => some { s with calls := s.calls.eraseIdx index }
  | .finished requestId => some { s with requestStates := s.requestStates.erase requestId }
  | .engine =>
    match s.channel with
    | [] => none
    | m :: channel =>
      match cfg.serverGetAndUpdate m s.server with
      | .error _ => none
      | .ok (_, server) => some { s with channel, server }

end System

end Multimodal
