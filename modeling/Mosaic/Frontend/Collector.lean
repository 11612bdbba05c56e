import Mosaic.Frontend.Outputs
import Mosaic.Transition.Execution

/-!
# The collector between the output handler and the consumer of a request

The output handler puts outputs in, the consumer takes them out. At most one output is pending: an
output that is put in while another one is pending is merged into it. A consumer that finds nothing
waits on an event, which is set iff an output is pending.
-/

open Transition (Execution)

namespace Frontend

open List

variable {ρ κ : Type}

/-- The pending output, and the event that a consumer waits on. -/
structure RequestOutputCollector (ρ κ : Type) where
  aggregate : Bool
  output : Option (RequestOutput ρ κ)
  ready : Bool
  deriving DecidableEq

namespace RequestOutputCollector

def new (outputKind : RequestOutputKind) : RequestOutputCollector ρ κ where
  aggregate := outputKind == .delta
  output := none
  ready := false

/-- Put an output in. The event is not set again for an output that is merged. -/
def put (c : RequestOutputCollector ρ κ) (output : RequestOutput ρ κ) :
    Except Fault (RequestOutputCollector ρ κ) :=
  match c.output with
  | none => return { c with output := some output, ready := true }
  | some pending => do
    let merged ← pending.add output c.aggregate
    return { c with output := some merged }

/-- One look at the collector: `get_nowait`, and each pass of the loop of `get`. -/
def take (c : RequestOutputCollector ρ κ) :
    Option (RequestOutput ρ κ) × RequestOutputCollector ρ κ :=
  match c.output with
  | none => (none, c)
  | some output => (some output, { c with output := none, ready := false })

end RequestOutputCollector

/-- Where the consumer is: outside of the collector, suspended on the event, or in the loop of
`get` after the event was set. -/
inductive Consumer where
  | outside
  | waiting
  | woken
  deriving DecidableEq, Repr

/-- Setting the event wakes the consumer. -/
def Consumer.notify (ready : Bool) : Consumer → Consumer
  | .waiting => if ready then .woken else .waiting
  | consumer => consumer

/-- A collector with its consumer. -/
structure Session (ρ κ : Type) where
  collector : RequestOutputCollector ρ κ
  consumer : Consumer
  deriving DecidableEq

/-- What happens at a collector. The consumer obtains an output from `get` or `getNowait`, it may
find nothing, be suspended, or go around the loop of `get` again. -/
inductive SessionEvent (ρ κ : Type) where
  | put (output : RequestOutput ρ κ)
  | obtained (output : RequestOutput ρ κ)
  | nothing
  | suspended
  | again
  deriving DecidableEq

/-- The steps of the handler and of the consumer, each without an `await` in it. -/
inductive SessionStep : Session ρ κ → SessionEvent ρ κ → Session ρ κ → Prop where
  | put {s : Session ρ κ} {output : RequestOutput ρ κ} {c : RequestOutputCollector ρ κ}
      (hok : s.collector.put output = .ok c) :
      SessionStep s (.put output) ⟨c, s.consumer.notify c.ready⟩
  | get {s : Session ρ κ} {output : RequestOutput ρ κ} {c : RequestOutputCollector ρ κ}
      (active : s.consumer ≠ .waiting) (found : s.collector.take = (some output, c)) :
      SessionStep s (.obtained output) ⟨c, .outside⟩
  | getNowait {s : Session ρ κ} {c : RequestOutputCollector ρ κ} (active : s.consumer = .outside)
      (found : s.collector.take = (none, c)) : SessionStep s .nothing ⟨c, .outside⟩
  | wait {s : Session ρ κ} {c : RequestOutputCollector ρ κ} (active : s.consumer ≠ .waiting)
      (found : s.collector.take = (none, c)) (blocks : c.ready = false) :
      SessionStep s .suspended ⟨c, .waiting⟩
  | pass {s : Session ρ κ} {c : RequestOutputCollector ρ κ} (active : s.consumer ≠ .waiting)
      (found : s.collector.take = (none, c)) (passes : c.ready = true) :
      SessionStep s .again ⟨c, .woken⟩

/-- The session of a new request. -/
def Session.new (outputKind : RequestOutputKind) : Session ρ κ := ⟨.new outputKind, .outside⟩

/-- The output that an event puts in. -/
def SessionEvent.putIn : SessionEvent ρ κ → List (RequestOutput ρ κ)
  | .put output => [output]
  | _ => []

/-- The output that an event takes out. -/
def SessionEvent.takenOut : SessionEvent ρ κ → List (RequestOutput ρ κ)
  | .obtained output => [output]
  | _ => []

/-- The outputs that were put in, in order. -/
def puts (events : List (SessionEvent ρ κ)) : List (RequestOutput ρ κ) :=
  events.flatMap SessionEvent.putIn

/-- The outputs that the consumer obtained, in order. -/
def obtained (events : List (SessionEvent ρ κ)) : List (RequestOutput ρ κ) :=
  events.flatMap SessionEvent.takenOut

variable {asked : ℕ → Bool} {events : List (SessionEvent ρ κ)} {event : SessionEvent ρ κ}
  {s t : Session ρ κ} {c : RequestOutputCollector ρ κ} {o : RequestOutput ρ κ}

theorem puts_concat (events : List (SessionEvent ρ κ)) (event : SessionEvent ρ κ) :
    puts (events ++ [event]) = puts events ++ event.putIn := by
  simp [puts]

theorem obtained_concat (events : List (SessionEvent ρ κ)) (event : SessionEvent ρ κ) :
    obtained (events ++ [event]) = obtained events ++ event.takenOut := by
  simp [obtained]

namespace RequestOutputCollector

theorem take_eq_some {c' : RequestOutputCollector ρ κ} (h : c.take = (some o, c')) :
    c.output = some o ∧ c' = { c with output := none, ready := false } := by
  unfold take at h
  split at h
  · cases h
  · rename_i output houtput
    obtain ⟨h₁, h₂⟩ := Prod.mk.inj h
    exact ⟨houtput.trans h₁, h₂.symm⟩

theorem take_eq_none {c' : RequestOutputCollector ρ κ} (h : c.take = (none, c')) :
    c.output = none ∧ c' = c := by
  unfold take at h
  split at h
  · rename_i houtput
    exact ⟨houtput, (Prod.mk.inj h).2.symm⟩
  · cases h

/-- An output that fits is put in without an error. -/
theorem put_isOk (hkind : c.aggregate = true) (hpending : ∀ p, c.output = some p → p.Fits asked)
    (ho : o.Fits asked) : ∃ c', c.put o = .ok c' := by
  unfold put
  cases hout : c.output with
  | none => exact ⟨_, rfl⟩
  | some p =>
    obtain ⟨merged, hmerged, -⟩ := RequestOutput.add_fits (hpending p hout) ho
    exact ⟨_, Fallible.bind_eq_ok.mpr ⟨merged, by rw [hkind, hmerged], rfl⟩⟩

end RequestOutputCollector

/-- The outputs that were put in fall into groups: one for each output that the consumer obtained,
and one for the pending output. -/
structure Collected (asked : ℕ → Bool) (events : List (SessionEvent ρ κ)) (s : Session ρ κ)
    (groups : List (List (RequestOutput ρ κ))) (last : List (RequestOutput ρ κ)) : Prop where
  aggregate : s.collector.aggregate = true
  puts : puts events = groups.flatten ++ last
  obtained : List.Forall₂ RequestOutput.Merges groups (obtained events)
  empty : s.collector.output = none → last = []
  pending : ∀ o, s.collector.output = some o → o.Fits asked ∧ o.Merges last
  ready : s.collector.ready = s.collector.output.isSome
  awake : s.consumer = .waiting → s.collector.output = none

theorem collected_new :
    Collected asked ([] : List (SessionEvent ρ κ)) (Session.new .delta) [] [] where
  aggregate := rfl
  puts := rfl
  obtained := .nil
  empty _ := rfl
  pending := nofun
  ready := rfl
  awake := nofun

/-- After a notification the consumer waits only if the event is not set. -/
theorem Consumer.notify_eq_waiting {ready : Bool} {consumer : Consumer}
    (h : consumer.notify ready = .waiting) : ready = false := by
  cases consumer <;> cases ready <;> simp_all [notify]

variable {groups : List (List (RequestOutput ρ κ))} {last : List (RequestOutput ρ κ)}

/-- An output that is put in opens a group or extends the last one. -/
theorem Collected.put (h : Collected asked events s groups last) (ho : o.Fits asked)
    (hok : s.collector.put o = .ok c) :
    Collected asked (events ++ [.put o]) ⟨c, s.consumer.notify c.ready⟩ groups (last ++ [o]) := by
  have hputs : Frontend.puts (events ++ [.put o]) = groups.flatten ++ (last ++ [o]) := by
    rw [puts_concat, h.puts, append_assoc]
    rfl
  have hobtained : List.Forall₂ RequestOutput.Merges groups
      (Frontend.obtained (events ++ [.put o])) := by
    rw [obtained_concat, show SessionEvent.takenOut (.put o) = [] from rfl, append_nil]
    exact h.obtained
  unfold RequestOutputCollector.put at hok
  split at hok
  · rename_i hnone
    cases hok
    obtain rfl := h.empty hnone
    refine ⟨h.aggregate, hputs, hobtained, nofun, ?_, rfl, fun hwaiting => ?_⟩
    · intro p hp
      cases hp
      exact ⟨ho, RequestOutput.merges_singleton o⟩
    · cases Consumer.notify_eq_waiting hwaiting
  · rename_i p hp
    obtain ⟨_, hmerged, hok⟩ := Fallible.bind_eq_ok.mp hok
    cases hok
    rw [h.aggregate] at hmerged
    obtain ⟨hfits, hmerges⟩ := h.pending p hp
    have hready : s.collector.ready = true := by rw [h.ready, hp, Option.isSome_some]
    refine ⟨h.aggregate, hputs, hobtained, nofun, ?_, hready, fun hwaiting => ?_⟩
    · intro q hq
      cases hq
      obtain ⟨_, hm, hmfits⟩ := RequestOutput.add_fits hfits ho
      cases hmerged.symm.trans hm
      exact ⟨hmfits, hmerges.add hfits ho hmerged⟩
    · cases hready.symm.trans (Consumer.notify_eq_waiting hwaiting)

/-- An event that moves no output changes no group. -/
theorem Collected.idle {consumer : Consumer} (h : Collected asked events s groups last)
    (hputs : event.putIn = []) (htaken : event.takenOut = [])
    (awake : consumer = .waiting → s.collector.output = none) :
    Collected asked (events ++ [event]) ⟨s.collector, consumer⟩ groups last where
  aggregate := h.aggregate
  puts := by rw [puts_concat, hputs, append_nil, h.puts]
  obtained := by
    rw [obtained_concat, htaken, append_nil]
    exact h.obtained
  empty := h.empty
  pending := h.pending
  ready := h.ready
  awake := awake

/-- Every step keeps the groups, and closes the last one when the consumer obtains an output. -/
theorem SessionStep.collected (h : SessionStep s event t)
    (hs : Collected asked events s groups last) (fits : ∀ o, event = .put o → o.Fits asked) :
    ∃ groups' last', Collected asked (events ++ [event]) t groups' last' := by
  cases h with
  | put hok => exact ⟨groups, _, hs.put (fits _ rfl) hok⟩
  | @get o c active found =>
    obtain ⟨hout, rfl⟩ := RequestOutputCollector.take_eq_some found
    have hmerges := (hs.pending o hout).2
    refine ⟨groups ++ [last], [], hs.aggregate, ?_, ?_, fun _ => rfl, nofun, rfl, nofun⟩
    · rw [puts_concat, hs.puts, flatten_append]
      simp [SessionEvent.putIn]
    · rw [obtained_concat]
      exact rel_append hs.obtained (.cons hmerges .nil)
  | getNowait active found =>
    obtain ⟨-, rfl⟩ := RequestOutputCollector.take_eq_none found
    exact ⟨groups, last, hs.idle rfl rfl nofun⟩
  | wait active found blocks =>
    obtain ⟨hnone, rfl⟩ := RequestOutputCollector.take_eq_none found
    exact ⟨groups, last, hs.idle rfl rfl fun _ => hnone⟩
  | pass active found passes =>
    obtain ⟨hnone, rfl⟩ := RequestOutputCollector.take_eq_none found
    exact ⟨groups, last, hs.idle rfl rfl nofun⟩

theorem collected_of_execution (run : Execution SessionStep (.new .delta) events s)
    (fits : ∀ o ∈ puts events, o.Fits asked) :
    ∃ groups last, Collected asked events s groups last := by
  induction run with
  | start => exact ⟨[], [], collected_new⟩
  | @extend events t u event run step ih =>
    rw [puts_concat] at fits
    obtain ⟨groups, last, h⟩ := ih fun o ho => fits o (mem_append_left _ ho)
    refine step.collected h fun o ho => fits o (mem_append_right _ ?_)
    rw [ho]
    exact mem_singleton.mpr rfl

/-! ### Nothing is lost -/

/-- The completions of two sequences of outputs are the same, index by index. -/
structure SameCompletions (os os' : List (RequestOutput ρ κ)) : Prop where
  text : ∀ i, RequestOutput.textOf i os = RequestOutput.textOf i os'
  tokenIds : ∀ i, RequestOutput.tokenIdsOf i os = RequestOutput.tokenIdsOf i os'
  logprobs : ∀ i, RequestOutput.logprobsOf i os = RequestOutput.logprobsOf i os'

/-- Merged outputs have the completions of their groups. -/
theorem stream_of_merges {α : Type} {f : CompletionOutput ρ → List α} (hf : Additive f) (i : ℕ)
    {os : List (RequestOutput ρ κ)}
    (h : List.Forall₂ RequestOutput.Merges groups os) :
    RequestOutput.stream f i os = RequestOutput.stream f i groups.flatten := by
  induction h with
  | nil => rfl
  | @cons group o groups os hmerges _ ih =>
    rw [flatten_cons, RequestOutput.stream_append, ← ih, ← hmerges.stream f hf,
      ← RequestOutput.stream_append, singleton_append]

theorem sameCompletions_of_merges
    {os : List (RequestOutput ρ κ)} (h : List.Forall₂ RequestOutput.Merges groups os) :
    SameCompletions os groups.flatten where
  text i := by
    apply String.toList_injective
    rw [RequestOutput.toList_textOf, RequestOutput.toList_textOf]
    exact stream_of_merges additive_text i h
  tokenIds i := stream_of_merges additive_tokenIds i h
  logprobs i := stream_of_merges additive_logprobList i h

/-- In delta mode the consumer obtains all that was put in, in order, as soon as nothing is
pending. Each output that it obtains is the merge of a group of consecutive outputs, and finished
iff one of them is. As long as an output is pending, the event is set and the consumer does not
wait. -/
theorem lossless_of_execution (run : Execution SessionStep (.new .delta) events s)
    (fits : ∀ o ∈ puts events, o.Fits asked) :
    (s.collector.output = none → SameCompletions (obtained events) (puts events)) ∧
    (∃ groups last, puts events = groups.flatten ++ last ∧
      List.Forall₂ RequestOutput.Merges groups (obtained events)) ∧
    (s.collector.output.isSome → s.collector.ready = true ∧ s.consumer ≠ .waiting) ∧
    ∀ o : RequestOutput ρ κ, o.Fits asked → ∃ c, s.collector.put o = .ok c := by
  obtain ⟨groups, last, h⟩ := collected_of_execution run fits
  refine ⟨fun hnone => ?_, ⟨groups, last, h.puts, h.obtained⟩,
    fun hsome => ⟨?_, fun hwaiting => ?_⟩,
    fun o ho => RequestOutputCollector.put_isOk h.aggregate (fun p hp => (h.pending p hp).1) ho⟩
  · have hputs := h.puts
    rw [h.empty hnone, append_nil] at hputs
    rw [hputs]
    exact sameCompletions_of_merges h.obtained
  · rw [h.ready, hsome]
  · rw [h.awake hwaiting] at hsome
    cases hsome

section Example

/-- An output with one completion. -/
def oneCompletion (text : String) (tokenIds : List ℤ) (logprobs : List ℕ) (finished : Bool) :
    RequestOutput ℕ ℕ where
  outputs := [{
    index := 0
    text
    tokenIds
    cumulativeLogprob := none
    logprobs := some logprobs
    finishReason := if finished then some "stop" else none
    stopReason := none }]
  finished
  kvTransferParams := none

/-- The consumer waits, and two outputs are put in before it runs again. -/
theorem lossless_of_execution_two :
    SameCompletions [oneCompletion "ab" [1, 2] [7, 8] true]
      [oneCompletion "a" [1] [7] false, oneCompletion "b" [2] [8] true] := by
  have run : Execution SessionStep (.new .delta) [.suspended,
      .put (oneCompletion "a" [1] [7] false), .put (oneCompletion "b" [2] [8] true),
      .obtained (oneCompletion "ab" [1, 2] [7, 8] true)] ⟨.new .delta, .outside⟩ :=
    (((Execution.single (.wait nofun rfl rfl)).extend (.put rfl)).extend (.put rfl)).extend
      (.get nofun rfl)
  have fits : ∀ o ∈ [oneCompletion "a" [1] [7] false, oneCompletion "b" [2] [8] true],
      o.Fits fun _ => true := by
    intro o ho
    simp only [mem_cons, not_mem_nil, or_false] at ho
    rcases ho with rfl | rfl <;>
      exact ⟨nodup_singleton _, by simp [oneCompletion, CompletionOutput.Answers]⟩
  exact (lossless_of_execution run fits).1 rfl

end Example

end Frontend
