import Mosaic.Frontend.SamplingParams
import Mosaic.Transition.Execution
import Mathlib.Data.List.AList

/-!
# Parallel sampling

A request for several samples is a parent with one child request for each sample. The children
are registered one after the other, and outputs of the engine may be processed between two
registrations. The parent keeps the set of the registered children that are not finished, and, if
only the final output is asked for, the final completions. It takes no part in the processing of
the parameters: the parameters of the children are copies of what the caller gave.
-/

namespace Frontend

open Transition

variable {π ρ κ : Type}

namespace CompletionOutput

def finished (c : CompletionOutput ρ) : Bool := c.finishReason.isSome

end CompletionOutput

/-- An output that is put into the queue of a parent. A completion may be missing. -/
structure MergedOutput (ρ κ : Type) where
  outputs : List (Option (CompletionOutput ρ))
  finished : Bool
  kvTransferParams : Option κ
  deriving DecidableEq

structure ParentRequest (π ρ : Type) where
  requestId : String
  samplingParams : SamplingParams π
  childRequests : Finset String
  outputAggregator : List (Option (CompletionOutput ρ))
  cachedChildSamplingParams : Option (SamplingParams π)
  deriving DecidableEq

/-- The id of a child request. -/
def childRequestId (index : ℕ) (requestId : String) : String := s!"{index}_{requestId}"

namespace ParentRequest

def new (requestId : String) (samplingParams : SamplingParams π) : ParentRequest π ρ where
  requestId
  samplingParams
  childRequests := ∅
  outputAggregator :=
    if samplingParams.outputKind = .finalOnly then List.replicate samplingParams.n none else []
  cachedChildSamplingParams := none

/-- The parameters of a child. Without a seed the children share one copy. -/
def getChildSamplingParams (p : ParentRequest π ρ) (index : ℕ) :
    SamplingParams π × ParentRequest π ρ :=
  match p.cachedChildSamplingParams with
  | some cached => (cached, p)
  | none =>
    let child := { p.samplingParams with n := 1 }
    match p.samplingParams.seed with
    | none => (child, { p with cachedChildSamplingParams := some child })
    | some seed => ({ child with seed := some (seed + index) }, p)

def getChildInfo (p : ParentRequest π ρ) (index : ℕ) :
    (String × SamplingParams π) × ParentRequest π ρ :=
  let id := childRequestId index p.requestId
  let p := { p with childRequests := insert id p.childRequests }
  let (params, p) := p.getChildSamplingParams index
  ((id, params), p)

/-- Take a finished child out of the set of the children. -/
def removeFinished (p : ParentRequest π ρ) (childRequestId : String)
    (completion : CompletionOutput ρ) : Except RequestFault (ParentRequest π ρ) :=
  if completion.finished then
    if childRequestId ∈ p.childRequests then
      .ok { p with childRequests := p.childRequests.erase childRequestId }
    else .error .keyError
  else .ok p

/-- The completions to put out, and whether the parent is finished. -/
def getOutputs (p : ParentRequest π ρ) (childRequestId : String)
    (completion : CompletionOutput ρ) : Except RequestFault
      ((List (Option (CompletionOutput ρ)) × Bool) × ParentRequest π ρ) := do
  let p ← p.removeFinished childRequestId completion
  let finished : Bool := p.childRequests = ∅
  if p.samplingParams.outputKind ≠ .finalOnly then
    return (([some completion], finished), p)
  else if completion.index < p.outputAggregator.length then
    let outputAggregator := p.outputAggregator.set completion.index (some completion)
    return ((if finished then outputAggregator else [], finished), { p with outputAggregator })
  else throw .indexError

end ParentRequest

/-- What the output processor keeps of a child. The parent is that of the family. -/
structure RequestState where
  requestIndex : ℕ
  outputKind : RequestOutputKind
  deriving DecidableEq

inductive FinishReason where
  | stop
  | length
  | abort
  deriving DecidableEq, Repr

def FinishReason.toString : FinishReason → String
  | .stop => "stop"
  | .length => "length"
  | .abort => "abort"

/-- The output of the engine for a request in one step. -/
structure EngineCoreOutput (κ : Type) where
  requestId : String
  newTokenIds : List ℤ
  finishReason : Option FinishReason
  stopReason : Option (ℤ ⊕ String)
  kvTransferParams : Option κ

/-- What the detokenizer and the processor of log probabilities of a request answer after an
output. -/
structure Detokenized (ρ : Type) where
  stopString : Option String
  text : String
  outputTokenIds : List ℤ
  cumulativeLogprob : Option ℚ
  logprobs : Option (List ρ)

/-- The last `k` entries, as `l[-k:]` has them: all of them for `k = 0`. -/
def lastEntries (k : ℕ) (l : List ρ) : List ρ := if k = 0 then l else l.drop (l.length - k)

namespace RequestState

/-- A stop string ends a request that the engine has not ended. -/
def finishReason (o : EngineCoreOutput κ) (d : Detokenized ρ) :
    Option FinishReason × Option (ℤ ⊕ String) :=
  match d.stopString with
  | some text => (some .stop, some (.inr text))
  | none => (o.finishReason, o.stopReason)

def newCompletionOutput (st : RequestState) (o : EngineCoreOutput κ) (d : Detokenized ρ) :
    CompletionOutput ρ :=
  let (reason, stopReason) := finishReason o d
  let delta := st.outputKind = .delta
  let tokenIds := if delta then o.newTokenIds else d.outputTokenIds
  { index := st.requestIndex
    text := d.text
    tokenIds
    cumulativeLogprob := d.cumulativeLogprob
    logprobs := if delta then d.logprobs.map (lastEntries tokenIds.length) else d.logprobs
    finishReason := reason.map FinishReason.toString
    stopReason := if reason.isSome then stopReason else none }

/-- If only the final output is asked for, then an output that is not final makes none. -/
def isSkipped (st : RequestState) (o : EngineCoreOutput κ) (d : Detokenized ρ) : Bool :=
  (finishReason o d).1.isNone && st.outputKind = .finalOnly

def makeRequestOutput (st : RequestState) (p : ParentRequest π ρ) (o : EngineCoreOutput κ)
    (d : Detokenized ρ) : Except RequestFault (Option (MergedOutput ρ κ) × ParentRequest π ρ) :=
  if st.isSkipped o d then .ok (none, p)
  else do
    let ((outputs, finished), p) ← p.getOutputs o.requestId (st.newCompletionOutput o d)
    if outputs.isEmpty then return (none, p)
    else return (some ⟨outputs, finished, o.kvTransferParams⟩, p)

end RequestState

/-- A request as it is sent to the engine. -/
structure EngineCoreRequest (π : Type) where
  requestId : String
  promptTokenIds : List ℤ
  samplingParams : SamplingParams π
  deriving DecidableEq

/-- A parent in the middle of its registration: the request object of the loop, the parent, the
states of the children, and the index of the next child. -/
structure Family (π ρ : Type) where
  request : EngineCoreRequest π
  parent : ParentRequest π ρ
  requestStates : AList fun _ : String => RequestState
  next : ℕ

/-- The call for several samples up to its loop. -/
def addRequest (proc : Processor) (requestId : String) (promptTokenIds : List ℤ)
    (params : SamplingParams π) : Except RequestFault (Family π ρ) := do
  let processed ← proc.processParams promptTokenIds params
  return { request := ⟨requestId, promptTokenIds, processed⟩
           parent := .new requestId params
           requestStates := ∅
           next := 0 }

namespace Family

/-- One pass of the loop, up to where the child is sent to the engine. The name `params` of the
caller's parameters is bound to the child's from the first pass on. -/
def register (s : Family π ρ) : Except RequestFault (EngineCoreRequest π × Family π ρ) :=
  let ((id, params), parent) := s.parent.getChildInfo s.next
  let child := { s.request with requestId := id, samplingParams := params }
  if id ∈ s.requestStates then .error .valueError
  else .ok (child,
    { request := if s.next + 1 = params.n then child else s.request
      parent
      requestStates := s.requestStates.insert id ⟨s.next, params.outputKind⟩
      next := s.next + 1 })

/-- One output of the engine. The output of a request that is not there is ignored, and a
finished request is removed. -/
def processOutput (s : Family π ρ) (o : EngineCoreOutput κ) (d : Detokenized ρ) :
    Except RequestFault (Option (MergedOutput ρ κ) × Family π ρ) :=
  match s.requestStates.lookup o.requestId with
  | none => .ok (none, s)
  | some st => do
    let (emitted, parent) ← st.makeRequestOutput s.parent o d
    let requestStates :=
      if (RequestState.finishReason o d).1.isSome then s.requestStates.erase o.requestId
      else s.requestStates
    return (emitted, { s with parent, requestStates })

/-- The completion that an output of the engine stands for, if one is made of it. -/
def completion (s : Family π ρ) (o : EngineCoreOutput κ) (d : Detokenized ρ) :
    Option (CompletionOutput ρ) :=
  match s.requestStates.lookup o.requestId with
  | none => none
  | some st => if st.isSkipped o d then none else some (st.newCompletionOutput o d)

end Family

/-- What happens to a family: a child is registered, or an output of the engine is processed, of
which a completion may be made, and an output put out. -/
inductive FamilyEvent (π ρ κ : Type) where
  | register (index : ℕ) (child : EngineCoreRequest π)
  | output (made : Option (CompletionOutput ρ)) (emitted : Option (MergedOutput ρ κ))

/-- The steps of the event loop. -/
inductive FamilyStep : Family π ρ → FamilyEvent π ρ κ → Family π ρ → Prop where
  | register {s t : Family π ρ} {child : EngineCoreRequest π}
      (more : s.next < s.parent.samplingParams.n) (hok : s.register = .ok (child, t)) :
      FamilyStep s (.register s.next child) t
  | output {s t : Family π ρ} {o : EngineCoreOutput κ} {d : Detokenized ρ}
      {emitted : Option (MergedOutput ρ κ)} (hok : s.processOutput o d = .ok (emitted, t)) :
      FamilyStep s (.output (s.completion o d) emitted) t

end Frontend
