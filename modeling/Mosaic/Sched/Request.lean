import Mosaic.Kv.KVCacheManager
import Mathlib.Data.Rat.Defs

/-!
# Requests of the token scheduler

A request carries its tokens, the number of those that are computed, and its status. New tokens
are appended one by one until one of them ends the request.
-/

namespace Sched

open Except

/-- The exceptions of the scheduler. Those of the cache manager are kept apart. -/
inductive SchedulerError where
  | assertionError
  | indexError
  | keyError
  | runtimeError
  | typeError
  | valueError
  | kv (e : Kv.KvError)
  deriving DecidableEq

inductive RequestStatus where
  | waiting
  | waitingForFsm
  | waitingForRemoteKvs
  | running
  | preempted
  | finishedStopped
  | finishedLengthCapped
  | finishedAborted
  | finishedIgnored
  deriving DecidableEq

/-- Everything after `preempted` is a finished status. -/
def RequestStatus.isFinished : RequestStatus → Bool
  | finishedStopped | finishedLengthCapped | finishedAborted | finishedIgnored => true
  | _ => false

inductive FinishReason where
  | stop
  | length
  | abort
  deriving DecidableEq

/-- Ignored requests are those whose prompt is too long, so their reason is the length. -/
def RequestStatus.getFinishedReason : RequestStatus → Option FinishReason
  | finishedStopped => some .stop
  | finishedLengthCapped | finishedIgnored => some .length
  | finishedAborted => some .abort
  | _ => none

/-- The sampling parameters that the scheduler reads. -/
structure SamplingParams where
  ignoreEos : Bool := false
  stopTokenIds : List ℤ := []
  guidedDecoding : Bool := false
  promptLogprobs : Bool := false
  deriving DecidableEq

structure Request where
  requestId : String
  promptTokenIds : List ℤ
  maxTokens : ℤ
  outputTokenIds : List ℤ := []
  specTokenIds : List ℤ := []
  numComputedTokens : ℤ := 0
  numCachedTokens : ℤ := -1
  status : RequestStatus := .waiting
  stopReason : Option ℤ := none
  clientIndex : ℕ := 0
  priority : ℤ := 0
  arrivalTime : ℚ := 0
  samplingParams : Option SamplingParams := some {}
  hasPoolingParams : Bool := false
  eosTokenId : Option ℤ := none
  loraIntId : Option ℤ := none
  cacheSalt : Option String := none
  mmPositions : List Kv.PlaceholderRange := []
  mmHashes : List String := []
  deriving DecidableEq

namespace Request

def allTokenIds (r : Request) : List ℤ := r.promptTokenIds ++ r.outputTokenIds

def numTokens (r : Request) : ℕ := r.allTokenIds.length

def numPromptTokens (r : Request) : ℕ := r.promptTokenIds.length

def numOutputTokens (r : Request) : ℕ := r.outputTokenIds.length

def numTokensWithSpec (r : Request) : ℕ := r.numTokens + r.specTokenIds.length

def isFinished (r : Request) : Bool := r.status.isFinished

def useStructuredOutput (r : Request) : Bool :=
  (r.samplingParams.map SamplingParams.guidedDecoding).getD false

def hasEncoderInputs (r : Request) : Bool := !r.mmPositions.isEmpty

/-- Items are known by their numbers. -/
def getNumEncoderTokens (r : Request) (inputId : ℕ) : Except SchedulerError ℕ :=
  match r.mmPositions[inputId]? with
  | none => .error .assertionError
  | some pos => .ok pos.length

/-- What the cache manager reads of a request. -/
def toKv (r : Request) : Kv.Request where
  requestId := r.requestId
  allTokenIds := r.allTokenIds
  loraIntId := r.loraIntId
  cacheSalt := r.cacheSalt
  mmPositions := r.mmPositions
  mmHashes := r.mmHashes
  promptLogprobs := (r.samplingParams.map SamplingParams.promptLogprobs).getD false
  numComputedTokens := r.numComputedTokens.toNat

@[simp] theorem toKv_numTokens (r : Request) : r.toKv.numTokens = r.numTokens := rfl

theorem numTokens_eq (r : Request) : r.numTokens = r.numPromptTokens + r.numOutputTokens :=
  List.length_append

/-! ### New tokens -/

def appendOutputTokenIds (r : Request) (tokenId : ℤ) : Request :=
  { r with outputTokenIds := r.outputTokenIds ++ [tokenId] }

/-- The length limits are tested first. A pooling request ends with its output, any other one with
a token that stops it. -/
def checkStop (r : Request) (maxModelLen : ℕ) (hasPoolerOutput : Bool) :
    Except SchedulerError (Request × Bool) :=
  if maxModelLen ≤ r.numTokens ∨ r.maxTokens ≤ r.numOutputTokens then
    .ok ({ r with status := .finishedLengthCapped }, true)
  else if r.hasPoolingParams then
    if hasPoolerOutput then .ok ({ r with status := .finishedStopped }, true) else .ok (r, false)
  else
    match r.samplingParams, r.outputTokenIds.getLast? with
    | none, _ => .error .assertionError
    | _, none => .error .indexError
    | some params, some lastTokenId =>
      if !params.ignoreEos && r.eosTokenId = some lastTokenId then
        .ok ({ r with status := .finishedStopped }, true)
      else if lastTokenId ∈ params.stopTokenIds then
        .ok ({ r with status := .finishedStopped, stopReason := some lastTokenId }, true)
      else .ok (r, false)

/-- Append tokens until one of them stops the request. Returns the tokens that were appended. -/
def updateWithOutput (maxModelLen : ℕ) :
    List ℤ → Request → Except SchedulerError (Request × List ℤ × Bool)
  | [], r => .ok (r, [], false)
  | token :: rest, r => do
    let (r, stopped) ← (r.appendOutputTokenIds token).checkStop maxModelLen false
    if stopped then return (r, [token], true)
    let (r, tokens, stopped) ← updateWithOutput maxModelLen rest r
    return (r, token :: tokens, stopped)

/-- Only the status, the reason of the stop and the output of a request change, and the output
only grows. -/
structure Extends (r r' : Request) (tokens : List ℤ) : Prop where
  same : r' = { r with
    outputTokenIds := r.outputTokenIds ++ tokens
    status := r'.status
    stopReason := r'.stopReason }

theorem Extends.refl (r : Request) : Extends r r [] where
  same := by simp

theorem checkStop_eq_ok {r r' : Request} {maxModelLen : ℕ} {hasPoolerOutput stopped : Bool}
    (hok : r.checkStop maxModelLen hasPoolerOutput = .ok (r', stopped)) :
    Extends r r' [] ∧
      ((stopped = true ∧ r'.isFinished = true) ∨
        (stopped = false ∧ r' = r ∧ r.numTokens < maxModelLen ∧
          (r.hasPoolingParams = true → hasPoolerOutput = false))) := by
  unfold checkStop at hok
  split at hok
  · cases hok
    exact ⟨⟨by simp⟩, .inl ⟨rfl, rfl⟩⟩
  · rename_i hlen
    have hshort : r.numTokens < maxModelLen := by
      rw [not_or] at hlen
      omega
    split at hok
    · split at hok
      · cases hok
        exact ⟨⟨by simp⟩, .inl ⟨rfl, rfl⟩⟩
      · rename_i hnone
        cases hok
        exact ⟨.refl r, .inr ⟨rfl, rfl, hshort, fun _ => by simpa using hnone⟩⟩
    · rename_i hsampling
      split at hok
      · cases hok
      · cases hok
      · split at hok
        · cases hok
          exact ⟨⟨by simp⟩, .inl ⟨rfl, rfl⟩⟩
        · split at hok
          · cases hok
            exact ⟨⟨by simp⟩, .inl ⟨rfl, rfl⟩⟩
          · cases hok
            exact ⟨.refl r, .inr ⟨rfl, rfl, hshort, fun h => absurd h hsampling⟩⟩

/-- The new tokens are a prefix of the given ones. The request is finished, or all of them are
appended and the status is as before. -/
theorem updateWithOutput_eq_ok {maxModelLen : ℕ} {given tokens : List ℤ} {r r' : Request}
    {stopped : Bool} (hok : updateWithOutput maxModelLen given r = .ok (r', tokens, stopped)) :
    Extends r r' tokens ∧
      ((stopped = true ∧ r'.isFinished = true) ∨
        (stopped = false ∧ tokens = given ∧ r'.status = r.status ∧
          (given ≠ [] → r'.numTokens < maxModelLen))) := by
  induction given generalizing r tokens with
  | nil =>
    obtain ⟨rfl, htoks⟩ := Prod.mk.inj (ok.inj hok)
    obtain ⟨rfl, rfl⟩ := Prod.mk.inj htoks
    exact ⟨.refl r, .inr ⟨rfl, rfl, rfl, fun h => absurd rfl h⟩⟩
  | cons token rest ih =>
    obtain ⟨⟨r₁, stopped₁⟩, hcheck, hok⟩ := Fallible.bind_eq_ok.mp hok
    obtain ⟨⟨hsame⟩, hstop⟩ := checkStop_eq_ok hcheck
    dsimp only at hok
    split at hok
    · rename_i hstopped
      obtain ⟨rfl, htoks⟩ := Prod.mk.inj (ok.inj hok)
      obtain ⟨rfl, rfl⟩ := Prod.mk.inj htoks
      refine ⟨⟨?_⟩, .inl ⟨rfl, ?_⟩⟩
      · rw [hsame]
        simp [appendOutputTokenIds]
      · rcases hstop with ⟨-, hfin⟩ | ⟨hnot, -⟩
        · exact hfin
        · rw [hstopped] at hnot
          cases hnot
    · rename_i hnot
      obtain ⟨⟨_, tokens₂, _⟩, hrest, hok⟩ := Fallible.bind_eq_ok.mp hok
      obtain ⟨rfl, htoks⟩ := Prod.mk.inj (ok.inj hok)
      obtain ⟨rfl, rfl⟩ := Prod.mk.inj htoks
      obtain ⟨-, rfl, hshort, -⟩ : stopped₁ = false ∧ r₁ = r.appendOutputTokenIds token ∧ _ :=
        hstop.resolve_left fun h => hnot h.1
      obtain ⟨⟨hsame₂⟩, hstop₂⟩ := ih hrest
      refine ⟨⟨?_⟩, ?_⟩
      · rw [hsame₂]
        simp [appendOutputTokenIds]
      · rcases hstop₂ with hfin | ⟨hfalse, rfl, hstatus, hlen⟩
        · exact .inl hfin
        · refine .inr ⟨hfalse, rfl, hstatus, fun _ => ?_⟩
          cases tokens₂ with
          | nil =>
            obtain rfl := (Prod.mk.inj (ok.inj hrest)).1
            exact hshort
          | cons t ts => exact hlen (by simp)

end Request

end Sched
