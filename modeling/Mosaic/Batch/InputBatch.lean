import Mathlib.Data.List.AList
import Mathlib.Data.Finset.Basic
import Mosaic.Batch.BatchUpdate

/-!
# The persistent input batch

`InputBatch` of `v1/worker/gpu_input_batch.py` with the block tables of `v1/worker/block_table.py`.
A request that is in the batch owns one index, and what the worker knows about it stands at this
index of about twenty arrays and dictionaries. Removing a request leaves an empty slot; adding one
fills the lowest empty slot or appends; `condense` moves the last requests into the slots that are
still empty.

An array is a function of the index (and of the column), a dictionary that is only looked up is a
function to `Option`. `req_id_to_index` is a finite map, since the size of the batch is its size.
-/

namespace Batch

open Function

/-- The identity of a `torch.Generator`. -/
abbrev GeneratorRef := ℕ

/-- An adapter; its identifier is at least 1, as `LoRARequest.__post_init__` checks. -/
structure LoRARequest where
  loraIntId : ℕ
  positive : 0 < loraIntId
  deriving DecidableEq

structure CachedRequestState where
  reqId : ReqId
  promptTokenIds : List ℕ
  samplingParams : Option SamplingParams
  poolingParams : Option PoolingParams := none
  generator : Option GeneratorRef := none
  /-- One list of blocks for each KV cache group. -/
  blockIds : List (List ℕ)
  numComputedTokens : ℕ := 0
  outputTokenIds : List ℕ := []
  outputRef : OutputRef := 0
  loraRequest : Option LoRARequest := none
  deriving DecidableEq

namespace CachedRequestState

def numTokens (r : CachedRequestState) : ℕ :=
  r.promptTokenIds.length + r.outputTokenIds.length

/-- `request.sampling_params if request.sampling_params else request.pooling_params`. -/
def params (r : CachedRequestState) : Option Params :=
  match r.samplingParams with
  | some p => some (.sampling p)
  | none => r.poolingParams.map .pooling

end CachedRequestState

structure Config where
  maxNumReqs : ℕ
  maxModelLen : ℕ
  vocabSize : ℕ
  isSpecDecode : Bool := false
  deriving DecidableEq, Repr

/-- `_SAMPLING_EPS` of `sampling_params.py` and of `spec_decode/utils.py`. -/
def samplingEps : ℚ := 1 / 100000

/-- `sampling_type == SamplingType.GREEDY`. -/
def SamplingParams.isGreedy (p : SamplingParams) : Bool := decide (p.temperature < samplingEps)

def isSpecDecodeUnsupported (p : SamplingParams) : Bool :=
  decide (p.frequencyPenalty ≠ 0) || decide (p.presencePenalty ≠ 0) ||
    decide (p.repetitionPenalty ≠ 1) || decide (p.minP > samplingEps) || p.logprobs.isSome

/-- `array[row, start:start + len(values)] = values` on an array of `width` columns. A slice that
ends outside the array is cut off, and then only a single value still fits it. -/
def writeSlice (width : ℕ) (array : ℕ → ℕ → ℕ) (row start : ℕ) (values : List ℕ) :
    Except Fault (ℕ → ℕ → ℕ) :=
  if start + values.length ≤ width ∨ values.length ≤ 1 then
    .ok (update array row fun column =>
      if start ≤ column ∧ column < start + values.length ∧ column < width then
        values.getD (column - start) 0
      else array row column)
  else .error .valueError

/-- `array[target, :count] = array[source, :count]`. -/
def copySlice (array : ℕ → ℕ → ℕ) (source target count : ℕ) : ℕ → ℕ → ℕ :=
  update array target fun column =>
    if column < count then array source column else array target column

/-- Exchanging the values at two indices. -/
def swapAt {α : Type} (array : ℕ → α) (i j : ℕ) : ℕ → α :=
  update (update array i (array j)) j (array i)

/-! ### Block tables -/

/-- The block table of one KV cache group. -/
structure BlockTable where
  maxNumBlocksPerReq : ℕ
  numBlocksPerRow : ℕ → ℕ := fun _ => 0
  blockTableNp : ℕ → ℕ → ℕ := fun _ _ => 0

namespace BlockTable

def appendRow (t : BlockTable) (blockIds : List ℕ) (row : ℕ) : Except Fault BlockTable :=
  if blockIds = [] then .ok t
  else do
    let start := t.numBlocksPerRow row
    let blocks ← writeSlice t.maxNumBlocksPerReq t.blockTableNp row start blockIds
    return { t with
      numBlocksPerRow := update t.numBlocksPerRow row (start + blockIds.length)
      blockTableNp := blocks }

def addRow (t : BlockTable) (blockIds : List ℕ) (row : ℕ) : Except Fault BlockTable :=
  appendRow { t with numBlocksPerRow := update t.numBlocksPerRow row 0 } blockIds row

def moveRow (t : BlockTable) (src tgt : ℕ) : BlockTable :=
  { t with
    blockTableNp := copySlice t.blockTableNp src tgt (t.numBlocksPerRow src)
    numBlocksPerRow := update t.numBlocksPerRow tgt (t.numBlocksPerRow src) }

def swapRow (t : BlockTable) (src tgt : ℕ) : BlockTable :=
  { t with
    numBlocksPerRow := swapAt t.numBlocksPerRow src tgt
    blockTableNp := swapAt t.blockTableNp src tgt }

end BlockTable

/-- `MultiGroupBlockTable.add_row`: group `i` gets `block_ids[i]`. -/
def addRows : List BlockTable → List (List ℕ) → ℕ → Except Fault (List BlockTable)
  | [], _, _ => .ok []
  | _ :: _, [], _ => .error .indexError
  | t :: tables, blocks :: blockIds, row => do
    let t ← t.addRow blocks row
    let tables ← addRows tables blockIds row
    return t :: tables

/-! ### The columns of the batch -/

structure Columns where
  tokenIdsCpu : ℕ → ℕ → ℕ := fun _ _ => 0
  numTokens : ℕ → ℕ := fun _ => 0
  numTokensNoSpec : ℕ → ℕ := fun _ => 0
  numPromptTokens : ℕ → ℕ := fun _ => 0
  numComputedTokensCpu : ℕ → ℕ := fun _ => 0
  blockTables : List BlockTable
  temperatureCpu : ℕ → ℚ := fun _ => 0
  topPCpu : ℕ → ℚ := fun _ => 0
  topKCpu : ℕ → ℤ := fun _ => 0
  frequencyPenaltiesCpu : ℕ → ℚ := fun _ => 0
  presencePenaltiesCpu : ℕ → ℚ := fun _ => 0
  repetitionPenaltiesCpu : ℕ → ℚ := fun _ => 0
  requestLoraMapping : ℕ → ℕ := fun _ => 0
  generators : ℕ → Option GeneratorRef := fun _ => none
  /-- `allowed_token_ids_mask_cpu_tensor`, allocated by the first request that needs it. `true`
  stands for a token that is not allowed. -/
  allowedTokenIdsMask : Option (ℕ → ℕ → Bool) := none
  badWordsTokenIds : ℕ → Option (List (List ℕ)) := fun _ => none
  logitsProcessingNeedsTokenIds : ℕ → Bool := fun _ => false

namespace Columns

/-- The part of `add_request` that copies the tokens, their counters and the blocks. -/
def addTokens (cfg : Config) (c : Columns) (i : ℕ) (r : CachedRequestState) :
    Except Fault Columns := do
  let prompt ← writeSlice cfg.maxModelLen c.tokenIdsCpu i 0 r.promptTokenIds
  let tokens ← writeSlice cfg.maxModelLen prompt i r.promptTokenIds.length r.outputTokenIds
  let tables ← addRows c.blockTables r.blockIds i
  return { c with
    tokenIdsCpu := tokens
    numPromptTokens := update c.numPromptTokens i r.promptTokenIds.length
    numTokens := update c.numTokens i r.numTokens
    numTokensNoSpec := update c.numTokensNoSpec i r.numTokens
    numComputedTokensCpu := update c.numComputedTokensCpu i r.numComputedTokens
    blockTables := tables }

/-- `top_k`, or the vocabulary's size where it does not restrict anything. -/
def effectiveTopK (cfg : Config) (p : SamplingParams) : ℤ :=
  if 0 < p.topK ∧ p.topK < cfg.vocabSize then p.topK else cfg.vocabSize

/-- `-1.0` for greedy sampling, to avoid a later division by zero. -/
def effectiveTemperature (p : SamplingParams) : ℚ := if p.isGreedy then -1 else p.temperature

/-- The mask row of a request, with a column for each token of the vocabulary: everything but the
allowed tokens. -/
def maskRow (cfg : Config) (allowed : List ℕ) (token : ℕ) : Bool :=
  decide (token < cfg.vocabSize) && !allowed.contains token

/-- The part of `add_request` for `allowed_token_ids`: the tensor is allocated when it is first
needed, and a request without allowed tokens does not write its row. -/
def addAllowed (cfg : Config) (c : Columns) (i : ℕ) (p : SamplingParams) : Except Fault Columns :=
  if p.allowedTokenIds = [] then .ok c
  else if p.allowedTokenIds.all (· < cfg.vocabSize) then
    .ok { c with
      allowedTokenIdsMask := some (update
        (c.allowedTokenIdsMask.getD fun _ _ => false) i (maskRow cfg p.allowedTokenIds)) }
  else .error .indexError

/-- The part of `add_request` for the sampling parameters. -/
def addSampling (cfg : Config) (c : Columns) (i : ℕ) (r : CachedRequestState)
    (p : SamplingParams) : Except Fault Columns := do
  let c ← addAllowed cfg c i p
  return { c with
    temperatureCpu := update c.temperatureCpu i (effectiveTemperature p)
    topPCpu := update c.topPCpu i p.topP
    topKCpu := update c.topKCpu i (effectiveTopK cfg p)
    frequencyPenaltiesCpu := update c.frequencyPenaltiesCpu i p.frequencyPenalty
    presencePenaltiesCpu := update c.presencePenaltiesCpu i p.presencePenalty
    repetitionPenaltiesCpu := update c.repetitionPenaltiesCpu i p.repetitionPenalty
    generators :=
      if r.generator.isSome then update c.generators i r.generator else c.generators
    badWordsTokenIds :=
      if p.badWordsTokenIds = [] then c.badWordsTokenIds
      else update c.badWordsTokenIds i (some p.badWordsTokenIds) }

/-- The part of `add_request` for the adapter. -/
def addLora (c : Columns) (i : ℕ) (r : CachedRequestState) : Columns :=
  { c with
    requestLoraMapping := update c.requestLoraMapping i
      ((r.loraRequest.map LoRARequest.loraIntId).getD 0) }

/-- All columns of `add_request`. -/
def addRequest (cfg : Config) (c : Columns) (i : ℕ) (r : CachedRequestState) :
    Except Fault Columns := do
  let c ← c.addTokens cfg i r
  match r.samplingParams, r.poolingParams with
  | some p, _ => return (← c.addSampling cfg i r p).addLora i r
  | none, some p =>
    return { c with
      logitsProcessingNeedsTokenIds :=
        update c.logitsProcessingNeedsTokenIds i p.requiresTokenIds }.addLora i r
  | none, none => .error .notImplementedError

/-- The columns that `remove_request` clears. -/
def removeRequest (c : Columns) (i : ℕ) : Columns :=
  { c with
    generators := update c.generators i none
    requestLoraMapping := update c.requestLoraMapping i 0
    allowedTokenIdsMask := c.allowedTokenIdsMask.map fun mask =>
      update mask i fun _ => false
    badWordsTokenIds := update c.badWordsTokenIds i none }

/-- Moving an entry of a dictionary by `pop` and, if there was one, a store. -/
def moveEntry {α : Type} (d : ℕ → Option α) (src tgt : ℕ) : ℕ → Option α :=
  match d src with
  | some v => update (update d src none) tgt (some v)
  | none => update d src none

/-- The columns that `condense` moves. -/
def moveRequest (c : Columns) (src tgt : ℕ) : Columns :=
  { c with
    tokenIdsCpu := copySlice c.tokenIdsCpu src tgt (c.numTokens src)
    numTokens := update c.numTokens tgt (c.numTokens src)
    numTokensNoSpec := update c.numTokensNoSpec tgt (c.numTokensNoSpec src)
    numPromptTokens := update c.numPromptTokens tgt (c.numPromptTokens src)
    numComputedTokensCpu :=
      update c.numComputedTokensCpu tgt (c.numComputedTokensCpu src)
    blockTables := c.blockTables.map fun t => t.moveRow src tgt
    temperatureCpu := update c.temperatureCpu tgt (c.temperatureCpu src)
    topPCpu := update c.topPCpu tgt (c.topPCpu src)
    topKCpu := update c.topKCpu tgt (c.topKCpu src)
    frequencyPenaltiesCpu :=
      update c.frequencyPenaltiesCpu tgt (c.frequencyPenaltiesCpu src)
    presencePenaltiesCpu :=
      update c.presencePenaltiesCpu tgt (c.presencePenaltiesCpu src)
    repetitionPenaltiesCpu :=
      update c.repetitionPenaltiesCpu tgt (c.repetitionPenaltiesCpu src)
    generators := moveEntry c.generators src tgt
    requestLoraMapping := update c.requestLoraMapping tgt (c.requestLoraMapping src)
    allowedTokenIdsMask := c.allowedTokenIdsMask.map fun mask =>
      update mask tgt (mask src)
    badWordsTokenIds := moveEntry c.badWordsTokenIds src tgt }

/-- The columns that `swap_states` exchanges. The rows of the mask are views of one tensor, so
that the second assignment reads what the first has just written. -/
def swapRequests (c : Columns) (i₁ i₂ : ℕ) : Columns :=
  { c with
    tokenIdsCpu := swapAt c.tokenIdsCpu i₁ i₂
    numTokens := swapAt c.numTokens i₁ i₂
    numTokensNoSpec := swapAt c.numTokensNoSpec i₁ i₂
    numPromptTokens := swapAt c.numPromptTokens i₁ i₂
    numComputedTokensCpu := swapAt c.numComputedTokensCpu i₁ i₂
    blockTables := c.blockTables.map fun t => t.swapRow i₁ i₂
    temperatureCpu := swapAt c.temperatureCpu i₁ i₂
    topPCpu := swapAt c.topPCpu i₁ i₂
    topKCpu := swapAt c.topKCpu i₁ i₂
    frequencyPenaltiesCpu := swapAt c.frequencyPenaltiesCpu i₁ i₂
    presencePenaltiesCpu := swapAt c.presencePenaltiesCpu i₁ i₂
    repetitionPenaltiesCpu := swapAt c.repetitionPenaltiesCpu i₁ i₂
    generators := swapAt c.generators i₁ i₂
    requestLoraMapping := swapAt c.requestLoraMapping i₁ i₂
    allowedTokenIdsMask := c.allowedTokenIdsMask.map fun mask =>
      update mask i₁ (mask i₂)
    badWordsTokenIds := swapAt c.badWordsTokenIds i₁ i₂ }

end Columns

/-! ### The sets of requests -/

/-- What the batch keeps by request and not by index. -/
structure RequestSets where
  greedyReqs : Finset ReqId := ∅
  randomReqs : Finset ReqId := ∅
  topPReqs : Finset ReqId := ∅
  topKReqs : Finset ReqId := ∅
  specDecodeUnsupportedReqs : Finset ReqId := ∅
  frequencyPenaltiesReqs : Finset ReqId := ∅
  presencePenaltiesReqs : Finset ReqId := ∅
  repetitionPenaltiesReqs : Finset ReqId := ∅
  hasAllowedTokenIds : Finset ReqId := ∅
  numLogprobs : ReqId → Option ℤ := fun _ => none
  numPromptLogprobs : ReqId → Option ℤ := fun _ => none
  poolingParams : ReqId → Option PoolingParams := fun _ => none
  loraIdToRequestIds : ℕ → Option (Finset ReqId) := fun _ => none
  loraIdToLoraRequest : ℕ → Option LoRARequest := fun _ => none

namespace RequestSets

/-- `set.add(req_id)` under a condition. -/
def addIf (condition : Bool) (ids : Finset ReqId) (id : ReqId) : Finset ReqId :=
  if condition then insert id ids else ids

def addSampling (cfg : Config) (sets : RequestSets) (id : ReqId) (p : SamplingParams) :
    RequestSets :=
  { sets with
    specDecodeUnsupportedReqs :=
      addIf (cfg.isSpecDecode && isSpecDecodeUnsupported p) sets.specDecodeUnsupportedReqs id
    greedyReqs := addIf p.isGreedy sets.greedyReqs id
    randomReqs := addIf (!p.isGreedy) sets.randomReqs id
    topPReqs := addIf (decide (p.topP < 1)) sets.topPReqs id
    topKReqs := addIf (decide (0 < p.topK ∧ p.topK < cfg.vocabSize)) sets.topKReqs id
    frequencyPenaltiesReqs :=
      addIf (decide (p.frequencyPenalty ≠ 0)) sets.frequencyPenaltiesReqs id
    presencePenaltiesReqs :=
      addIf (decide (p.presencePenalty ≠ 0)) sets.presencePenaltiesReqs id
    repetitionPenaltiesReqs :=
      addIf (decide (p.repetitionPenalty ≠ 1)) sets.repetitionPenaltiesReqs id
    numLogprobs :=
      match p.logprobs with
      | some n => update sets.numLogprobs id
          (some (if n = -1 then (cfg.vocabSize : ℤ) else n))
      | none => sets.numLogprobs
    numPromptLogprobs :=
      match p.promptLogprobs with
      | some n => update sets.numPromptLogprobs id (some n)
      | none => sets.numPromptLogprobs
    hasAllowedTokenIds :=
      addIf (!p.allowedTokenIds.isEmpty) sets.hasAllowedTokenIds id }

def addLora (sets : RequestSets) (r : CachedRequestState) : RequestSets :=
  match r.loraRequest with
  | some lora =>
    { sets with
      loraIdToRequestIds := update sets.loraIdToRequestIds lora.loraIntId
        (some (insert r.reqId ((sets.loraIdToRequestIds lora.loraIntId).getD ∅)))
      loraIdToLoraRequest :=
        update sets.loraIdToLoraRequest lora.loraIntId (some lora) }
  | none => sets

def addRequest (cfg : Config) (sets : RequestSets) (r : CachedRequestState) : RequestSets :=
  match r.samplingParams, r.poolingParams with
  | some p, _ => (sets.addSampling cfg r.reqId p).addLora r
  | none, some p =>
    { sets with
      poolingParams := update sets.poolingParams r.reqId (some p) }.addLora r
  | none, none => sets

/-- Dropping a request from the adapter at its index; the last one takes the adapter along. -/
def removeLora (sets : RequestSets) (id : ReqId) (loraId : ℕ) : Except Fault RequestSets :=
  if loraId = 0 then .ok sets
  else
    match sets.loraIdToRequestIds loraId with
    | none => .error .keyError
    | some ids =>
      if ids.erase id = ∅ then
        .ok { sets with
          loraIdToRequestIds := update sets.loraIdToRequestIds loraId none
          loraIdToLoraRequest := update sets.loraIdToLoraRequest loraId none }
      else
        .ok { sets with
          loraIdToRequestIds :=
            update sets.loraIdToRequestIds loraId (some (ids.erase id)) }

def removeRequest (sets : RequestSets) (id : ReqId) (loraId : ℕ) : Except Fault RequestSets :=
  { sets with
    greedyReqs := sets.greedyReqs.erase id
    randomReqs := sets.randomReqs.erase id
    topPReqs := sets.topPReqs.erase id
    topKReqs := sets.topKReqs.erase id
    specDecodeUnsupportedReqs := sets.specDecodeUnsupportedReqs.erase id
    frequencyPenaltiesReqs := sets.frequencyPenaltiesReqs.erase id
    presencePenaltiesReqs := sets.presencePenaltiesReqs.erase id
    repetitionPenaltiesReqs := sets.repetitionPenaltiesReqs.erase id
    hasAllowedTokenIds := sets.hasAllowedTokenIds.erase id
    numLogprobs := update sets.numLogprobs id none
    numPromptLogprobs := update sets.numPromptLogprobs id none
    poolingParams := update sets.poolingParams id none }.removeLora id loraId

end RequestSets

/-! ### The batch -/

structure InputBatch where
  reqIds : List (Option ReqId) := []
  reqIdToIndex : AList fun _ : ReqId => ℕ := ∅
  reqOutputTokenIds : List (Option OutputRef) := []
  columns : Columns
  sets : RequestSets := {}
  builder : BatchUpdateBuilder := {}

namespace InputBatch

/-- A batch before its first step, with one block table for each width. -/
def init (widths : List ℕ) : InputBatch :=
  { columns := { blockTables := widths.map fun width => { maxNumBlocksPerReq := width } } }

def numReqs (s : InputBatch) : ℕ := s.reqIdToIndex.keys.length

/-- `list[index] = value`. -/
def setItem {α : Type} (xs : List α) (i : ℕ) (x : α) : Except Fault (List α) :=
  if i < xs.length then .ok (xs.set i x) else .error .indexError

/-- `_get_next_add_index`: the lowest empty slot, or the end of the batch. -/
def getNextAddIndex (s : InputBatch) : ℕ × InputBatch :=
  match s.builder.popRemoved with
  | (some i, builder) => (i, { s with builder })
  | (none, builder) => (s.numReqs, { s with builder })

def registerAddRequest (cfg : Config) (s : InputBatch) (r : CachedRequestState) :
    Except Fault (ℕ × InputBatch) :=
  let (i, s) := s.getNextAddIndex
  if i < cfg.maxNumReqs then
    .ok (i, { s with
      builder := { s.builder with added := s.builder.added ++ [⟨i, r.params, r.outputRef⟩] } })
  else .error .assertionError

/-- Writing the request's id and its output list at its index. -/
def placeRequest (s : InputBatch) (i : ℕ) (r : CachedRequestState) : Except Fault InputBatch :=
  if i = s.reqIds.length then
    .ok { s with
      reqIds := s.reqIds ++ [some r.reqId]
      reqOutputTokenIds := s.reqOutputTokenIds ++ [some r.outputRef]
      reqIdToIndex := s.reqIdToIndex.insert r.reqId i }
  else do
    let reqIds ← setItem s.reqIds i (some r.reqId)
    let reqOutputTokenIds ← setItem s.reqOutputTokenIds i (some r.outputRef)
    return { s with
      reqIds, reqOutputTokenIds, reqIdToIndex := s.reqIdToIndex.insert r.reqId i }

def addRequest (cfg : Config) (s : InputBatch) (r : CachedRequestState) :
    Except Fault (ℕ × InputBatch) := do
  let (i, s) ← s.registerAddRequest cfg r
  let s ← s.placeRequest i r
  let columns ← s.columns.addRequest cfg i r
  return (i, { s with columns, sets := s.sets.addRequest cfg r })

def removeRequest (s : InputBatch) (id : ReqId) : Except Fault (Option ℕ × InputBatch) :=
  match s.reqIdToIndex.lookup id with
  | none => .ok (none, s)
  | some i => do
    let builder ← s.builder.removedAppend i
    let reqIds ← setItem s.reqIds i none
    let reqOutputTokenIds ← setItem s.reqOutputTokenIds i none
    let sets ← s.sets.removeRequest id (s.columns.requestLoraMapping i)
    return (some i, {
      reqIds, reqOutputTokenIds, sets, builder
      reqIdToIndex := s.reqIdToIndex.erase id
      columns := s.columns.removeRequest i })

/-- `while last_req_index in empty_req_indices: last_req_index -= 1`; `none` when the index has
become negative. -/
def largestNonEmpty (empty : List ℕ) : ℕ → Option ℕ
  | 0 => if 0 ∈ empty then none else some 0
  | last + 1 => if last + 1 ∈ empty then largestNonEmpty empty last else some (last + 1)

/-- The body of the loop of `condense`: the request at `last` moves to `empty`. -/
def moveRequest (s : InputBatch) (last empty : ℕ) : Except Fault InputBatch :=
  let builder := s.builder.popRemoved.2
  match s.reqIds[last]? with
  | none => .error .indexError
  | some none => .error .assertionError
  | some (some id) => do
    let output := (s.reqOutputTokenIds[last]?).join
    let reqIds ← setItem s.reqIds empty (some id)
    let reqIds ← setItem reqIds last none
    let reqOutputTokenIds ← setItem s.reqOutputTokenIds empty output
    let reqOutputTokenIds ← setItem reqOutputTokenIds last none
    return { s with
      reqIds, reqOutputTokenIds
      builder := { builder with moved := builder.moved ++ [⟨last, empty, .unidirectional⟩] }
      reqIdToIndex := s.reqIdToIndex.insert id empty
      columns := s.columns.moveRequest last empty }

/-- The loop of `condense`. Every round takes one of the removed indices, so that their number
bounds the rounds. -/
def condenseLoop : ℕ → InputBatch → ℕ → Except Fault InputBatch
  | 0, s, _ => .ok s
  | rounds + 1, s, last =>
    if s.builder.removedList = [] then .ok s
    else
      match largestNonEmpty s.builder.removedList last, s.builder.peekRemoved.1 with
      | none, _ => .ok s
      | some _, none => .error .assertionError
      | some last, some empty =>
        if last ≤ empty then .ok s
        else do
          let s ← s.moveRequest last empty
          condenseLoop rounds s (last - 1)

/-- `del xs[num_reqs:]` on both lists. -/
def trim (s : InputBatch) : InputBatch :=
  { s with
    reqIds := s.reqIds.take s.numReqs
    reqOutputTokenIds := s.reqOutputTokenIds.take s.numReqs }

/-- `condense` with the removed indices already read. -/
def fillEmpty (s : InputBatch) : Except Fault InputBatch :=
  if s.builder.removedList = [] then .ok s
  else if s.numReqs = 0 then .ok { s with reqIds := [], reqOutputTokenIds := [] }
  else do
    let s ← s.condenseLoop s.builder.removedList.length
      (s.numReqs + s.builder.removedList.length - 1)
    return s.trim

def condense (s : InputBatch) : Except Fault InputBatch :=
  fillEmpty { s with builder := s.builder.removed.2 }

def swapStates (s : InputBatch) (i₁ i₂ : ℕ) : Except Fault InputBatch :=
  match s.reqIds[i₁]?, s.reqIds[i₂]? with
  | some (some id₁), some (some id₂) =>
    match s.reqIdToIndex.lookup id₁, s.reqIdToIndex.lookup id₂ with
    | some k₁, some k₂ =>
      .ok { s with
        builder := { s.builder with moved := s.builder.moved ++ [⟨i₁, i₂, .swap⟩] }
        reqIds := (s.reqIds.set i₁ (some id₂)).set i₂ (some id₁)
        reqOutputTokenIds :=
          (s.reqOutputTokenIds.set i₁ (s.reqOutputTokenIds[i₂]?).join).set i₂
            (s.reqOutputTokenIds[i₁]?).join
        reqIdToIndex := (s.reqIdToIndex.insert id₁ k₂).insert id₂ k₁
        columns := s.columns.swapRequests i₁ i₂ }
    | _, _ => .error .keyError
  | some _, some _ => .error .assertionError
  | _, _ => .error .indexError

/-- `refresh_metadata`: the update that the logits processors get, and the batch with an empty
record. -/
def refreshMetadata (s : InputBatch) : Option BatchUpdate × InputBatch :=
  ((s.builder.getAndReset s.numReqs).1,
    { s with builder := (s.builder.getAndReset s.numReqs).2 })

end InputBatch

/-! ### One step of the model runner -/

/-- The requests that leave the batch and those that enter it. -/
structure StepChange where
  removes : List ReqId
  adds : List CachedRequestState
  deriving DecidableEq

namespace InputBatch

def removeAll (s : InputBatch) (ids : List ReqId) : Except Fault InputBatch :=
  ids.foldlM (fun s id => return (← s.removeRequest id).2) s

def addAll (cfg : Config) (s : InputBatch) (requests : List CachedRequestState) :
    Except Fault InputBatch :=
  requests.foldlM (fun s r => return (← s.addRequest cfg r).2) s

/-- The batch part of `_update_states`: removals, additions, `condense` and the refresh. -/
def update (cfg : Config) (s : InputBatch) (change : StepChange) : Except Fault InputBatch := do
  let s ← s.removeAll change.removes
  let s ← s.addAll cfg change.adds
  let s ← s.condense
  return s.refreshMetadata.2

end InputBatch

end Batch
