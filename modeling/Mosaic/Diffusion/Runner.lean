import Mosaic.Control.Fallible
import Mosaic.Diffusion.Scheduler
import Mosaic.Tensor.MachineInt
import Mosaic.Tensor.Select
import Mosaic.Tensor.Slices
import Mathlib.Algebra.Order.BigOperators.Group.List
import Mathlib.Algebra.Order.Monoid.Unbundled.WithTop
import Mathlib.Algebra.Order.Ring.Unbundled.Rat

/-!
# One diffusion step of the model runner

The runner pads the sequences of a batch to one length, checks the parameters, computes how many
tokens each request may reveal in this step, runs the model on the concatenated sequences, and
reveals the most confident masked positions of the current block. The model answers with one
token and one confidence for each mask of the output part; it is a parameter here, and so are
the way ties are broken among equal confidences and what a tensor holds that was not filled. The
confidence `⊥` stands for minus infinity. Token ids are stored with 64 bits, the lengths and the
offsets of the concatenated sequences with 32.
-/

namespace Diffusion

open List Fallible Tensor
open MachineInt (narrow)

/-! ### Quotas -/

/-- Split the number of masks of each row evenly over the steps, the remainder first. -/
def getNumTransferTokens (maskIndex : List (List Bool)) (steps : ℕ) : List (List ℕ) :=
  maskIndex.map fun row =>
    let maskNum := row.count true
    (List.range steps).map fun i =>
      maskNum / steps + if i < maskNum % steps then 1 else 0

/-! ### The model -/

/-- The value can be stored as a 64-bit integer. -/
def FitsInt64 (v : ℤ) : Prop := -2 ^ 63 ≤ v ∧ v < 2 ^ 63

instance (v : ℤ) : Decidable (FitsInt64 v) := inferInstanceAs (Decidable (_ ∧ _))

theorem fitsInt64_toInt (v : Int64) : FitsInt64 v.toInt :=
  ⟨v.le_toInt, v.toInt_lt⟩

/-- What the model is run on. -/
structure ForwardContext where
  flatInputIds : List ℤ
  queryStartLoc : List ℤ
  seqLens : List ℤ
  positions : List ℤ
  promptLength : Option ℤ
  outputLength : Option ℤ
  maskIndices : List ℕ
  temperature : ℚ
  remasking : String

/-- The answer of the model: a token and a confidence for each mask. -/
structure ModelOutput (F : Type) (masks : ℕ) where
  index : List ℤ
  confidence : List (WithBot F)
  length_index : index.length = masks
  length_confidence : confidence.length = masks
  index_fits : ∀ v ∈ index, FitsInt64 v

/-- The tensors that a step allocates without filling them. -/
inductive FreshTensor where
  | flatInputIds | flatX | x0
  deriving DecidableEq

/-- The parts of a step that are not computed by the runner itself. -/
structure RunnerEnv (F : Type) [LinearOrder F] where
  model : (ctx : ForwardContext) → ModelOutput F ctx.maskIndices.length
  topk : Tensor.TopK (WithBot F)
  uninitialized : FreshTensor → ℕ → Int64

variable {F : Type} [LinearOrder F]

/-- What a tensor holds before it is filled. -/
def RunnerEnv.fresh (env : RunnerEnv F) (tensor : FreshTensor) (size : ℕ) : List ℤ :=
  (List.range size).map fun j => (env.uninitialized tensor j).toInt

/-! ### Preparing a batch -/

/-- Raise the exception unless the condition holds. -/
def require (c : Prop) [Decidable c] (e : PyError) : Except PyError Unit :=
  if c then .ok () else .error e

/-- The result of a store, or the exception for lengths that do not agree. -/
def stored {α : Type} : Option (List α) → Except PyError (List α)
  | some xs => .ok xs
  | none => .error .runtimeError

/-- The length of the longest sequence. -/
def maxTotalLen (r : DiffusionStepRequest) (rest : List DiffusionStepRequest) : ℤ :=
  rest.foldl (fun len r' => max len r'.totalLen) r.totalLen

/-- One row of the padded batch. -/
def padRow (maskId : ℤ) (maxTotalLen : ℕ) (x : List ℤ) : Except PyError (List ℤ) := do
  require (∀ t ∈ x, FitsInt64 t) .runtimeError
  stored (storeSlice (List.replicate maxTotalLen maskId) 0 x.length x)

/-- The lengths of the sequences, as they are stored. -/
def seqLens (requests : List DiffusionStepRequest) : List ℤ :=
  requests.map fun r => narrow r.totalLen

/-- Copy one sequence to its place. -/
def copyRow (flat : List ℤ) (s len : ℤ) (row : List ℤ) : Except PyError (List ℤ) :=
  let e := s + len
  if s < e then stored (storeSlice flat s e (slice row 0 len)) else .ok flat

/-- The loop that copies the sequences, each a row with its length, one behind the other. -/
def flatten : List (ℤ × List ℤ) → ℤ → List ℤ → Except PyError (List ℤ)
  | [], _, flat => .ok flat
  | (len, row) :: rows, start, flat => do
    let flat ← copyRow flat (narrow start) len row
    flatten rows (start + len) flat

/-- The divisibility checks on the parameters of the first request. -/
def checkParams (p : DiffusionParams) : Except PyError Unit :=
  if p.blockLength = 0 then .error .zeroDivisionError
  else if p.genLength.fmod p.blockLength ≠ 0 then .error (.assertionError "")
  else if p.genLength.fdiv p.blockLength = 0 then .error .zeroDivisionError
  else if p.steps.fmod (p.genLength.fdiv p.blockLength) ≠ 0 then .error (.assertionError "")
  else .ok ()

/-- The first and the last position of the current block, as far as it lies in the sequence. -/
def blockStart (r : DiffusionStepRequest) : ℤ := r.promptLen + r.blockIdx * r.params.blockLength

def blockEnd (r : DiffusionStepRequest) : ℤ :=
  min (blockStart r + r.params.blockLength) r.totalLen

/-- The positions of the current block, in a row of the padded batch. -/
def blockMask (maxTotalLen : ℕ) (r : DiffusionStepRequest) : List Bool :=
  (List.range maxTotalLen).map fun (j : ℕ) => decide (blockStart r ≤ j ∧ (j : ℤ) < blockEnd r)

/-- The tokens that one request reveals in each step of the current block. -/
def requestTokens (maxTotalLen : ℕ) (r : DiffusionStepRequest) : Except PyError (List ℕ) :=
  let bl := if r.params.blockLength ≤ 0 then 1 else r.params.blockLength
  if r.params.genLength.fmod bl ≠ 0 then
    .error (.assertionError "gen_length must be divisible by block_length per request")
  else
    let numBlocks := max 1 (r.params.genLength.fdiv bl)
    if r.params.steps.fmod numBlocks ≠ 0 then
      .error (.assertionError "steps must be divisible by num_blocks per request")
    else
      let spb := max 1 (r.params.steps.fdiv numBlocks)
      -- the quotas are a tensor with an entry of eight bytes for each step
      if ¬ FitsInt64 (8 * spb) then .error .runtimeError
      else .ok ((getNumTransferTokens [blockMask maxTotalLen r] spb.toNat).headD [])

/-- The positions of the masks among the tokens. -/
def maskIndices (maskId : ℤ) (tokens : List ℤ) : List ℕ :=
  (List.range tokens.length).filter fun j => tokens[j]? = some maskId

/-- Where each sequence begins, as it is stored, and where the last one ends. -/
def queryStartLoc (lens : List ℤ) : List ℤ := (lens.scanl (· + ·) 0).map narrow

/-- The position of each token in its sequence: its place less the beginning of the sequence. -/
def positions (lens : List ℤ) : List ℤ :=
  if 0 < lens.sum then
    List.zipWith (fun (k : ℕ) (start : ℤ) => k - start) (List.range lens.sum.toNat)
      ((lens.zip (queryStartLoc lens)).flatMap fun e => List.replicate e.1.toNat e.2)
  else []

/-- What the model is run on: the concatenated sequences, where each begins, and the masks after
the prompt of the first request. -/
def forwardContext (p : DiffusionParams) (promptLen : ℕ) (lens flat : List ℤ) :
    ForwardContext where
  flatInputIds := flat
  queryStartLoc := queryStartLoc lens
  seqLens := lens
  positions := positions lens
  promptLength := p.promptLength
  outputLength := p.outputLength
  maskIndices := maskIndices p.maskId (flat.drop promptLen)
  temperature := p.temperature
  remasking := p.remasking

/-- What a step has computed when it runs the model: the padded sequence and the quotas of the
first request, and what the model is run on. -/
structure PreparedStep where
  row : List ℤ
  tokens : List ℕ
  ctx : ForwardContext

/-- A step up to the run of the model. Guidance refers to a block table that is no longer built. -/
def prepareStep (env : RunnerEnv F) (r : DiffusionStepRequest)
    (rest : List DiffusionStepRequest) : Except PyError PreparedStep := do
  let p := r.params
  let requests := r :: rest
  require (∀ r' ∈ requests, FitsInt64 r'.totalLen) .runtimeError
  require (0 ≤ maxTotalLen r rest ∧ FitsInt64 (8 * requests.length * maxTotalLen r rest) ∧
    FitsInt64 p.maskId) .runtimeError
  let rows ← requests.mapM fun r' => padRow p.maskId (maxTotalLen r rest).toNat r'.x
  let lens := seqLens requests
  require (0 ≤ narrow lens.sum) .runtimeError
  let flat ← flatten (lens.zip rows) 0 (env.fresh .flatInputIds (narrow lens.sum).toNat)
  checkParams p
  let perReqTokens ← requests.mapM (requestTokens (maxTotalLen r rest).toNat)
  -- the offsets are repeated only if there are tokens, and then no length may be negative
  require (0 < lens.sum → ∀ len ∈ lens, 0 ≤ len) .runtimeError
  require (p.cfgScale ≤ 0) .nameError
  return ⟨rows.headD [], perReqTokens.headD [], forwardContext p r.promptLen lens flat⟩

/-! ### The update of the first request -/

/-- Position `j` of the first sequence is masked and lies in the current block, and in the part
of the sequence that was copied. -/
def valid (r : DiffusionStepRequest) (x : List ℤ) (j : ℕ) : Bool :=
  decide (x[j]? = some r.params.maskId ∧ blockStart r ≤ j ∧
    (j : ℤ) < min (narrow r.totalLen) (blockEnd r))

/-- The candidate token of every position; a position without a mask keeps what the fresh
tensor held. -/
def candidates (env : RunnerEnv F) (size : ℕ) (positions : List ℕ) (index : List ℤ) : List ℤ :=
  Tensor.scatter (env.fresh .x0 size) positions index

/-- The confidence of every position, which is `⊥` outside the masks of the current block. -/
def confidences (r : DiffusionStepRequest) (x : List ℤ) (positions : List ℕ)
    (confidence : List (WithBot F)) : List (WithBot F) :=
  Tensor.scatter (List.replicate x.length ⊥) positions
    (List.zipWith (fun j c => if valid r x j then c else ⊥) positions confidence)

/-- The positions to reveal: the most confident ones, within the quota of the step. -/
def selected (env : RunnerEnv F) (quota : ℕ) (confidence : List (WithBot F)) : List ℕ :=
  if 0 < quota then
    env.topk.select confidence (min quota (confidence.countP (⊥ < ·)))
  else []

/-- Reveal the selected positions of the first request. `x` is its sequence in a tensor that is
as long as the concatenated sequences. -/
def revealFirst (env : RunnerEnv F) (r : DiffusionStepRequest) (x : List ℤ) (tokens : List ℕ)
    (indices : List ℕ) (out : ModelOutput F indices.length) : DiffusionStepUpdate :=
  let t := narrow r.totalLen
  let positions := indices.map (r.promptLen + ·)
  -- nothing is stored for an empty output part
  let stores := 0 < t - r.promptLen
  let x0 := candidates env x.length (if stores then positions else []) out.index
  let confidence := confidences r x (if stores then positions else []) out.confidence
  let sel := selected env (tokens.getD r.stepIdxInBlock 0) (slice confidence 0 t)
  { reqId := r.reqId
    newX := slice (x.mapIdx fun j v => if j ∈ sel then x0[j]?.getD v else v) 0 r.totalLen
    blockIdx := r.blockIdx
    stepIdxInBlock := r.stepIdxInBlock }

/-- The update of the first request. `row` is its padded sequence, `size` the number of tokens. -/
def updateFirst (env : RunnerEnv F) (r : DiffusionStepRequest) (row : List ℤ) (size : ℤ)
    (tokens : List ℕ) (indices : List ℕ) (out : ModelOutput F indices.length) :
    Except PyError DiffusionStepUpdate := do
  require (0 ≤ size) .runtimeError
  let t := narrow r.totalLen
  let flatX ← stored (storeSlice (env.fresh .flatX size.toNat) 0 t (slice row 0 t))
  return revealFirst env r flatX tokens indices out

/-! ### The step -/

/-- One step for a batch. -/
def executeDiffusionOnce (env : RunnerEnv F) (batch : DiffusionStepBatch) :
    Except PyError (List DiffusionStepUpdate) :=
  match batch.requests with
  | [] => .ok []
  | r :: rest => do
    let prep ← prepareStep env r rest
    let update ← updateFirst env r prep.row prep.ctx.seqLens.sum prep.tokens
      prep.ctx.maskIndices (env.model prep.ctx)
    return [update]

/-! ### One iteration of the engine -/

/-- What one iteration did: the batch it handed to the runner, the requests it finished or the
exception it raised, and the scheduler it left. -/
structure StepOutcome where
  batch : Option DiffusionStepBatch
  finished : Except PyError (List FinishedDiffusionItem)
  scheduler : DiffusionScheduler

/-- Schedule a batch, run it and apply the updates. -/
def diffusionStep (env : RunnerEnv F) (s : DiffusionScheduler) : StepOutcome :=
  if !s.hasActiveRequests then ⟨none, .ok [], s⟩
  else
    match s.scheduleStep with
    | (.error e, s) => ⟨none, .error e, s⟩
    | (.ok none, s) => ⟨none, .ok [], s⟩
    | (.ok (some batch), s) =>
      match executeDiffusionOnce env batch with
      | .error e => ⟨some batch, .error e, s⟩
      | .ok updates =>
        ⟨some batch, .ok (s.applyUpdatesAndCollectFinished updates).1,
          (s.applyUpdatesAndCollectFinished updates).2⟩

/-! ### What a step returns -/

variable {r : DiffusionStepRequest}

theorem require_eq_ok {c : Prop} [Decidable c] {e : PyError} {u : Unit} :
    require c e = .ok u ↔ c := by
  unfold require
  split
  · simp [*]
  · simp [*]

theorem stored_eq_ok {α : Type} {o : Option (List α)} {xs : List α} :
    stored o = .ok xs ↔ o = some xs := by
  cases o with
  | none => simp [stored]
  | some ys => simp [stored]

theorem updateFirst_eq_ok {env : RunnerEnv F} {row : List ℤ} {size : ℤ} {tokens indices : List ℕ}
    {out : ModelOutput F indices.length} {up : DiffusionStepUpdate} :
    updateFirst env r row size tokens indices out = .ok up ↔
      0 ≤ size ∧ ∃ flatX, storeSlice (env.fresh .flatX size.toNat) 0 (narrow r.totalLen)
        (slice row 0 (narrow r.totalLen)) = some flatX ∧
        revealFirst env r flatX tokens indices out = up := by
  unfold updateFirst
  rw [bind_eq_ok]
  constructor
  · rintro ⟨_, hsize, h⟩
    obtain ⟨flatX, hflatX, h⟩ := bind_eq_ok.mp h
    exact ⟨require_eq_ok.mp hsize, flatX, stored_eq_ok.mp hflatX, Except.ok.inj h⟩
  · rintro ⟨hsize, flatX, hflatX, rfl⟩
    exact ⟨(), require_eq_ok.mpr hsize, bind_eq_ok.mpr ⟨flatX, stored_eq_ok.mpr hflatX, rfl⟩⟩

/-- A step that returns has run the model, and returns one update. -/
theorem executeDiffusionOnce_eq_ok_iff {env : RunnerEnv F} {rest : List DiffusionStepRequest}
    {updates : List DiffusionStepUpdate} :
    executeDiffusionOnce env ⟨r :: rest⟩ = .ok updates ↔
      ∃ prep up, prepareStep env r rest = .ok prep ∧
        updateFirst env r prep.row prep.ctx.seqLens.sum prep.tokens prep.ctx.maskIndices
          (env.model prep.ctx) = .ok up ∧ updates = [up] := by
  unfold executeDiffusionOnce
  dsimp only
  rw [bind_eq_ok]
  constructor
  · rintro ⟨prep, hprep, h⟩
    obtain ⟨up, hup, h⟩ := bind_eq_ok.mp h
    exact ⟨prep, up, hprep, hup, (Except.ok.inj h).symm⟩
  · rintro ⟨prep, up, hprep, hup, rfl⟩
    exact ⟨prep, hprep, bind_eq_ok.mpr ⟨up, hup, rfl⟩⟩

/-- A step that returns does so with one update, for the first request. -/
theorem executeDiffusionOnce_eq_ok {env : RunnerEnv F}
    {rest : List DiffusionStepRequest} {updates : List DiffusionStepUpdate}
    (h : executeDiffusionOnce env ⟨r :: rest⟩ = .ok updates) :
    ∃ up, updates = [up] ∧ up.reqId = r.reqId := by
  obtain ⟨_, up, -, hup, rfl⟩ := executeDiffusionOnce_eq_ok_iff.mp h
  obtain ⟨-, _, -, rfl⟩ := updateFirst_eq_ok.mp hup
  exact ⟨_, rfl, rfl⟩

/-- What an iteration does. It leaves an idle scheduler alone. Otherwise it refills the scheduler,
and either runs nothing, or hands the step requests of the refilled scheduler to the runner and
applies the updates that come back, if any do. -/
theorem diffusionStep_cases (env : RunnerEnv F) (s : DiffusionScheduler) :
    diffusionStep env s = ⟨none, .ok [], s⟩ ∨
      (∃ finished, (∀ items, finished = .ok items → items = []) ∧
        diffusionStep env s = ⟨none, finished, s.ensureRunningCapacity.2⟩) ∨
      ∃ batch : DiffusionStepBatch, batch.requests = s.ensureRunningCapacity.2.stepRequests ∧
        ((∃ e, diffusionStep env s = ⟨some batch, .error e, s.ensureRunningCapacity.2⟩) ∨
          ∃ updates, executeDiffusionOnce env batch = .ok updates ∧
            diffusionStep env s = ⟨some batch,
              .ok (s.ensureRunningCapacity.2.applyUpdatesAndCollectFinished updates).1,
              (s.ensureRunningCapacity.2.applyUpdatesAndCollectFinished updates).2⟩) := by
  have hstate := s.scheduleStep_state
  unfold diffusionStep
  split
  · exact .inl rfl
  · -- in all other cases the refilled scheduler is the one that goes on
    split
    · rename_i heq
      rw [heq] at hstate
      dsimp only at hstate
      exact .inr (.inl ⟨.error _, nofun, by rw [hstate]⟩)
    · rename_i heq
      rw [heq] at hstate
      dsimp only at hstate
      refine .inr (.inl ⟨.ok [], ?_, by rw [hstate]⟩)
      intro items hitems
      exact (Except.ok.inj hitems).symm
    · rename_i batch _ heq
      obtain ⟨hbatch, -⟩ :=
        s.requests_of_scheduleStep (show s.scheduleStep.1 = .ok (some batch) by rw [heq])
      rw [heq] at hstate
      subst hstate
      refine .inr (.inr ⟨batch, hbatch, ?_⟩)
      cases hexec : executeDiffusionOnce env batch with
      | error e => exact .inl ⟨e, rfl⟩
      | ok updates => exact .inr ⟨updates, rfl, rfl⟩

/-! ### Up to the run of the model -/

/-- What has passed when the model is run. -/
structure Prepares (env : RunnerEnv F) (r : DiffusionStepRequest)
    (rest : List DiffusionStepRequest) (rows : List (List ℤ)) (flat : List ℤ)
    (tokens : List (List ℕ)) : Prop where
  totals_fit : ∀ r' ∈ r :: rest, FitsInt64 r'.totalLen
  width : 0 ≤ maxTotalLen r rest
  size : FitsInt64 (8 * (r :: rest).length * maxTotalLen r rest)
  maskId_fits : FitsInt64 r.params.maskId
  padded : (r :: rest).mapM (fun r' => padRow r.params.maskId (maxTotalLen r rest).toNat r'.x) =
    .ok rows
  length : 0 ≤ narrow (seqLens (r :: rest)).sum
  copied : flatten ((seqLens (r :: rest)).zip rows) 0
    (env.fresh .flatInputIds (narrow (seqLens (r :: rest)).sum).toNat) = .ok flat
  params : checkParams r.params = .ok ()
  quotas : (r :: rest).mapM (requestTokens (maxTotalLen r rest).toNat) = .ok tokens
  repeats : 0 < (seqLens (r :: rest)).sum → ∀ len ∈ seqLens (r :: rest), 0 ≤ len
  unguided : r.params.cfgScale ≤ 0

theorem prepareStep_eq_ok {env : RunnerEnv F} {rest : List DiffusionStepRequest}
    {prep : PreparedStep} : prepareStep env r rest = .ok prep ↔
      ∃ rows flat tokens, Prepares env r rest rows flat tokens ∧
        prep = ⟨rows.headD [], tokens.headD [],
          forwardContext r.params r.promptLen (seqLens (r :: rest)) flat⟩ := by
  unfold prepareStep
  constructor
  · intro h
    obtain ⟨_, htotals, h⟩ := bind_eq_ok.mp h
    obtain ⟨_, hwidth, h⟩ := bind_eq_ok.mp h
    obtain ⟨rows, hrows, h⟩ := bind_eq_ok.mp h
    obtain ⟨_, hlength, h⟩ := bind_eq_ok.mp h
    obtain ⟨flat, hflat, h⟩ := bind_eq_ok.mp h
    obtain ⟨⟨⟩, hparams, h⟩ := bind_eq_ok.mp h
    obtain ⟨tokens, htokens, h⟩ := bind_eq_ok.mp h
    obtain ⟨_, hrepeats, h⟩ := bind_eq_ok.mp h
    obtain ⟨_, hguided, h⟩ := bind_eq_ok.mp h
    obtain ⟨hwidth, hsize, hmask⟩ := require_eq_ok.mp hwidth
    exact ⟨rows, flat, tokens, ⟨require_eq_ok.mp htotals, hwidth, hsize, hmask, hrows,
      require_eq_ok.mp hlength, hflat, hparams, htokens, require_eq_ok.mp hrepeats,
      require_eq_ok.mp hguided⟩, (Except.ok.inj h).symm⟩
  · rintro ⟨rows, flat, tokens, h, rfl⟩
    refine bind_eq_ok.mpr ⟨(), require_eq_ok.mpr h.totals_fit, bind_eq_ok.mpr
      ⟨(), require_eq_ok.mpr ⟨h.width, h.size, h.maskId_fits⟩, bind_eq_ok.mpr ⟨rows, h.padded, ?_⟩⟩⟩
    refine bind_eq_ok.mpr ⟨(), require_eq_ok.mpr h.length, bind_eq_ok.mpr ⟨flat, h.copied,
      bind_eq_ok.mpr ⟨(), h.params, bind_eq_ok.mpr ⟨tokens, h.quotas, ?_⟩⟩⟩⟩
    exact bind_eq_ok.mpr ⟨(), require_eq_ok.mpr h.repeats,
      bind_eq_ok.mpr ⟨(), require_eq_ok.mpr h.unguided, rfl⟩⟩

theorem slice_zero_of_nonneg {α : Type*} (xs : List α) {j : ℤ} (h : 0 ≤ j) :
    slice xs 0 j = xs.take j.toNat := by
  unfold slice
  rw [if_neg (not_lt.mpr h), drop_zero]

theorem length_fresh (env : RunnerEnv F) (tensor : FreshTensor) (size : ℕ) :
    (env.fresh tensor size).length = size := by
  simp [RunnerEnv.fresh]

theorem narrow_le {n : ℤ} (h : 0 ≤ n) : narrow n ≤ n := by
  unfold narrow
  omega

theorem padRow_eq_ok {maskId : ℤ} {width : ℕ} {x row : List ℤ}
    (h : padRow maskId width x = .ok row) : (∀ t ∈ x, FitsInt64 t) ∧
      storeSlice (List.replicate width maskId) 0 x.length x = some row := by
  obtain ⟨_, hfits, h⟩ := bind_eq_ok.mp h
  exact ⟨require_eq_ok.mp hfits, stored_eq_ok.mp h⟩

theorem length_of_padRow {maskId : ℤ} {width : ℕ} {x row : List ℤ}
    (h : padRow maskId width x = .ok row) : row.length = width := by
  rw [length_of_storeSlice (padRow_eq_ok h).2, length_replicate]

/-- A sequence that is not too long can be padded, and so can a single token in a row of no
tokens, where it is stored nowhere. -/
theorem padRow_isOk (maskId : ℤ) {width : ℕ} {x : List ℤ} :
    (∃ row, padRow maskId width x = .ok row) ↔
      (∀ t ∈ x, FitsInt64 t) ∧ (x.length ≤ width ∨ x.length = 1) := by
  have hstore : (∃ row, storeSlice (List.replicate width maskId) 0 x.length x = some row) ↔
      x.length ≤ width ∨ x.length = 1 := by
    rw [storeSlice_isSome_iff]
    simp only [length_replicate, sliceBound]
    omega
  rw [← hstore]
  constructor
  · rintro ⟨row, h⟩
    obtain ⟨hfits, hrow⟩ := padRow_eq_ok h
    exact ⟨hfits, row, hrow⟩
  · rintro ⟨hfits, row, hrow⟩
    exact ⟨row, bind_eq_ok.mpr ⟨(), require_eq_ok.mpr hfits, stored_eq_ok.mpr hrow⟩⟩

/-- A sequence that is not too long is padded behind. -/
theorem padRow_of_le (maskId : ℤ) {width : ℕ} {x : List ℤ} (hfits : ∀ t ∈ x, FitsInt64 t)
    (hle : x.length ≤ width) :
    padRow maskId width x = .ok (x ++ List.replicate (width - x.length) maskId) := by
  refine bind_eq_ok.mpr ⟨(), require_eq_ok.mpr hfits, stored_eq_ok.mpr ?_⟩
  have hstore := storeSlice_of_le (List.replicate width maskId) x (k := 0)
    (by simpa using hle)
  simpa using hstore

/-- The sequences stand one behind the other, as long as their offsets fit. -/
theorem flatten_eq_ok {rows : List (ℤ × List ℤ)} (start : ℕ) (flat : List ℤ)
    (hrows : ∀ e ∈ rows, 0 ≤ e.1 ∧ e.1 ≤ e.2.length)
    (hlength : start + (rows.map Prod.fst).sum = (flat.length : ℤ)) (hfits : flat.length < 2 ^ 31) :
    flatten rows start flat =
      .ok (flat.take start ++ rows.flatMap fun e => e.2.take e.1.toNat) := by
  -- The induction is on the rows that are left; `start` is where the next one is copied to.
  induction rows generalizing start flat with
  | nil =>
    have hstart : flat.length ≤ start := by
      simp only [map_nil, sum_nil] at hlength
      omega
    rw [flatMap_nil, append_nil, take_of_length_le hstart]
    rfl
  | cons e rows ih =>
    obtain ⟨len, row⟩ := e
    obtain ⟨⟨hnonneg, hle⟩, hrest⟩ := forall_mem_cons.mp hrows
    dsimp only at hnonneg hle
    have hsum : 0 ≤ (rows.map Prod.fst).sum := by
      apply List.sum_nonneg
      intro n hn
      obtain ⟨e, he, rfl⟩ := mem_map.mp hn
      exact (hrest e he).1
    rw [map_cons, sum_cons] at hlength
    -- The offset is at most the length of the buffer, so that 32 bits hold it.
    have hstart : narrow (start : ℤ) = start := by
      unfold narrow
      omega
    have hsrc : (row.take len.toNat).length = len.toNat := by
      rw [length_take]
      omega
    have hend : (start : ℤ) + len = ((start + len.toNat : ℕ) : ℤ) := by omega
    have hstep : copyRow flat start len row =
        .ok (flat.take start ++ row.take len.toNat ++ flat.drop (start + len.toNat)) := by
      unfold copyRow
      dsimp only
      rw [slice_zero_of_nonneg _ hnonneg]
      split
      · have hstore := storeSlice_of_le flat (row.take len.toNat) (k := start)
          (by omega)
        rw [hsrc, ← hend] at hstore
        exact stored_eq_ok.mpr hstore
      · obtain rfl : len = 0 := by omega
        simp
    rw [flatten, hstart]
    refine bind_eq_ok.mpr ⟨_, hstep, ?_⟩
    rw [hend, ih (start + len.toNat) _ hrest]
    · rw [take_append_of_le_length, take_of_length_le, flatMap_cons, append_assoc]
      all_goals
        simp only [length_append, length_take, hsrc]
        omega
    · simp only [length_append, length_take, length_drop, hsrc]
      omega
    · simp only [length_append, length_take, length_drop, hsrc]
      omega

theorem length_revealFirst (env : RunnerEnv F) (h : 0 ≤ r.totalLen) (x : List ℤ)
    (tokens indices : List ℕ) (out : ModelOutput F indices.length) :
    (revealFirst env r x tokens indices out).newX.length = min r.totalLen.toNat x.length := by
  simp only [revealFirst, slice_zero_of_nonneg _ h, length_take, length_mapIdx]

/-! ### One request -/

/-- The request passes every check of a step. -/
structure Steppable (r : DiffusionStepRequest) : Prop where
  nonneg : 0 ≤ r.totalLen
  size : FitsInt64 (8 * r.totalLen)
  length : 0 ≤ narrow r.totalLen
  fits : r.x.length ≤ r.totalLen.toNat ∨ r.x.length = 1
  x_fits : ∀ t ∈ r.x, FitsInt64 t
  maskId_fits : FitsInt64 r.params.maskId
  params : checkParams r.params = .ok ()
  tokens : ∃ tokens, requestTokens r.totalLen.toNat r = .ok tokens
  unguided : r.params.cfgScale ≤ 0

/-- For a single request the offsets are right, also where its length does not fit. -/
theorem flatten_single (env : RunnerEnv F) {row : List ℤ} {len : ℤ} (hlen : 0 ≤ len)
    (hrow : row.length = r.totalLen.toNat) (hle : len ≤ r.totalLen) (hfits : len < 2 ^ 31) :
    flatten [(len, row)] 0 (env.fresh .flatInputIds len.toNat) = .ok (row.take len.toNat) := by
  have hlast : ∀ e ∈ [(len, row)], 0 ≤ e.1 ∧ e.1 ≤ e.2.length := by
    simp only [mem_singleton, forall_eq]
    omega
  have h := flatten_eq_ok 0 (env.fresh .flatInputIds len.toNat) hlast
    (by simp only [length_fresh, map_cons, map_nil, sum_singleton]; omega)
    (by rw [length_fresh]; omega)
  simpa using h

section Single

variable {env : RunnerEnv F}

theorem seqLens_single (r : DiffusionStepRequest) : (seqLens [r]).sum = narrow r.totalLen := by
  simp [seqLens]

theorem narrow_narrow (n : ℤ) : narrow (narrow n) = narrow n :=
  MachineInt.narrow_of_fits (MachineInt.fits_narrow n)

/-- What a step for one request does up to the run of the model. -/
theorem prepareStep_single (h : Steppable r) {row : List ℤ} {tokens : List ℕ}
    (hrow : padRow r.params.maskId r.totalLen.toNat r.x = .ok row)
    (htokens : requestTokens r.totalLen.toNat r = .ok tokens) :
    prepareStep env r [] = .ok ⟨row, tokens, forwardContext r.params r.promptLen (seqLens [r])
      (row.take (narrow r.totalLen).toNat)⟩ := by
  have hnonneg := h.nonneg
  have hsize := h.size
  have hlength := h.length
  have hnarrow := MachineInt.fits_narrow r.totalLen
  refine prepareStep_eq_ok.mpr ⟨[row], _, [tokens], ?_, rfl⟩
  exact {
    totals_fit := by
      rintro r' hr'
      obtain rfl := mem_singleton.mp hr'
      unfold FitsInt64 at hsize ⊢
      omega
    width := hnonneg
    size := by simpa [maxTotalLen] using hsize
    maskId_fits := h.maskId_fits
    padded := by
      rw [mapM_cons, mapM_nil]
      exact bind_eq_ok.mpr ⟨row, hrow, rfl⟩
    length := by rwa [seqLens_single, narrow_narrow]
    copied := by
      rw [seqLens_single, narrow_narrow]
      exact flatten_single env hlength (length_of_padRow hrow) (narrow_le hnonneg) hnarrow.2
    params := h.params
    quotas := by
      rw [mapM_cons, mapM_nil]
      exact bind_eq_ok.mpr ⟨tokens, htokens, rfl⟩
    repeats := by
      intro _ len hlen
      rw [seqLens, map_singleton, mem_singleton] at hlen
      rwa [hlen]
    unguided := h.unguided }

/-- The copy of the first sequence into a tensor of the same length. -/
theorem storeSlice_flatX (env : RunnerEnv F) (row : List ℤ) {len : ℤ} (hlen : 0 ≤ len) (size : ℕ)
    (hrow : len ≤ row.length) (hsize : len ≤ size) :
    storeSlice (env.fresh .flatX size) 0 len (slice row 0 len) =
      some (row.take len.toNat ++ (env.fresh .flatX size).drop len.toNat) := by
  have hsrc : (row.take len.toNat).length = len.toNat := by
    rw [length_take]
    omega
  have hstore := storeSlice_of_le (env.fresh .flatX size) (row.take len.toNat) (k := 0)
    (by rw [length_fresh]; omega)
  have hcast : ((0 + len.toNat : ℕ) : ℤ) = len := by omega
  rw [hsrc, hcast] at hstore
  simpa [slice_zero_of_nonneg _ hlen] using hstore

/-- A step for one request that passes the checks. The sequence that it reveals in is cut to
what is left of its length in 32 bits. -/
theorem executeDiffusionOnce_single (env : RunnerEnv F) (h : Steppable r) {row : List ℤ}
    {tokens : List ℕ}
    (hrow : padRow r.params.maskId r.totalLen.toNat r.x = .ok row)
    (htokens : requestTokens r.totalLen.toNat r = .ok tokens) :
    let x := row.take (narrow r.totalLen).toNat
    let ctx := forwardContext r.params r.promptLen (seqLens [r]) x
    executeDiffusionOnce env ⟨[r]⟩ =
      .ok [revealFirst env r x tokens ctx.maskIndices (env.model ctx)] := by
  intro x ctx
  have hlength := h.length
  have hlt := MachineInt.fits_narrow r.totalLen
  refine executeDiffusionOnce_eq_ok_iff.mpr ⟨_, _, prepareStep_single h hrow htokens,
    updateFirst_eq_ok.mpr ⟨?_, x, ?_, rfl⟩, rfl⟩
  · simp only [forwardContext, seqLens_single]
    exact hlength
  · have hle := narrow_le h.nonneg
    have hwidth := length_of_padRow hrow
    simp only [forwardContext, seqLens_single]
    rw [storeSlice_flatX env _ hlength _ (by omega) (by omega),
      drop_of_length_le (by rw [length_fresh]), append_nil]

/-- Exactly the requests that pass the checks can be stepped alone. -/
theorem executeDiffusionOnce_single_isOk (env : RunnerEnv F) (r : DiffusionStepRequest) :
    (∃ updates, executeDiffusionOnce env ⟨[r]⟩ = .ok updates) ↔ Steppable r := by
  constructor
  · rintro ⟨updates, h⟩
    obtain ⟨_, _, hprep, -, -⟩ := executeDiffusionOnce_eq_ok_iff.mp h
    obtain ⟨_, _, _, hprep, -⟩ := prepareStep_eq_ok.mp hprep
    have hrows := hprep.padded
    have htokens := hprep.quotas
    have hlength := hprep.length
    have hsize := hprep.size
    rw [mapM_cons] at hrows htokens
    obtain ⟨row, hrow, -⟩ := bind_eq_ok.mp hrows
    obtain ⟨tokens, htokens, -⟩ := bind_eq_ok.mp htokens
    rw [seqLens_single, narrow_narrow] at hlength
    obtain ⟨hx, hfits⟩ := (padRow_isOk _).mp ⟨row, hrow⟩
    exact {
      nonneg := hprep.width
      size := by simpa [maxTotalLen] using hsize
      length := hlength
      fits := hfits
      x_fits := hx
      maskId_fits := hprep.maskId_fits
      params := hprep.params
      tokens := ⟨tokens, htokens⟩
      unguided := hprep.unguided }
  · intro h
    obtain ⟨tokens, htokens⟩ := h.tokens
    obtain ⟨row, hrow⟩ := (padRow_isOk r.params.maskId).mpr ⟨h.x_fits, h.fits⟩
    exact ⟨_, executeDiffusionOnce_single env h hrow htokens⟩

end Single

/-! ### Batches -/

/-- A step of the batch returns one update for each of its requests, and each request gets the
sequence that it gets when it is stepped alone. -/
def Independent (env : RunnerEnv F) (batch : DiffusionStepBatch) : Prop :=
  ∃ updates, executeDiffusionOnce env batch = .ok updates ∧
    List.Forall₂ (fun r up => up.reqId = r.reqId ∧
      ∃ alone, executeDiffusionOnce env ⟨[r]⟩ = .ok [alone] ∧ up.newX = alone.newX)
      batch.requests updates

/-- One update is returned for all of the requests, so there is no other request. -/
theorem Independent.rest_eq_nil {env : RunnerEnv F}
    {rest : List DiffusionStepRequest} (h : Independent env ⟨r :: rest⟩) : rest = [] := by
  obtain ⟨_, hok, heach⟩ := h
  obtain ⟨_, rfl, _⟩ := executeDiffusionOnce_eq_ok hok
  simpa using heach.length_eq

/-- A batch is stepped independently if and only if it holds a single request, and this request
passes the checks: only the first request of a batch gets an update. -/
theorem independent_iff_single (env : RunnerEnv F) (r : DiffusionStepRequest)
    (rest : List DiffusionStepRequest) :
    Independent env ⟨r :: rest⟩ ↔ rest = [] ∧ Steppable r := by
  constructor
  · intro h
    obtain rfl := h.rest_eq_nil
    obtain ⟨updates, hok, _⟩ := h
    exact ⟨rfl, (executeDiffusionOnce_single_isOk env r).mp ⟨updates, hok⟩⟩
  · intro ⟨hrest, hstep⟩
    subst hrest
    obtain ⟨updates, hok⟩ := (executeDiffusionOnce_single_isOk env r).mpr hstep
    obtain ⟨up, rfl, hid⟩ := executeDiffusionOnce_eq_ok hok
    exact ⟨[up], hok, .cons ⟨hid, up, hok, rfl⟩ .nil⟩

/-- A model that gives every mask the same token and the same confidence. -/
def constantEnv (token : Int64) : RunnerEnv ℕ where
  model ctx :=
    { index := List.replicate ctx.maskIndices.length token.toInt
      confidence := List.replicate ctx.maskIndices.length (0 : ℕ)
      length_index := length_replicate
      length_confidence := length_replicate
      index_fits := by
        intro v hv
        rw [eq_of_mem_replicate hv]
        exact fitsInt64_toInt token }
  topk := .ofSort
  uninitialized := fun _ _ => 0

/-- Two requests, each of which can be stepped alone: the step of their batch is not
independent. -/
theorem second_request_not_updated :
    let params : DiffusionParams := { steps := 2, genLength := 2, blockLength := 1 }
    let s : DiffusionScheduler := { maxBatchSize := 999, modelRunner := some ⟨some ⟨true⟩⟩ }
    ∃ batch, ((s.addRequest ⟨"a", [1], params⟩).addRequest
        ⟨"b", [2, 3], params⟩).scheduleStep.1 = .ok (some batch) ∧
      (∀ r ∈ batch.requests, Steppable r) ∧ ¬ Independent (constantEnv 7) batch := by
  intro params s
  refine ⟨_, rfl, ?_, ?_⟩
  · intro r hr
    obtain rfl | hr := mem_cons.mp hr
    · exact ⟨by decide, by decide, by decide, by decide, by decide, by decide, by decide,
        ⟨_, rfl⟩, by decide⟩
    · obtain rfl := mem_singleton.mp hr
      exact ⟨by decide, by decide, by decide, by decide, by decide, by decide, by decide,
        ⟨_, rfl⟩, by decide⟩
  · intro h
    exact cons_ne_nil _ _ h.rest_eq_nil

end Diffusion
