import Mosaic.Engine.Core

/-!
# Admission of requests

Before a request reaches the engine, its parameters are verified when they are constructed, and
the processor checks them against the model and fills in the lengths. None of these checks looks
at a diffusion parameter. How numbers are shown in messages, and the validation of structured
outputs, which depends on the backend, are parameters.
-/

namespace Engine

open Diffusion

inductive RequestOutputKind where
  | cumulative
  | delta
  | finalOnly
  deriving DecidableEq

/-- The sampling parameters of a client, after their defaults are filled in. -/
structure ClientParams extends SamplingParams where
  n : ℤ := 1
  bestOf : Option ℤ := none
  realN : Option ℤ := none
  presencePenalty : ℚ := 0
  frequencyPenalty : ℚ := 0
  repetitionPenalty : ℚ := 1
  topP : ℚ := 1
  topK : ℤ := 0
  minP : ℚ := 0
  stop : List String := []
  maxTokens : Option ℤ := some 16
  minTokens : ℤ := 0
  logprobs : Option ℤ := none
  promptLogprobs : Option ℤ := none
  detokenize : Bool := true
  hasLogitsProcessors : Bool := false
  truncatePromptTokens : Option ℤ := none
  outputKind : RequestOutputKind := .cumulative
  logitBiasTokens : List ℤ := []
  allowedTokenIds : Option (List ℤ) := none

/-- A check that raises with a message. -/
def check (passes : Bool) (message : String) : Except String Unit :=
  if passes then .ok () else .error message

/-- A check of a value that may be missing. -/
def checkSome {α : Type} (value : Option α) (passes : α → Bool) (message : α → String) :
    Except String Unit :=
  match value with
  | none => .ok ()
  | some v => check (passes v) (message v)

/-- The verification of the parameters, check by check. -/
def ClientParams.verifyArgs (float : ℚ → String) (p : ClientParams) : Except String Unit := do
  check (1 ≤ p.n) s!"n must be at least 1, got {p.n}."
  checkSome p.bestOf (1 ≤ ·) fun b => s!"best_of must be at least 1, got {b}"
  checkSome p.bestOf (p.n ≤ ·) fun b =>
    s!"best_of must be greater than or equal to n, got n={p.n} and best_of={b}."
  check (-2 ≤ p.presencePenalty && p.presencePenalty ≤ 2)
    ("presence_penalty must be in [-2, 2], got " ++ float p.presencePenalty ++ ".")
  check (-2 ≤ p.frequencyPenalty && p.frequencyPenalty ≤ 2)
    ("frequency_penalty must be in [-2, 2], got " ++ float p.frequencyPenalty ++ ".")
  check (0 < p.repetitionPenalty)
    ("repetition_penalty must be greater than zero, got " ++ float p.repetitionPenalty ++ ".")
  check (0 ≤ p.temperature)
    ("temperature must be non-negative, got " ++ float p.temperature ++ ".")
  check (0 < p.topP && p.topP ≤ 1) ("top_p must be in (0, 1], got " ++ float p.topP ++ ".")
  check (-1 ≤ p.topK) s!"top_k must be 0 (disable), or at least 1, got {p.topK}."
  check (0 ≤ p.minP && p.minP ≤ 1) ("min_p must be in [0, 1], got " ++ float p.minP ++ ".")
  checkSome p.maxTokens (1 ≤ ·) fun m => s!"max_tokens must be at least 1, got {m}."
  check (0 ≤ p.minTokens)
    s!"min_tokens must be greater than or equal to 0, got {p.minTokens}."
  checkSome p.maxTokens (p.minTokens ≤ ·) fun m =>
    s!"min_tokens must be less than or equal to max_tokens={m}, got {p.minTokens}."
  checkSome p.logprobs (fun l => l = -1 || 0 ≤ l) fun l =>
    s!"logprobs must be non-negative or -1, got {l}."
  checkSome p.promptLogprobs (0 ≤ ·) fun l => s!"prompt_logprobs must be non-negative, got {l}."
  checkSome p.truncatePromptTokens (1 ≤ ·) fun t => s!"truncate_prompt_tokens must be >= 1, got {t}"
  check (p.stop.all fun s => s ≠ "") "stop cannot contain an empty string."
  check (p.stop.isEmpty || p.detokenize)
    "stop strings are only supported when detokenize is True. Set detokenize=True to use stop."
  check (p.bestOf = p.realN || p.outputKind ≠ .delta)
    "best_of must equal n to use output_kind=DELTA"

/-- What the processor knows of the tokenizer. -/
structure TokenizerInfo where
  vocabSize : ℤ
  maxTokenId : ℤ

/-- What the processor knows of the model. Without a tokenizer, token ids are not checked. -/
structure Processor where
  maxLogprobs : ℤ := 20
  vocabSize : ℤ
  tokenizer : Option TokenizerInfo
  maxModelLen : ℕ
  validateStructuredOutput : ClientParams → Except String Unit := fun _ => .ok ()

namespace Processor

def validateLogprobs (proc : Processor) (p : ClientParams) : Except String Unit :=
  if proc.maxLogprobs = -1 then .ok ()
  else do
    checkSome p.logprobs (fun l => l = 0 || (l ≠ -1 && l ≤ proc.maxLogprobs)) fun l =>
      s!"Requested sample logprobs of {l}, which is greater than max allowed: {proc.maxLogprobs}"
    checkSome p.promptLogprobs (fun l => l = 0 || l ≤ proc.maxLogprobs) fun l =>
      s!"Requested prompt logprobs of {l}, which is greater than max allowed: {proc.maxLogprobs}"

def validateSamplingParams (proc : Processor) (p : ClientParams) : Except String Unit := do
  proc.validateStructuredOutput p
  let invalid := p.logitBiasTokens.filter fun t => t < 0 || t ≥ proc.vocabSize
  check invalid.isEmpty
    (s!"token_id(s) {invalid} in logit_bias contain out-of-vocab token ids. Vocabulary size: " ++
      s!"{proc.vocabSize}")
  match p.allowedTokenIds with
  | none => return ()
  | some ids =>
    check (!ids.isEmpty) "allowed_token_ids is not None and empty!"
    match proc.tokenizer with
    | none => return ()
    | some tokenizer =>
      check (ids.all fun t => 0 ≤ t && t < tokenizer.vocabSize)
        "allowed_token_ids contains out-of-vocab token id!"

def validateSupportedSamplingParams (p : ClientParams) : Except String Unit := do
  checkSome p.bestOf (· ≤ 1) fun _ => "vLLM V1 does not yet support best_of."
  check (!p.hasLogitsProcessors)
    "vLLM V1 does not support per request user provided logits processors."

def validateModelInput (proc : Processor) (promptIds : List ℤ) : Except String Unit := do
  check (!promptIds.isEmpty) "The decoder prompt cannot be empty"
  checkSome proc.tokenizer (fun tokenizer => promptIds.all (· ≤ tokenizer.maxTokenId)) fun _ =>
    s!"Token id {promptIds.foldl max 0} is out of vocabulary"
  check (promptIds.length ≤ proc.maxModelLen)
    (s!"The decoder prompt (length {promptIds.length}) is longer than the maximum model length " ++
      s!"of {proc.maxModelLen}. Make sure that `max_model_len` is no smaller than the number of " ++
      "text tokens.")

/-- Check a request and fill in its lengths: the length of the prompt is always taken from the
prompt, the length of the output only if the client gave none. -/
def processInputs (proc : Processor) (requestId : String) (promptIds : List ℤ)
    (p : ClientParams) : Except String Request := do
  proc.validateLogprobs p
  proc.validateSamplingParams p
  validateSupportedSamplingParams p
  proc.validateModelInput promptIds
  let sampling := { p.toSamplingParams with
    promptLength := some promptIds.length
    outputLength := some (p.outputLength.getD p.genLength) }
  return ⟨requestId, promptIds, some sampling, none, 0⟩

end Processor

/-- A request whose parameters were verified and that the processor accepted. -/
structure Admitted (float : ℚ → String) (proc : Processor) where
  requestId : String
  promptIds : List ℤ
  params : ClientParams
  request : Request
  verified : params.verifyArgs float = .ok ()
  processed : proc.processInputs requestId promptIds params = .ok request

namespace Admitted

variable {float : ℚ → String} {proc : Processor}

/-- The request that the engine gets. -/
theorem request_eq (r : Admitted float proc) :
    r.request = ⟨r.requestId, r.promptIds, some { r.params.toSamplingParams with
      promptLength := some r.promptIds.length
      outputLength := some (r.params.outputLength.getD r.params.genLength) }, none, 0⟩ := by
  have h := r.processed
  simp only [Processor.processInputs, bind, Except.bind, pure, Except.pure] at h
  split at h
  · cases h
  · split at h
    · cases h
    · split at h
      · cases h
      · split at h
        · cases h
        · exact (Except.ok.inj h).symm

/-- The diffusion request that the engine makes of it. -/
def toDiffusionRequest (r : Admitted float proc) : DiffusionRequest :=
  r.request.toDiffusionRequest

theorem toDiffusionRequest_eq (r : Admitted float proc) :
    r.toDiffusionRequest = ⟨r.requestId, r.promptIds,
      { steps := r.params.steps
        genLength := r.params.genLength
        blockLength := r.params.blockLength
        temperature := r.params.temperature
        cfgScale := r.params.cfgScale
        remasking := r.params.remasking
        maskId := r.params.maskId
        promptLength := some r.promptIds.length
        outputLength := some (r.params.outputLength.getD r.params.genLength) }⟩ := by
  rw [toDiffusionRequest, r.request_eq]
  rfl

end Admitted

end Engine
