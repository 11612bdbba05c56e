import Mosaic.Block.BlockGraphs
import Mosaic.Graph.MemoryAnalyzer
import Mathlib.Data.List.Infix
import Mathlib.Order.Defs.LinearOrder

/-!
# The online search for a chunk configuration

Before a forward pass the searcher looks for a configuration whose activations fit into the
pool, less a safety margin. It starts without chunks. As long as the plan of the configuration
does not fit, it compares the peaks of the live memory in the attention part, the feed-forward
part and the logits, and cuts the highest of them into one more chunk. The attention part cannot
be cut: when it is the highest, the search gives up.

Peaks are compared in megabytes. How a number of bytes becomes a number of megabytes, and with
which rounding, is a parameter; only the order of the results matters.
-/

namespace Search

open Graph Block

/-! ### The parts of a block -/

/-- The text contains the keyword. -/
def hasText (keyword text : String) : Bool :=
  keyword.toList <:+: text.toList

/-- The peaks of the live memory, by the part of the block that a node belongs to. -/
structure Components (F : Type) where
  fixedPeakMb : F
  mlpPeakMb : F
  logitsPeakMb : F
  totalPeakMb : F
  deriving DecidableEq, Repr

/-- The keywords in the names of the nodes of the feed-forward part. -/
def mlpKeywords : List String :=
  ["mlp", "moe", "cache", "x_gate", "x_up", "x_mlp", "barrier"]

section Components

variable {F ν : Type} [LinearOrder F] [Zero F] [ToString ν]

/-- Count one step of the timeline. -/
def Components.count (mb : ℕ → F) (components : Components F) (step : TimelineStep ν) :
    Components F :=
  let nodeName := toString step.nodeName
  let totalMb := mb step.totalMemoryBytes
  let components := { components with totalPeakMb := max components.totalPeakMb totalMb }
  -- the keywords are tried in this order, and the first that occurs decides
  if hasText "logits" nodeName then
    { components with logitsPeakMb := max components.logitsPeakMb totalMb }
  else if mlpKeywords.any (hasText · nodeName) then
    { components with mlpPeakMb := max components.mlpPeakMb totalMb }
  else { components with fixedPeakMb := max components.fixedPeakMb totalMb }

/-- The peaks over a timeline. -/
def analyzeComponentsFromTimeline (mb : ℕ → F) (timeline : List (TimelineStep ν)) :
    Components F :=
  timeline.foldl (Components.count mb) ⟨0, 0, 0, 0⟩

end Components

/-! ### The search -/

/-- The family whose builders the search uses for a model. -/
def modelFamily (modelName : String) : Family :=
  let lower := String.ofList (modelName.toList.map Char.toLower)
  if hasText "moe" lower then .lladaMoe
  else if hasText "dream" lower then .dream
  else .llada

/-- The name under which a family's model calls the search. -/
def modelName : Family → String
  | .llada => "llada"
  | .dream => "dream"
  | .lladaMoe => "llada-moe"

theorem modelFamily_modelName (family : Family) : modelFamily (modelName family) = family := by
  cases family <;> decide

/-- The margin that stays free below the pool size, in bytes. -/
def safetyMarginBytes : ℤ :=
  900 * 1024 * 1024

/-- The margin that a configuration of an LLaDA-MoE model leaves below the budget, in bytes. -/
def minMarginBytes : ℤ :=
  700 * 1024 * 1024

/-- The configuration the search starts from. -/
def noChunk : ChunkStrategy :=
  ⟨false, false, 1, 1⟩

/-- A configuration with the size of its plan and its peaks. -/
structure SearchResult (F : Type) where
  strategy : ChunkStrategy
  totalBytes : ℕ
  components : Components F
  deriving DecidableEq, Repr

/-- The exceptions of the search. -/
inductive SearchError (F : Type) where
  | graph (error : GraphError TensorName)
  | fixedBottleneck (P O totalBytes : ℕ) (poolSize : ℤ) (components : Components F)

/-- The text of the exception, given how megabytes are shown and how bytes are shown in
gigabytes. -/
def SearchError.message {F : Type} (mbText : F → String) (gbText : ℤ → String) :
    SearchError F → String
  | .graph error => error.message
  | .fixedBottleneck P O totalBytes poolSize components =>
    let fixed := mbText components.fixedPeakMb
    let mlp := mbText components.mlpPeakMb
    let logits := mbText components.logitsPeakMb
    let needed := gbText totalBytes
    let pool := gbText poolSize
    s!"CUDA out of memory: Fixed 部分是瓶颈 ({fixed} MB)，无法通过 chunk 优化。\n" ++
      s!"请求: P={P}, O={O}, 需要 {needed} GB，但 pool 只有 {pool} GB。\n" ++
      s!"内存组成: fixed={fixed}MB, mlp={mlp}MB, logits={logits}MB\n" ++
      "建议：增加 activation pool 大小或减少请求长度。"

/-- The graph that a round analyses: the plain builder as long as nothing is chunked. -/
def searchGraph (family : Family) (config : ChunkStrategy) (P O : ℕ) :
    Except (GraphError TensorName) (CustomGraph TensorName) :=
  if !config.chunkLogits && !config.chunkMlp then family.graph none P O
  else family.graph (some config) P O

/-- The plan fits the budget, for LLaDA-MoE with room to spare. -/
def accepts (family : Family) (budget : ℤ) (totalBytes : ℕ) : Bool :=
  if totalBytes ≤ budget then
    if family = .lladaMoe then
      -- too little room is no reason to stop: the configuration is cut further
      let marginBytes := budget - totalBytes
      !decide (marginBytes < minMarginBytes)
    else true
  else false

theorem le_of_accepts {family : Family} {budget : ℤ} {totalBytes : ℕ}
    (h : accepts family budget totalBytes = true) : totalBytes ≤ budget := by
  unfold accepts at h
  split at h
  · assumption
  · cases h

section Search

variable {F : Type} [LinearOrder F] [Zero F]

/-- One more chunk for the part with the highest peak, nothing if that is the fixed part. -/
def cutBottleneck (config : ChunkStrategy) (components : Components F) : Option ChunkStrategy :=
  let fixedMb := components.fixedPeakMb
  let mlpMb := components.mlpPeakMb
  let logitsMb := components.logitsPeakMb
  let bottleneck := max (max fixedMb mlpMb) logitsMb
  -- where the peaks are equal, the logits come before the feed-forward part
  if bottleneck = logitsMb ∧ logitsMb > fixedMb then
    some { config with
      chunkLogits := true
      numChunksLogits := if config.chunkLogits then config.numChunksLogits + 1 else 2 }
  else if bottleneck = mlpMb ∧ mlpMb > fixedMb then
    some { config with
      chunkMlp := true
      numChunksMlp := if config.chunkMlp then config.numChunksMlp + 1 else 2 }
  else none

/-- How a round ends. -/
inductive Round (F : Type) where
  | accept (result : SearchResult F)
  | next (config : ChunkStrategy)

/-- One round: plan the configuration, and accept it or cut its bottleneck. -/
def searchRound (mb : ℕ → F) (family : Family) (P O : ℕ) (budget : ℤ) (config : ChunkStrategy) :
    Except (SearchError F) (Round F) :=
  match searchGraph family config P O >>= analyze with
  | .error error => .error (.graph error)
  | .ok analysis =>
    let totalBytes := analysis.reusePlan.totalBufferSizeBytes
    let components := analyzeComponentsFromTimeline mb analysis.memoryTimeline
    if accepts family budget totalBytes then .ok (.accept ⟨config, totalBytes, components⟩)
    else
      match cutBottleneck config components with
      | some config => .ok (.next config)
      | none => .error (.fixedBottleneck P O totalBytes budget components)

/-- The loop, followed for a number of rounds. There is no result when it has not ended then. -/
def searchLoop (mb : ℕ → F) (family : Family) (P O : ℕ) (budget : ℤ) :
    ℕ → ChunkStrategy → Option (Except (SearchError F) (SearchResult F))
  | 0, _ => none
  | rounds + 1, config =>
    match searchRound mb family P O budget config with
    | .error error => some (.error error)
    | .ok (.accept result) => some (.ok result)
    | .ok (.next config) => searchLoop mb family P O budget rounds config

/-- The search, followed for a number of rounds. -/
def searchOptimalConfigOnline (mb : ℕ → F) (P O : ℕ) (poolSize : ℤ) (modelName : String)
    (rounds : ℕ) : Option (Except (SearchError F) (SearchResult F)) :=
  searchLoop mb (modelFamily modelName) P O (poolSize - safetyMarginBytes) rounds noChunk

/-! ### What a round and a run do -/

variable {mb : ℕ → F} {family : Family} {P O : ℕ} {budget : ℤ} {config config' : ChunkStrategy}
  {components : Components F} {result : SearchResult F}

/-- Every part runs in at least one chunk. -/
structure Chunked (config : ChunkStrategy) : Prop where
  logits_pos : 0 < config.numChunksLogits
  mlp_pos : 0 < config.numChunksMlp

theorem chunked_noChunk : Chunked noChunk :=
  ⟨Nat.one_pos, Nat.one_pos⟩

omit [Zero F] in
/-- Cutting switches a part on with two chunks or adds a chunk to it. -/
theorem Chunked.cutBottleneck (h : Chunked config)
    (hcut : cutBottleneck config components = some config') : Chunked config' := by
  obtain ⟨hlog, hmlp⟩ := h
  unfold Search.cutBottleneck at hcut
  dsimp only at hcut
  split at hcut
  · cases hcut
    refine ⟨?_, hmlp⟩
    dsimp only
    split <;> omega
  · split at hcut
    · cases hcut
      refine ⟨hlog, ?_⟩
      dsimp only
      split <;> omega
    · cases hcut

/-- What a round does: the configuration has a plan, which is accepted, or else the bottleneck is
cut. -/
theorem searchRound_cases {round : Round F}
    (h : searchRound mb family P O budget config = .ok round) :
    ∃ analysis, (searchGraph family config P O >>= analyze) = .ok analysis ∧
      ((accepts family budget analysis.reusePlan.totalBufferSizeBytes = true ∧
        round = .accept ⟨config, analysis.reusePlan.totalBufferSizeBytes,
          analyzeComponentsFromTimeline mb analysis.memoryTimeline⟩) ∨
      accepts family budget analysis.reusePlan.totalBufferSizeBytes = false ∧
        ∃ config', cutBottleneck config
            (analyzeComponentsFromTimeline mb analysis.memoryTimeline) = some config' ∧
          round = .next config') := by
  unfold searchRound at h
  split at h
  · cases h
  · rename_i analysis hanalysis
    refine ⟨analysis, hanalysis, ?_⟩
    dsimp only at h
    split at h
    · rename_i haccepts
      cases h
      exact .inl ⟨haccepts, rfl⟩
    · rename_i hrejects
      split at h
      · rename_i config' hcut
        cases h
        exact .inr ⟨eq_false_of_ne_true hrejects, config', hcut, rfl⟩
      · cases h

/-- A result of the loop was accepted in a round, and every part runs in at least one chunk. -/
theorem searchLoop_eq_ok {rounds : ℕ} (hcfg : Chunked config)
    (h : searchLoop mb family P O budget rounds config = some (.ok result)) :
    Chunked result.strategy ∧
      ∃ analysis, (searchGraph family result.strategy P O >>= analyze) = .ok analysis ∧
        result.totalBytes = analysis.reusePlan.totalBufferSizeBytes ∧
        accepts family budget result.totalBytes = true := by
  -- by induction on the rounds: a round accepts its own configuration, or hands on a chunked one
  induction rounds generalizing config with
  | zero => cases h
  | succ rounds ih =>
    rw [searchLoop] at h
    cases hround : searchRound mb family P O budget config with
    | error error =>
      rw [hround] at h
      cases h
    | ok round =>
      rw [hround] at h
      obtain ⟨analysis, hanalysis, ⟨haccepts, rfl⟩ | ⟨-, _, hcut, rfl⟩⟩ :=
        searchRound_cases hround
      · cases h
        exact ⟨hcfg, analysis, hanalysis, rfl, haccepts⟩
      · exact ih (hcfg.cutBottleneck hcut) h

end Search

end Search
