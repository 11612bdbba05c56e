import Mosaic.Graph.CustomGraph

/-!
# The computation graphs of the transformer blocks

One block of LLaDA, Dream or LLaDA-MoE is a graph of fourteen tensors, and of sixteen when its
feed-forward part runs in chunks: the chunk buffers are then needed again in every round, which
the graph expresses by two barrier operations behind the loop. The output of the block is
aliased to its input, so that the next block finds it there.

The three families have the same attention part and differ in sizes and names and in the
feed-forward part.
-/

namespace Block

open Graph

/-- The tensors of the blocks. All but the router logits live in the activation pool. -/
inductive TensorName where
  | x | xNormed | q | k | v | attTmp | attOutVar | attOut | xNormed2 | residual
  | mlpX | mlpXUp | mlpGated | xGate | xUp | xMlp | mlpOutput
  | moeCache1 | moeCache2 | moeCache3 | moeOutput
  | mlpLoopHazardBarrier | moeLoopHazardBarrier | xnorm2Barrier
  | finalOutput | logits | routerLogits
  deriving DecidableEq, Repr

/-- The names under which the graphs know the tensors. -/
def TensorName.text : TensorName → String
  | .x => "x"
  | .xNormed => "x_normed"
  | .q => "q"
  | .k => "k"
  | .v => "v"
  | .attTmp => "att_tmp"
  | .attOutVar => "att_out_var"
  | .attOut => "att_out"
  | .xNormed2 => "x_normed_2"
  | .residual => "residual"
  | .mlpX => "mlp_x"
  | .mlpXUp => "mlp_x_up"
  | .mlpGated => "mlp_gated"
  | .xGate => "x_gate"
  | .xUp => "x_up"
  | .xMlp => "x_mlp"
  | .mlpOutput => "mlp_output"
  | .moeCache1 => "moe_cache1"
  | .moeCache2 => "moe_cache2"
  | .moeCache3 => "moe_cache3"
  | .moeOutput => "moe_output"
  | .mlpLoopHazardBarrier => "mlp_loop_hazard_barrier"
  | .moeLoopHazardBarrier => "moe_loop_hazard_barrier"
  | .xnorm2Barrier => "xnorm2_barrier"
  | .finalOutput => "final_output"
  | .logits => "logits"
  | .routerLogits => "router_logits"

instance : ToString TensorName := ⟨TensorName.text⟩

/-- A call of `addOp`. -/
abbrev Call := CustomGraph.OpCall TensorName

/-! ### Families -/

/-- The constants of a family of blocks. The feed-forward calls take the number of rows of the
intermediate tensors and the number of tokens. -/
structure BlockConfig where
  hiddenSize : ℕ
  queryWidth : ℕ
  kvWidth : ℕ
  vocabSize : ℕ
  normOp : String
  attention : TensorName
  attentionOp : String
  attentionShape : ℕ → List ℕ
  feedForward : ℕ → ℕ → List Call
  feedForwardOutput : TensorName
  loopHazardBarrier : TensorName
  loopHazardInputs : List TensorName
  logitsOp : String

/-- Two projections, their gated product, and a projection back. -/
def denseFeedForward (gate up gated : TensorName) (gateOp gatedOp downOp : String)
    (hiddenSize intermediateSize rows N : ℕ) : List Call :=
  [⟨gate, gateOp, [.xNormed2], [rows, intermediateSize], .bfloat16⟩,
    ⟨up, "up_proj", [.xNormed2], [rows, intermediateSize], .bfloat16⟩,
    ⟨gated, gatedOp, [gate, up], [rows, intermediateSize], .bfloat16⟩,
    ⟨.mlpOutput, downOp, [gated], [N, hiddenSize], .bfloat16⟩]

/-- Two grouped products with the expert weights and the weighted sum of the experts. -/
def moeFeedForward (hiddenSize expertIntermediate topk rows N : ℕ) : List Call :=
  [⟨.moeCache1, "moe_gemm1", [.xNormed2], [rows, topk, expertIntermediate * 2], .bfloat16⟩,
    ⟨.moeCache2, "silu_and_mul", [.moeCache1], [rows * topk, expertIntermediate], .bfloat16⟩,
    ⟨.moeCache3, "moe_gemm2", [.moeCache2], [rows, topk, hiddenSize], .bfloat16⟩,
    ⟨.moeOutput, "moe_weighted_sum", [.moeCache3], [N, hiddenSize], .bfloat16⟩]

/-- LLaDA blocks. -/
def llada : BlockConfig where
  hiddenSize := 4096
  queryWidth := 4096
  kvWidth := 32 * (4096 / 32)
  vocabSize := 126464
  normOp := "attn_norm"
  attention := .attTmp
  attentionOp := "attention_op"
  attentionShape N := [N, 32, 4096 / 32]
  feedForward := denseFeedForward .mlpX .mlpXUp .mlpGated "ff_proj" "mul_op" "ff_out" 4096 12288
  feedForwardOutput := .mlpOutput
  loopHazardBarrier := .mlpLoopHazardBarrier
  loopHazardInputs := [.mlpX, .mlpXUp, .mlpGated, .mlpOutput]
  logitsOp := "get_logits"

/-- Dream blocks. -/
def dream : BlockConfig where
  hiddenSize := 3584
  queryWidth := 28 * (3584 / 28)
  kvWidth := 4 * (3584 / 28)
  vocabSize := 152064
  normOp := "input_layernorm"
  attention := .attOutVar
  attentionOp := "flash_attention"
  attentionShape N := [N, 28, 3584 / 28]
  feedForward := denseFeedForward .xGate .xUp .xMlp "gate_proj" "mul_gate" "down_proj" 3584 18944
  feedForwardOutput := .mlpOutput
  loopHazardBarrier := .mlpLoopHazardBarrier
  loopHazardInputs := [.xGate, .xUp, .xMlp, .mlpOutput]
  logitsOp := "lm_head"

/-- LLaDA-MoE blocks. -/
def lladaMoe : BlockConfig where
  hiddenSize := 2048
  queryWidth := 16 * (2048 / 16)
  kvWidth := 16 * (2048 / 16)
  vocabSize := 157184
  normOp := "input_layernorm"
  attention := .attOutVar
  attentionOp := "flash_attention"
  attentionShape N := [N, 16 * (2048 / 16)]
  feedForward := moeFeedForward 2048 1024 8
  feedForwardOutput := .moeOutput
  loopHazardBarrier := .moeLoopHazardBarrier
  loopHazardInputs := [.moeCache1, .moeCache2, .moeCache3, .moeOutput]
  logitsOp := "lm_head"

/-! ### Graphs -/

/-- The calls up to the first residual connection. -/
def attentionCalls (c : BlockConfig) (N : ℕ) : List Call :=
  [⟨.x, "placeholder", [], [N, c.hiddenSize], .bfloat16⟩,
    ⟨.xNormed, c.normOp, [.x], [N, c.hiddenSize], .bfloat16⟩,
    ⟨.q, "q_proj", [.xNormed], [N, c.queryWidth], .bfloat16⟩,
    ⟨.k, "k_proj", [.xNormed], [N, c.kvWidth], .bfloat16⟩,
    ⟨.v, "v_proj", [.xNormed], [N, c.kvWidth], .bfloat16⟩,
    ⟨c.attention, c.attentionOp, [.q, .k, .v], c.attentionShape N, .bfloat16⟩,
    ⟨.attOut, "o_proj", [c.attention], [N, c.hiddenSize], .bfloat16⟩,
    ⟨.xNormed2, "fused_add_rms_norm_out", [.x, .attOut], [N, c.hiddenSize], .bfloat16⟩,
    ⟨.residual, "fused_add_rms_norm_out", [.x, .attOut], [N, c.hiddenSize], .bfloat16⟩]

/-- The barriers behind a chunk loop. -/
def barrierCalls (c : BlockConfig) : List Call :=
  [⟨c.loopHazardBarrier, "barrier", c.loopHazardInputs, [1], .int8⟩,
    ⟨.xnorm2Barrier, "barrier", [.xNormed2], [1], .int8⟩]

/-- The second residual connection. -/
def finalCall (c : BlockConfig) (N : ℕ) : Call :=
  ⟨.finalOutput, "add_residual_2", [.residual, c.feedForwardOutput], [N, c.hiddenSize], .bfloat16⟩

/-- Close a block: its output reuses the memory of its input, and the logits follow. -/
def finishBlock (c : BlockConfig) (graph : CustomGraph TensorName) (logitsRows : ℕ) :
    Except (GraphError TensorName) (CustomGraph TensorName) := do
  -- the alias comes before the logits, which are placed with the output in its final place
  let graph ← graph.addAlias .finalOutput .x
  graph.addOp .logits c.logitsOp [.finalOutput] [logitsRows, c.vocabSize] .bfloat16

/-- The graph of a block that runs in one piece. -/
def blockGraph (c : BlockConfig) (N M : ℕ) :
    Except (GraphError TensorName) (CustomGraph TensorName) := do
  let graph ← (CustomGraph.empty TensorName).addOps
    (attentionCalls c N ++ c.feedForward N N ++ [finalCall c N])
  finishBlock c graph M

/-- The number of rows of a chunk when `count` rows are split into `numChunks` chunks. -/
def maxChunkSize (count numChunks : ℕ) : ℕ :=
  (count + numChunks - 1) / numChunks

/-- The graph of a block whose feed-forward part and whose logits may run in chunks. -/
def blockGraphChunkwise (c : BlockConfig) (N M : ℕ) (chunkLogits chunkMlp : Bool)
    (numChunksLogits numChunksMlp : ℕ) :
    Except (GraphError TensorName) (CustomGraph TensorName) := do
  -- without chunks the numbers of chunks are not looked at
  let maxChunkSizeMlp := if chunkMlp then maxChunkSize N numChunksMlp else N
  let maxChunkSizeLogits := if chunkLogits then maxChunkSize M numChunksLogits else M
  let feedForward :=
    -- the output has all rows even when the intermediate tensors have those of one chunk
    if chunkMlp then c.feedForward maxChunkSizeMlp N ++ barrierCalls c
    else c.feedForward N N
  let graph ← (CustomGraph.empty TensorName).addOps
    (attentionCalls c N ++ feedForward ++ [finalCall c N])
  finishBlock c graph maxChunkSizeLogits

/-! ### The builders -/

def defineLladaBlockGraph (P O : ℕ) : Except (GraphError TensorName) (CustomGraph TensorName) :=
  blockGraph llada P O

def defineLladaBlockGraphChunkwise (P O : ℕ) (chunkLogits chunkMlp : Bool)
    (numChunksLogits numChunksMlp : ℕ) :
    Except (GraphError TensorName) (CustomGraph TensorName) :=
  blockGraphChunkwise llada P O chunkLogits chunkMlp numChunksLogits numChunksMlp

def defineDreamBlockGraph (N M : ℕ) : Except (GraphError TensorName) (CustomGraph TensorName) :=
  blockGraph dream N M

def defineDreamBlockGraphChunkwise (N M : ℕ) (chunkLogits chunkMlp : Bool)
    (numChunksLogits numChunksMlp : ℕ) :
    Except (GraphError TensorName) (CustomGraph TensorName) :=
  blockGraphChunkwise dream N M chunkLogits chunkMlp numChunksLogits numChunksMlp

def defineLladaMoeBlockGraph (N M : ℕ) :
    Except (GraphError TensorName) (CustomGraph TensorName) :=
  blockGraph lladaMoe N M

def defineLladaMoeBlockGraphChunkwise (N M : ℕ) (chunkLogits chunkMoe : Bool)
    (numChunksLogits numChunksMoe : ℕ) :
    Except (GraphError TensorName) (CustomGraph TensorName) :=
  blockGraphChunkwise lladaMoe N M chunkLogits chunkMoe numChunksLogits numChunksMoe

/-! ### Choosing a builder -/

/-- The three families. -/
inductive Family where
  | llada | dream | lladaMoe
  deriving DecidableEq, Repr

/-- The constants of a family. -/
def Family.config : Family → BlockConfig
  | .llada => Block.llada
  | .dream => Block.dream
  | .lladaMoe => Block.lladaMoe

/-- Which parts of a forward pass run in chunks, and in how many. -/
structure ChunkStrategy where
  chunkLogits : Bool
  chunkMlp : Bool
  numChunksLogits : ℕ
  numChunksMlp : ℕ
  deriving DecidableEq, Repr

/-- The graph for a strategy. Without a strategy nothing runs in chunks. -/
def Family.graph (family : Family) (strategy : Option ChunkStrategy) (N M : ℕ) :
    Except (GraphError TensorName) (CustomGraph TensorName) :=
  match family, strategy with
  | .llada, none => defineLladaBlockGraph N M
  | .llada, some s => defineLladaBlockGraphChunkwise N M s.chunkLogits s.chunkMlp
      s.numChunksLogits s.numChunksMlp
  | .dream, none => defineDreamBlockGraph N M
  | .dream, some s => defineDreamBlockGraphChunkwise N M s.chunkLogits s.chunkMlp
      s.numChunksLogits s.numChunksMlp
  | .lladaMoe, none => defineLladaMoeBlockGraph N M
  | .lladaMoe, some s => defineLladaMoeBlockGraphChunkwise N M s.chunkLogits s.chunkMlp
      s.numChunksLogits s.numChunksMlp

end Block
