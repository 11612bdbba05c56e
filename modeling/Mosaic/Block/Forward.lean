import Mosaic.Block.BlockGraphs
import Mosaic.Graph.PlannerSafety

/-!
# The forward pass as a tensor program

The layers of a model run one after the other on the same tensors. Each layer normalises its
input, attends, adds the residual, runs its feed-forward part in one piece or chunk by chunk,
and adds the residual again into the tensor that the next layer takes as its input. After the
last layer the hidden states are normalised in place and the logits of the masked tokens are
computed, in one piece or chunk by chunk, and handed to the sampler.

What the kernels compute is left open. The only thing fixed is what they read and write, and
that the last addition is elementwise.
-/

namespace Block

open Graph Arena

/-- The operations of the models. -/
inductive ModelOp where
  | embedding | inputNorm | qProj | kProj | vProj | addBias | qkNorm | rotary | attention | oProj
  | fusedAddRmsNorm | gateProj | upProj | silu | mul | downProj
  | gate | moeGemm1 | siluAndMul | moeGemm2 | moeSum | finalNorm | logits
  deriving DecidableEq, Repr

/-- What the operations compute. An operation of a layer and a chunk stores in each cell of its
output a value that may depend on everything it reads. The last addition of a layer computes
each element from the elements of its inputs. -/
structure Semantics (α : Type) where
  numExperts : ℕ
  op : ModelOp → ℕ → ℕ → List (List α) → TensorName → ℕ → α
  add : ℕ → List (List α) → ℕ → α

/-- The bytes of one row of a tensor: of one index of its first dimension. -/
def rowBytes (g : CustomGraph TensorName) (name : TensorName) : ℕ :=
  ((g.nodes name).map fun node =>
    node.outputSpec.shape.tail.prod * node.outputSpec.dtype.bytesPerElement).getD 0

/-- The rows from `lo` up to `hi` of a tensor. -/
def slice (g : CustomGraph TensorName) (name : TensorName) (lo hi : ℕ) : View TensorName :=
  ⟨name, lo * rowBytes g name, (hi - lo) * rowBytes g name⟩

/-- The rows from `lo` up to `hi` of the router logits, a tensor outside of the pool. -/
def routerSlice (numExperts lo hi : ℕ) : View TensorName :=
  ⟨.routerLogits, lo * (numExperts * 2), (hi - lo) * (numExperts * 2)⟩

section Programs

variable {α : Type} (family : Family) (g : CustomGraph TensorName) (sem : Semantics α)
  (layer chunk : ℕ)

/-- Run an operation that reads and writes the given views. -/
def launch (op : ModelOp) (reads writes : List (View TensorName)) : Arena.Op TensorName α :=
  .kernel ⟨reads, writes, sem.op op layer chunk⟩

/-- Run an operation on a view in place. -/
def update (op : ModelOp) (v : View TensorName) : Arena.Op TensorName α :=
  .inPlace v fun old i => sem.op op layer chunk [old] v.tensor i

/-- What happens to the queries, keys and values in place: biases, norms and positions. -/
def qkvUpdates : Family → List (ModelOp × TensorName)
  | .llada => [(.rotary, .q), (.rotary, .k)]
  | .dream => [(.addBias, .q), (.addBias, .k), (.addBias, .v), (.rotary, .q), (.rotary, .k)]
  | .lladaMoe => [(.qkNorm, .q), (.qkNorm, .k), (.rotary, .q), (.rotary, .k)]

/-- A layer up to the first residual connection. -/
def attentionProgram : List (Arena.Op TensorName α) :=
  let run := launch sem layer 0
  let tensor := tensorView g
  let att := family.config.attention
  [run .inputNorm [tensor .x] [tensor .xNormed],
    run .qProj [tensor .xNormed] [tensor .q],
    run .kProj [tensor .xNormed] [tensor .k],
    run .vProj [tensor .xNormed] [tensor .v]] ++
  (qkvUpdates family).map (fun entry => update sem layer 0 entry.1 (tensor entry.2)) ++
  [run .attention [tensor .q, tensor .k, tensor .v] [tensor att],
    run .oProj [tensor att] [tensor .attOut],
    run .fusedAddRmsNorm [tensor .x, tensor .attOut] [tensor .xNormed2, tensor .residual]]

/-- The gated feed-forward part on the rows from `lo` up to `hi`. The intermediate tensors are
used from their first row on. -/
def denseRows (gate up gated : TensorName) (lo hi : ℕ) : List (Arena.Op TensorName α) :=
  let run := launch sem layer chunk
  let t := hi - lo
  -- the last chunk may be shorter, and then uses a part of the intermediate tensors
  [run .gateProj [slice g .xNormed2 lo hi] [slice g gate 0 t],
    run .upProj [slice g .xNormed2 lo hi] [slice g up 0 t],
    update sem layer chunk .silu (slice g gate 0 t),
    run .mul [slice g gate 0 t, slice g up 0 t] [slice g gated 0 t],
    run .downProj [slice g gated 0 t] [slice g .mlpOutput lo hi]]

/-- The experts on the rows from `lo` up to `hi`. The router logits choose the experts in the
first product and weigh them in the second. -/
def moeRows (lo hi : ℕ) : List (Arena.Op TensorName α) :=
  let run := launch sem layer chunk
  let t := hi - lo
  let router := routerSlice sem.numExperts lo hi
  -- the second cache has a row for each pair of a token and one of its eight experts
  [run .moeGemm1 [slice g .xNormed2 lo hi, router] [slice g .moeCache1 0 t],
    run .siluAndMul [slice g .moeCache1 0 t] [slice g .moeCache2 0 (t * 8)],
    run .moeGemm2 [slice g .moeCache2 0 (t * 8), router] [slice g .moeCache3 0 t],
    run .moeSum [slice g .moeCache3 0 t] [slice g .moeOutput lo hi]]

/-- The feed-forward part of a family on some rows. -/
def feedForwardRows (lo hi : ℕ) : List (Arena.Op TensorName α) :=
  match family with
  | .llada => denseRows g sem layer chunk .mlpX .mlpXUp .mlpGated lo hi
  | .dream => denseRows g sem layer chunk .xGate .xUp .xMlp lo hi
  | .lladaMoe => moeRows g sem layer chunk lo hi

/-- The router logits of all tokens, which the experts need before the first chunk. -/
def routerProgram (N : ℕ) : List (Arena.Op TensorName α) :=
  match family with
  | .lladaMoe => [launch sem layer 0 .gate [tensorView g .xNormed2]
      [routerSlice sem.numExperts 0 N]]
  | _ => []

/-- The rounds of a chunk loop, with their number and their bounds. -/
def chunkLoop (count tile : ℕ) (body : ℕ → ℕ → ℕ → List (Arena.Op TensorName α)) :
    List (Arena.Op TensorName α) :=
  -- the number of rounds may be smaller than the number of chunks that was asked for
  (List.range ((count + tile - 1) / tile)).flatMap fun i =>
    body i (i * tile) (min (i * tile + tile) count)

/-- The feed-forward part of a layer. -/
def feedForwardProgram (strategy : Option ChunkStrategy) (N : ℕ) :
    List (Arena.Op TensorName α) :=
  routerProgram family g sem layer N ++
  match strategy with
  | some ⟨_, true, _, numChunks⟩ =>
    chunkLoop N (maxChunkSize N numChunks) (feedForwardRows family g sem layer)
  | _ => feedForwardRows family g sem layer 0 0 N

/-- One layer. The addition works on elements of two bytes. -/
def layerProgram (strategy : Option ChunkStrategy) (N : ℕ) : List (Arena.Op TensorName α) :=
  attentionProgram family g sem layer ++ feedForwardProgram family g sem layer strategy N ++
  [.elementwise 2 (N * family.config.hiddenSize)
      [tensorView g .residual, tensorView g family.config.feedForwardOutput]
      (tensorView g .finalOutput) (sem.add layer),
    -- the next layer finds its input in the memory of the final output
    .rebind .x .finalOutput (g.tensorSize .finalOutput)]

/-- The logits of some masked tokens, handed to the sampler at once. -/
def logitsRows (layers lo hi : ℕ) : List (Arena.Op TensorName α) :=
  [launch sem layers chunk .logits [tensorView g .x] [slice g .logits 0 (hi - lo)],
    .emit (slice g .logits 0 (hi - lo))]

/-- The end of the forward pass: the hidden states, the final norm and the logits. -/
def headProgram (layers : ℕ) (strategy : Option ChunkStrategy) (M : ℕ) :
    List (Arena.Op TensorName α) :=
  -- the hidden states are normed in place, and both versions are observed
  [.emit (tensorView g .x), update sem layers 0 .finalNorm (tensorView g .x),
    .emit (tensorView g .x)] ++
  match strategy with
  | some ⟨true, _, numChunks, _⟩ =>
    chunkLoop M (maxChunkSize M numChunks) fun i => logitsRows g sem i layers
  | _ => logitsRows g sem 0 layers 0 M

/-- The forward pass of a model with the given number of layers. -/
def forward (strategy : Option ChunkStrategy) (N M layers : ℕ) : List (Arena.Op TensorName α) :=
  -- the embedding reads the token ids only, which do not live in the pool
  [launch sem 0 0 .embedding [] [tensorView g .x]] ++
  (List.range layers).flatMap (fun layer => layerProgram family g sem layer strategy N) ++
  headProgram g sem layers strategy M

end Programs

/-- The tensors of the graph lie at their planned offsets, and the router logits behind the
buffer. -/
def poolBase (plan : ReusePlan TensorName) (name : TensorName) : ℕ :=
  if name = .routerLogits then plan.totalBufferSizeBytes else planOffset plan name

end Block
