import Mosaic.Block.BlockGraphs
import Mosaic.Control.Chunks

/-!
# The chunk loops, row by row

The feed-forward part of a layer and the logits work on rows, and may run in chunks of rows. Every
round hands views of the activation tensors to the operators: its own rows of the input and the
output, and the first rows of the scratch tensors. An operator fails when the view for its result
has another number of rows than the result. The operators themselves are parameters that compute
each row of a result from the rows of the same token.
-/

namespace Block

open Chunks

/-- The rows of the activation tensors. -/
abbrev Activations (ρ : Type) := TensorName → List ρ

inductive RowError where
  /-- The view for a result has another number of rows. -/
  | outShape (out : TensorName)
  /-- The step of a range is zero. -/
  | zeroStep
  deriving DecidableEq, Repr

/-- The rows of each tensor that the operators are given. -/
abbrev Views := TensorName → ℕ × ℕ

section Operators

variable {ρ : Type} (views : Views)

def Views.read (t : Activations ρ) (name : TensorName) : List ρ :=
  piece (t name) (views name).1 (views name).2

/-- Overwrite the rows of a tensor from `lo` on. -/
def put (rows : List ρ) (lo : ℕ) (new : List ρ) : List ρ :=
  rows.take lo ++ new ++ rows.drop (lo + new.length)

/-- Store a result in the view of a tensor. -/
def Views.write (out : TensorName) (rows : List ρ) (t : Activations ρ) :
    Except RowError (Activations ρ) :=
  if (views.read t out).length = rows.length then
    .ok (Function.update t out (put (t out) (views out).1 rows))
  else .error (.outShape out)

/-- The tensors as they are. -/
def Views.whole (t : Activations ρ) : Views := fun name => (0, (t name).length)

/-- The views of a round: its rows of the input and the output, and the first rows of the scratch
tensors. -/
def Views.chunk (topK lo hi : ℕ) : Views := fun name =>
  if name ∈ [.xNormed2, .mlpOutput, .moeOutput] then (lo, hi)
  -- the second cache has a row for each expert of a token
  else if name = .moeCache2 then (0, (hi - lo) * topK)
  else (0, hi - lo)

end Operators

/-- `for i in range(0, count, tile)`, with the end of the round beside its start. -/
def forChunks {σ : Type} (count tile : ℕ) (body : ℕ → ℕ → σ → Except RowError σ) (s : σ) :
    Except RowError σ :=
  if tile = 0 then .error .zeroStep
  else (bounds count tile).foldlM (fun s b => body b.1 b.2 s) s

section Models

variable {ρ γ σ : Type}

/-! ### The gated feed-forward part -/

/-- The operators of a gated feed-forward part on a row. -/
structure MlpOps (ρ : Type) where
  gateProj : ρ → ρ
  upProj : ρ → ρ
  silu : ρ → ρ
  mul : ρ → ρ → ρ
  downProj : ρ → ρ

/-- What a gated feed-forward part computes on a row. -/
def MlpOps.row (ops : MlpOps ρ) (x : ρ) : ρ :=
  ops.downProj (ops.mul (ops.silu (ops.gateProj x)) (ops.upProj x))

/-- The operators of a gated feed-forward part, one after the other, on views. -/
def mlpOn (ops : MlpOps ρ) (gate up gated : TensorName) (views : Views) (t : Activations ρ) :
    Except RowError (Activations ρ) := do
  let t ← views.write gate ((views.read t .xNormed2).map ops.gateProj) t
  let t ← views.write up ((views.read t .xNormed2).map ops.upProj) t
  -- the activation works in place
  let t ← views.write gate ((views.read t gate).map ops.silu) t
  let t ← views.write gated (List.zipWith ops.mul (views.read t gate) (views.read t up)) t
  views.write .mlpOutput ((views.read t gated).map ops.downProj) t

def mlpForward (ops : MlpOps ρ) (gate up gated : TensorName) (strategy : Option ChunkStrategy)
    (t : Activations ρ) : Except RowError (Activations ρ) :=
  match strategy with
  | some ⟨_, true, _, numChunks⟩ =>
    let N := (t .xNormed2).length
    forChunks N (maxChunkSize N numChunks)
      (fun lo hi => mlpOn ops gate up gated (.chunk 1 lo hi)) t
  | _ => mlpOn ops gate up gated (.whole t) t

def lladaMlp (ops : MlpOps ρ) : Option ChunkStrategy → Activations ρ →
    Except RowError (Activations ρ) :=
  mlpForward ops .mlpX .mlpXUp .mlpGated

def dreamMlp (ops : MlpOps ρ) : Option ChunkStrategy → Activations ρ →
    Except RowError (Activations ρ) :=
  mlpForward ops .xGate .xUp .xMlp

/-! ### The experts -/

/-- The number of experts of a token, in the model as in its graph. -/
def topK : ℕ := 8

/-- The operators of the experts on a row. A token has one row in the first and the third cache,
and one for each of its experts in the second. -/
structure MoeOps (ρ γ : Type) where
  gate : ρ → γ
  moeGemm1 : ρ → γ → ρ
  siluAndMul : ρ → List ρ
  moeGemm2 : List ρ → γ → ρ
  moeSum : ρ → ρ
  length_siluAndMul : ∀ x, (siluAndMul x).length = topK

/-- What the experts compute on a row. -/
def MoeOps.row (ops : MoeOps ρ γ) (x : ρ) : ρ :=
  ops.moeSum (ops.moeGemm2 (ops.siluAndMul (ops.moeGemm1 x (ops.gate x))) (ops.gate x))

/-- The rows in groups of `k`. -/
def groups (k n : ℕ) (rows : List ρ) : List (List ρ) :=
  (List.range n).map fun i => piece rows (i * k) (i * k + k)

/-- The operators of the experts, one after the other, on views and the router logits of their
tokens. -/
def expertsOn (ops : MoeOps ρ γ) (views : Views) (router : List γ) (t : Activations ρ) :
    Except RowError (Activations ρ) := do
  let t ← views.write .moeCache1 (List.zipWith ops.moeGemm1 (views.read t .xNormed2) router) t
  let t ← views.write .moeCache2 ((views.read t .moeCache1).flatMap ops.siluAndMul) t
  let t ← views.write .moeCache3 (List.zipWith ops.moeGemm2
    (groups topK router.length (views.read t .moeCache2)) router) t
  views.write .moeOutput ((views.read t .moeCache3).map ops.moeSum) t

def moeBlock (ops : MoeOps ρ γ) (strategy : Option ChunkStrategy) (t : Activations ρ) :
    Except RowError (Activations ρ) :=
  match strategy with
  | some ⟨_, true, _, numChunks⟩ =>
    let N := (t .xNormed2).length
    -- the router logits of all tokens are computed before the first round
    let routerLogitsFull := (t .xNormed2).map ops.gate
    forChunks N (maxChunkSize N numChunks)
      (fun lo hi => expertsOn ops (.chunk topK lo hi)
        (piece routerLogitsFull lo hi)) t
  | _ => expertsOn ops (.whole t) ((t .xNormed2).map ops.gate) t

/-- The feed-forward part of a family. -/
def Family.feedForward (family : Family) (dense : MlpOps ρ) (moe : MoeOps ρ γ) :
    Option ChunkStrategy → Activations ρ → Except RowError (Activations ρ) :=
  match family with
  | .llada => lladaMlp dense
  | .dream => dreamMlp dense
  | .lladaMoe => moeBlock moe

/-- What the feed-forward part of a family computes on a row. -/
def Family.feedForwardRow (family : Family) (dense : MlpOps ρ) (moe : MoeOps ρ γ) : ρ → ρ :=
  match family with
  | .llada => dense.row
  | .dream => dense.row
  | .lladaMoe => moe.row

/-! ### The logits -/

/-- `gather_gemm` and the sampler on a view of the logits. The hidden states are given by their
rows, which the indices select. -/
def logitsOn (hidden : ℕ → ρ) (lmHead : ρ → ρ) (sample : ρ → σ) (views : Views)
    (indices : List ℕ) (t : Activations ρ) : Except RowError (Activations ρ × List σ) := do
  let t ← views.write .logits (indices.map fun i => lmHead (hidden i)) t
  return (t, (views.read t .logits).map sample)

/-- The samples of the masked tokens. In chunks, the parts are concatenated at the end. -/
def logitsLoop (hidden : ℕ → ρ) (lmHead : ρ → ρ) (sample : ρ → σ)
    (strategy : Option ChunkStrategy) (maskIndices : List ℕ) (t : Activations ρ) :
    Except RowError (Activations ρ × List σ) :=
  match strategy with
  | some ⟨true, _, numChunks, _⟩ =>
    let M := maskIndices.length
    forChunks M (maxChunkSize M numChunks)
      (fun lo hi acc => do
        let (t, part) ← logitsOn hidden lmHead sample (.chunk 1 lo hi)
          (piece maskIndices lo hi) acc.1
        return (t, acc.2 ++ part)) (t, [])
  | _ => logitsOn hidden lmHead sample (.whole t) maskIndices t

end Models

end Block
