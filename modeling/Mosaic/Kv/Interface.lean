import Mosaic.Kv.BlockHash
import Mathlib.Algebra.GroupWithZero.Nat
import Mathlib.Algebra.Ring.Int.Defs

/-!
# Specifications of the cache of a layer

What a layer keeps of the tokens it has seen: all of them, those in a window, those in the current
chunk, or one state. A specification gives the size of a page and a bound for the memory of one
request.
-/

namespace Kv

def cdiv (a b : ℕ) : ℕ := (a + b - 1) / b

inductive Dtype where
  | float32
  | float16
  | bfloat16
  | int8
  | uint8
  | float8E4m3fn
  | float8E5m2
  deriving DecidableEq

def getDtypeSize : Dtype → ℕ
  | .float32 => 4
  | .float16 | .bfloat16 => 2
  | .int8 | .uint8 | .float8E4m3fn | .float8E5m2 => 1

structure AttentionSpec where
  blockSize : ℕ
  numKvHeads : ℕ
  headSize : ℕ
  dtype : Dtype
  useMla : Bool
  deriving DecidableEq

/-- For latent attention one vector is stored, not two. -/
def AttentionSpec.pageSizeBytes (s : AttentionSpec) : ℕ :=
  (if s.useMla then 1 else 2) * s.blockSize * s.numKvHeads * s.headSize * getDtypeSize s.dtype

/-- A full attention layer may record a window or a chunk size that the cache does not use. -/
inductive KVCacheSpec where
  | fullAttention (attn : AttentionSpec) (slidingWindow attentionChunkSize : Option ℕ)
  | slidingWindow (attn : AttentionSpec) (window : ℕ)
  | chunkedLocalAttention (attn : AttentionSpec) (attentionChunkSize : ℕ)
  | mamba (blockSize : ℕ) (shapes : List (List ℕ)) (dtype : Dtype) (pageSizePadded : Option ℕ)
      (mambaType : String)
  deriving DecidableEq

/-- The lengths that the bounds depend on. -/
structure VllmConfig where
  maxModelLen : ℕ
  maxNumBatchedTokens : ℕ

namespace KVCacheSpec

def blockSize : KVCacheSpec → ℕ
  | fullAttention attn _ _ => attn.blockSize
  | slidingWindow attn _ => attn.blockSize
  | chunkedLocalAttention attn _ => attn.blockSize
  | mamba blockSize _ _ _ _ => blockSize

def isFullAttention : KVCacheSpec → Bool
  | fullAttention _ _ _ => true
  | _ => false

def pageSizeBytes : KVCacheSpec → Except KvError ℕ
  | fullAttention attn _ _ => .ok attn.pageSizeBytes
  | slidingWindow attn _ => .ok attn.pageSizeBytes
  | chunkedLocalAttention attn _ => .ok attn.pageSizeBytes
  | mamba _ shapes dtype pageSizePadded _ =>
    let pageSize := (shapes.map List.prod).sum * getDtypeSize dtype
    match pageSizePadded with
    | none => .ok pageSize
    | some padded => if padded < pageSize then .error (.assertionError "") else .ok padded

/-- The number of blocks that one request needs at most. -/
def maxBlocks (cfg : VllmConfig) : KVCacheSpec → ℕ
  | fullAttention attn _ _ => cdiv cfg.maxModelLen attn.blockSize
  | slidingWindow attn window =>
    -- the window need not start at the beginning of a block
    cdiv (min (window - 1 + cfg.maxNumBatchedTokens) cfg.maxModelLen) attn.blockSize + 1
  | chunkedLocalAttention attn attentionChunkSize =>
    cdiv (min (attentionChunkSize + cfg.maxNumBatchedTokens) cfg.maxModelLen) attn.blockSize
  | mamba _ _ _ _ _ => 1

def maxMemoryUsageBytes (cfg : VllmConfig) (s : KVCacheSpec) : Except KvError ℕ := do
  let pageSize ← s.pageSizeBytes
  return s.maxBlocks cfg * pageSize

end KVCacheSpec

/-- Layers that share one table of blocks. -/
structure KVCacheGroupSpec where
  layerNames : List String
  kvCacheSpec : KVCacheSpec
  deriving DecidableEq

structure KVCacheTensor where
  size : ℕ
  sharedBy : List String
  deriving DecidableEq

structure KVCacheConfig where
  numBlocks : ℕ
  kvCacheTensors : List KVCacheTensor
  kvCacheGroups : List KVCacheGroupSpec
  deriving DecidableEq

end Kv
