import Mosaic.Kv.BlockPool
import Mosaic.Kv.Interface

/-!
# The cache of one group of layers

A manager keeps for each request the blocks of one group of layers and the number of those that
are cached. What is no longer attended to is replaced by the null block, and how much that is
depends on the type of the layers, as does the search for cached blocks.
-/

namespace Kv

open Function

/-- The blocks of the requests, and how many of them are cached. A request that is not known has
no blocks. -/
structure SingleTypeManager where
  kvCacheSpec : KVCacheSpec
  reqToBlocks : String → List ℕ
  numCachedBlock : String → Option ℕ

namespace SingleTypeManager

def new (kvCacheSpec : KVCacheSpec) : SingleTypeManager where
  kvCacheSpec := kvCacheSpec
  reqToBlocks := fun _ => []
  numCachedBlock := fun _ => none

def blockSize (m : SingleTypeManager) : ℕ := m.kvCacheSpec.blockSize

def setBlocks (m : SingleTypeManager) (requestId : String) (blocks : List ℕ) : SingleTypeManager :=
  { m with reqToBlocks := update m.reqToBlocks requestId blocks }

def setNumCached (m : SingleTypeManager) (requestId : String) (numCached : Option ℕ) :
    SingleTypeManager :=
  { m with numCachedBlock := update m.numCachedBlock requestId numCached }

section

variable (m : SingleTypeManager) (requestId : String)
include m requestId

@[simp] theorem setBlocks_kvCacheSpec (blocks : List ℕ) :
    (m.setBlocks requestId blocks).kvCacheSpec = m.kvCacheSpec := rfl

@[simp] theorem setBlocks_reqToBlocks (blocks : List ℕ) :
    (m.setBlocks requestId blocks).reqToBlocks =
      update m.reqToBlocks requestId blocks := rfl

@[simp] theorem setBlocks_numCachedBlock (blocks : List ℕ) :
    (m.setBlocks requestId blocks).numCachedBlock = m.numCachedBlock := rfl

@[simp] theorem setNumCached_kvCacheSpec (numCached : Option ℕ) :
    (m.setNumCached requestId numCached).kvCacheSpec = m.kvCacheSpec := rfl

@[simp] theorem setNumCached_reqToBlocks (numCached : Option ℕ) :
    (m.setNumCached requestId numCached).reqToBlocks = m.reqToBlocks := rfl

@[simp] theorem setNumCached_numCachedBlock (numCached : Option ℕ) :
    (m.setNumCached requestId numCached).numCachedBlock =
      update m.numCachedBlock requestId numCached := rfl

end

/-- New blocks are counted together with the hits that have to leave the queue. The difference may
be negative. -/
def getNumBlocksToAllocate (m : SingleTypeManager) (p : BlockPool) (requestId : String)
    (numTokens : ℕ) (newComputedBlocks : List ℕ) : ℤ :=
  let numRequiredBlocks := cdiv numTokens m.blockSize
  let numNewBlocks : ℤ :=
    numRequiredBlocks - newComputedBlocks.length - (m.reqToBlocks requestId).length
  let numEvictableComputedBlocks :=
    (newComputedBlocks.filter fun b => p.refCnt b = 0 && !p.isNull b).length
  numNewBlocks + numEvictableComputedBlocks

def saveNewComputedBlocks (m : SingleTypeManager) (requestId : String)
    (newComputedBlocks : List ℕ) : Except KvError SingleTypeManager :=
  match m.numCachedBlock requestId with
  | none =>
    if m.reqToBlocks requestId ≠ [] then .error (.assertionError "")
    else .ok ((m.setBlocks requestId newComputedBlocks).setNumCached requestId
      (some newComputedBlocks.length))
  | some _ =>
    -- a running request has no new computed blocks
    if newComputedBlocks ≠ [] then .error (.assertionError "") else .ok m

/-- The allocation that all types share. -/
def allocateBlocks (m : SingleTypeManager) (p : BlockPool) (requestId : String) (numTokens : ℕ) :
    Except KvError (List ℕ × SingleTypeManager × BlockPool) := do
  let reqBlocks := m.reqToBlocks requestId
  let numRequiredBlocks := cdiv numTokens m.blockSize
  if numRequiredBlocks ≤ reqBlocks.length then return ([], m, p)
  let (newBlocks, p) ← p.getNewBlocks (numRequiredBlocks - reqBlocks.length)
  return (newBlocks, m.setBlocks requestId (reqBlocks ++ newBlocks), p)

/-- The state of a recurrent layer has exactly one block. -/
def allocateNewBlocks (m : SingleTypeManager) (p : BlockPool) (requestId : String)
    (numTokens : ℕ) : Except KvError (List ℕ × SingleTypeManager × BlockPool) := do
  let (newBlocks, m, p) ← m.allocateBlocks p requestId numTokens
  match m.kvCacheSpec with
  | .mamba _ _ _ _ _ =>
    if (m.reqToBlocks requestId).length ≠ 1 then
      throw (.assertionError "MambaManager should only allocate 1 block for each request.")
    return (newBlocks, m, p)
  | _ => return (newBlocks, m, p)

def cacheBlocks (env : HashEnv) (m : SingleTypeManager) (p : BlockPool) (group : ℕ) (r : Request)
    (blockHashes : List BlockHash) (numTokens : ℕ) :
    Except KvError (SingleTypeManager × BlockPool × List BlockHash) :=
  match m.numCachedBlock r.requestId with
  | none => .error .keyError
  | some numCachedBlocks => do
    let numFullBlocks := numTokens / m.blockSize
    let (p, blockHashes) ← p.cacheFullBlocks env r (m.reqToBlocks r.requestId) blockHashes
      numCachedBlocks numFullBlocks m.blockSize group
    return (m.setNumCached r.requestId (some numFullBlocks), p, blockHashes)

/-- Blocks are released from the last one to the first, so that the last one is evicted first. -/
def free (m : SingleTypeManager) (p : BlockPool) (requestId : String) :
    Except KvError (SingleTypeManager × BlockPool) := do
  let p ← p.freeBlocks (m.reqToBlocks requestId).reverse
  return ((m.setBlocks requestId []).setNumCached requestId none, p)

/-! ### Skipped blocks -/

/-- The number of leading blocks that are no longer attended to. For chunks the last cached block
is kept. -/
def numSkippedBlocks (m : SingleTypeManager) (requestId : String) (numComputedTokens : ℕ) : ℕ :=
  match m.kvCacheSpec with
  | .slidingWindow attn window =>
    (((numComputedTokens : ℤ) - window + 1) / attn.blockSize).toNat
  | .chunkedLocalAttention attn attentionChunkSize =>
    let firstUsefulBlockIdx :=
      numComputedTokens / attentionChunkSize * attentionChunkSize / attn.blockSize
    match m.numCachedBlock requestId with
    | some (numCachedBlock + 1) => min firstUsefulBlockIdx numCachedBlock
    | _ => firstUsefulBlockIdx
  | _ => 0

/-- The loop from index `n - 1` down, until a null block is found. Returns the blocks and those
that were removed. -/
def removeLoop (nullBlock : ℕ) : ℕ → List ℕ → Except KvError (List ℕ × List ℕ)
  | 0, blocks => .ok (blocks, [])
  | i + 1, blocks =>
    match blocks[i]? with
    | none => .error .indexError
    | some b =>
      if b = nullBlock then .ok (blocks, [])
      else do
        let (blocks, removed) ← removeLoop nullBlock i (blocks.set i nullBlock)
        return (blocks, b :: removed)

def removeSkippedBlocks (m : SingleTypeManager) (p : BlockPool) (requestId : String)
    (numComputedTokens : ℕ) : Except KvError (SingleTypeManager × BlockPool) := do
  let (blocks, removed) ← removeLoop p.nullBlock (m.numSkippedBlocks requestId numComputedTokens)
    (m.reqToBlocks requestId)
  let p ← p.freeBlocks removed
  return (m.setBlocks requestId blocks, p)

/-! ### Common prefixes -/

/-- The number of leading blocks with as many references as there are running requests. Only full
attention looks for them. -/
def getNumCommonPrefixBlocks (m : SingleTypeManager) (p : BlockPool) (requestId : String)
    (numRunningRequests : ℕ) : ℕ :=
  match m.kvCacheSpec with
  | .fullAttention _ _ _ =>
    ((m.reqToBlocks requestId).takeWhile fun b => p.refCnt b = numRunningRequests).length
  | _ => 0

end SingleTypeManager

/-! ### Cache hits -/

/-- Lookups in several groups count as a hit if they find a block in each of them. -/
def cachedRow (p : BlockPool) (groupIds : List ℕ) (h : BlockHash) : Option (List ℕ) :=
  match p.getCachedBlock h groupIds with
  | some (b :: bs) => some (b :: bs)
  | _ => none

/-- Append the blocks of one position to the lists of the groups. -/
def appendRow (computedBlocks : List (List ℕ)) (row : List ℕ) : List (List ℕ) :=
  List.zipWith (fun computed b => computed ++ [b]) computedBlocks row

/-- The loop that appends blocks until the first miss. -/
def hitLoop (p : BlockPool) (groupIds : List ℕ) :
    List BlockHash → List (List ℕ) → List (List ℕ)
  | [], computedBlocks => computedBlocks
  | h :: hs, computedBlocks =>
    match cachedRow p groupIds h with
    | some row => hitLoop p groupIds hs (appendRow computedBlocks row)
    | none => computedBlocks

/-- With a draft head, the last block is computed again. -/
def dropLastHit (useEagle : Bool) (computedBlocks : List (List ℕ)) : List (List ℕ) :=
  if useEagle ∧ (computedBlocks.headD []) ≠ [] then computedBlocks.map List.dropLast
  else computedBlocks

def fullAttentionHit (p : BlockPool) (blockHashes : List BlockHash) (maxLength : ℕ)
    (groupIds : List ℕ) (blockSize : ℕ) (useEagle : Bool) : List (List ℕ) :=
  dropLastHit useEagle (hitLoop p groupIds (blockHashes.take (maxLength / blockSize))
    (groupIds.map fun _ => []))

/-- The search from the right for enough hits in a row, from index `i - 1` down. Without enough
of them, the hits at the start are left. -/
def slidingWindowLoop (p : BlockPool) (groupIds : List ℕ) (blockHashes : List BlockHash)
    (contiguousBlocks : ℕ) : ℕ → List (List ℕ) → ℕ → Except KvError (List (List ℕ))
  | 0, computedBlocks, numContiguousBlocks =>
    .ok (computedBlocks.map (List.take numContiguousBlocks))
  | i + 1, computedBlocks, numContiguousBlocks =>
    match blockHashes[i]? with
    | none => .error .indexError
    | some h =>
      match cachedRow p groupIds h with
      | none => slidingWindowLoop p groupIds blockHashes contiguousBlocks i computedBlocks 0
      | some row =>
        let computedBlocks :=
          List.zipWith (fun computed b => computed.set i b) computedBlocks row
        if contiguousBlocks ≤ numContiguousBlocks + 1 then
          .ok (computedBlocks.map (List.take (i + (numContiguousBlocks + 1))))
        else slidingWindowLoop p groupIds blockHashes contiguousBlocks i computedBlocks
          (numContiguousBlocks + 1)

def slidingWindowHit (p : BlockPool) (blockHashes : List BlockHash) (maxLength : ℕ)
    (groupIds : List ℕ) (blockSize window : ℕ) (useEagle : Bool) :
    Except KvError (List (List ℕ)) := do
  let maxNumBlocks := maxLength / blockSize
  let contiguousBlocks := cdiv (window - 1) blockSize + if useEagle then 1 else 0
  let computedBlocks ← slidingWindowLoop p groupIds blockHashes contiguousBlocks maxNumBlocks
    (groupIds.map fun _ => List.replicate maxNumBlocks p.nullBlock) 0
  return dropLastHit useEagle computedBlocks

/-- The loop over the blocks of the current chunk. -/
def chunkedLoop (p : BlockPool) (groupIds : List ℕ) (blockHashes : List BlockHash) :
    ℕ → ℕ → List (List ℕ) → Except KvError (List (List ℕ))
  | 0, _, computedBlocks => .ok computedBlocks
  | n + 1, i, computedBlocks =>
    match blockHashes[i]? with
    | none => .error .indexError
    | some h =>
      match cachedRow p groupIds h with
      | none => .ok computedBlocks
      | some row =>
        chunkedLoop p groupIds blockHashes n (i + 1) (appendRow computedBlocks row)

/-- The blocks of earlier chunks count as computed, without a lookup. -/
def chunkedLocalAttentionHit (p : BlockPool) (blockHashes : List BlockHash) (maxLength : ℕ)
    (groupIds : List ℕ) (blockSize attentionChunkSize : ℕ) (useEagle : Bool) :
    Except KvError (List (List ℕ)) := do
  if useEagle then
    throw (.assertionError ("Hybrid KV cache is not supported for " ++
      "eagle + chunked local attention."))
  let maxNumBlocks := maxLength / blockSize
  let startBlockIdx := maxLength / attentionChunkSize * attentionChunkSize / blockSize
  chunkedLoop p groupIds blockHashes (maxNumBlocks - startBlockIdx) startBlockIdx
    (groupIds.map fun _ => List.replicate startBlockIdx p.nullBlock)

/-- The longest cached prefix for layers of one type, for each of their groups. -/
def findLongestCacheHit (p : BlockPool) (blockHashes : List BlockHash) (maxLength : ℕ)
    (groupIds : List ℕ) (useEagle : Bool) : KVCacheSpec → Except KvError (List (List ℕ))
  | .fullAttention attn _ _ =>
    .ok (fullAttentionHit p blockHashes maxLength groupIds attn.blockSize useEagle)
  | .slidingWindow attn window =>
    slidingWindowHit p blockHashes maxLength groupIds attn.blockSize window useEagle
  | .chunkedLocalAttention attn attentionChunkSize =>
    chunkedLocalAttentionHit p blockHashes maxLength groupIds attn.blockSize attentionChunkSize
      useEagle
  | .mamba _ _ _ _ _ => .ok (groupIds.map fun _ => [])

end Kv
