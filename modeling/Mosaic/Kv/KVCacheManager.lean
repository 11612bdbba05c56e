import Mosaic.Kv.SingleType

/-!
# The cache manager

The groups of layers share one pool of blocks. A request that is admitted takes the blocks that
its prefix finds in the cache, gets new ones for the rest of its tokens, and its full blocks are
cached.
-/

namespace Kv

open Function

/-- How the hits of the groups are put together. -/
inductive Coordinator where
  | noPrefixCache
  | unitary (kvCacheSpec : KVCacheSpec)
  | hybrid (fullAttentionGroupIds otherGroupIds : List ℕ)
      (fullAttentionSpec otherSpec : KVCacheSpec) (fullAttnFirst : Bool)

namespace Coordinator

/-- The specification of a class of groups, and their ids. -/
structure GroupClass where
  spec : Option KVCacheSpec := none
  groupIds : List ℕ := []

/-- All groups of a class have the same specification. -/
def GroupClass.add (c : GroupClass) (groupId : ℕ) (spec : KVCacheSpec) (message : String) :
    Except KvError GroupClass :=
  match c.spec with
  | none => .ok ⟨some spec, c.groupIds ++ [groupId]⟩
  | some known =>
    if known = spec then .ok ⟨some known, c.groupIds ++ [groupId]⟩
    else .error (.assertionError message)

/-- Split the groups into full attention groups and others. -/
def splitLoop : List (KVCacheSpec × ℕ) → GroupClass → GroupClass →
    Except KvError (GroupClass × GroupClass)
  | [], full, other => .ok (full, other)
  | (spec, groupId) :: rest, full, other =>
    if spec.isFullAttention then do
      let full ← full.add groupId spec
        "HybridKVCacheCoordinator assumes exactly one type of full attention groups now."
      splitLoop rest full other
    else do
      let other ← other.add groupId spec
        "HybridKVCacheCoordinator assumes exactly one other type of groups now."
      splitLoop rest full other

/-- There are groups of both classes, and those of one class stand before those of the other. -/
def verifyAndSplitKvCacheGroups (specs : List KVCacheSpec) : Except KvError Coordinator := do
  let (full, other) ← splitLoop specs.zipIdx {} {}
  match full.spec, other.spec with
  | none, _ => throw (.assertionError
      "HybridKVCacheCoordinator assumes exactly one type of full attention groups now.")
  | _, none => throw (.assertionError
      "HybridKVCacheCoordinator assumes exactly one type of other groups now.")
  | some fullSpec, some otherSpec =>
    if otherSpec.blockSize % fullSpec.blockSize ≠ 0 then
      .error (.assertionError ("KVCacheCoordinator assumes the block_size of full " ++
        "attention layers is divisible by other layers now."))
    else if ∀ i ∈ full.groupIds, ∀ j ∈ other.groupIds, i < j then
      .ok (.hybrid full.groupIds other.groupIds fullSpec otherSpec true)
    else if ∀ i ∈ other.groupIds, ∀ j ∈ full.groupIds, i < j then
      .ok (.hybrid full.groupIds other.groupIds fullSpec otherSpec false)
    else .error (.valueError ("HybridKVCacheCoordinator assumes the full " ++
      "attention group ids and other attention group ids " ++
      "do not interleave, either full attention group ids " ++
      "are before other attention group ids or vice versa." ++
      "This is for simplifying merging hit_blocks_full_attn and " ++
      "hit_blocks_other_attn to hit_blocks."))

def getKvCacheCoordinator (specs : List KVCacheSpec) (enableCaching : Bool) :
    Except KvError Coordinator :=
  if enableCaching then
    match specs with
    | [spec] => .ok (.unitary spec)
    | _ => verifyAndSplitKvCacheGroups specs
  else .ok .noPrefixCache

/-- The hits of all groups, and the number of tokens that they cover. The other groups are searched
within the hits of full attention, and these are cut to what the others have. -/
def findLongestCacheHit (c : Coordinator) (p : BlockPool) (numGroups : ℕ) (useEagle : Bool)
    (blockHashes : List BlockHash) (maxCacheHitLength : ℕ) :
    Except KvError (List (List ℕ) × ℕ) :=
  match c with
  | noPrefixCache => .ok (List.replicate numGroups [], 0)
  | unitary spec => do
    let hits ← Kv.findLongestCacheHit p blockHashes maxCacheHitLength [0] useEagle spec
    return (hits, (hits.headD []).length * spec.blockSize)
  | hybrid fullIds otherIds fullSpec otherSpec fullAttnFirst => do
    let fullHits := fullAttentionHit p blockHashes maxCacheHitLength fullIds fullSpec.blockSize
      useEagle
    let hitLength := (fullHits.headD []).length * fullSpec.blockSize
    let otherHits ← Kv.findLongestCacheHit p blockHashes hitLength otherIds useEagle otherSpec
    let hitLength := (otherHits.headD []).length * otherSpec.blockSize
    if hitLength % fullSpec.blockSize ≠ 0 then .error (.assertionError "")
    else
      let fullHits := fullHits.map (List.take (hitLength / fullSpec.blockSize))
      .ok (if fullAttnFirst then fullHits ++ otherHits else otherHits ++ fullHits, hitLength)

end Coordinator

/-- The manager. Groups are known by their numbers. -/
structure KVCacheManager where
  maxModelLen : ℕ
  enableCaching : Bool
  useEagle : Bool
  blockSize : Option ℕ
  coordinator : Coordinator
  numKvCacheGroups : ℕ
  blockPool : BlockPool
  managers : ℕ → SingleTypeManager
  reqToBlockHashes : String → List BlockHash

namespace KVCacheManager

/-- With caching, all groups have the same block size. -/
def commonBlockSize (enableCaching : Bool) (specs : List KVCacheSpec) :
    Except KvError (Option ℕ) :=
  match enableCaching, specs.head? with
  | true, some first =>
    if ∀ spec ∈ specs, spec.blockSize = first.blockSize then .ok (some first.blockSize)
    else .error (.assertionError "Only one block size is supported for now")
  | _, _ => .ok none

def new (cfg : KVCacheConfig) (maxModelLen : ℕ)
    (enableCaching useEagle enableKvCacheEvents : Bool) : Except KvError KVCacheManager := do
  let specs := cfg.kvCacheGroups.map KVCacheGroupSpec.kvCacheSpec
  -- models without attention have nothing to cache
  let enableCaching := enableCaching && !specs.isEmpty
  let blockSize ← commonBlockSize enableCaching specs
  let blockPool ← BlockPool.new cfg.numBlocks enableCaching enableKvCacheEvents
  let coordinator ← Coordinator.getKvCacheCoordinator specs enableCaching
  return {
    maxModelLen := maxModelLen
    enableCaching := enableCaching
    useEagle := useEagle
    blockSize := blockSize
    coordinator := coordinator
    numKvCacheGroups := specs.length
    blockPool := blockPool
    managers := fun g => .new (specs.getD g (.mamba 0 [] .float32 none ""))
    reqToBlockHashes := fun _ => [] }

/-! ### Operations on all groups -/

def setGroup (s : KVCacheManager) (g : ℕ) (m : SingleTypeManager) (p : BlockPool) :
    KVCacheManager :=
  { s with
    managers := update s.managers g m
    blockPool := p }

def removeSkippedBlocks (s : KVCacheManager) (requestId : String) (numComputedTokens : ℕ) :
    Except KvError KVCacheManager :=
  (List.range s.numKvCacheGroups).foldlM (fun s g => do
    let (m, p) ← (s.managers g).removeSkippedBlocks s.blockPool requestId numComputedTokens
    return s.setGroup g m p) s

def getNumBlocksToAllocate (s : KVCacheManager) (requestId : String) (numTokens : ℕ)
    (newComputedBlocks : List (List ℕ)) : ℤ :=
  ((List.range s.numKvCacheGroups).map fun g => (s.managers g).getNumBlocksToAllocate s.blockPool
    requestId numTokens (newComputedBlocks.getD g [])).sum

def saveNewComputedBlocks (s : KVCacheManager) (requestId : String)
    (newComputedBlocks : List (List ℕ)) : Except KvError KVCacheManager :=
  (List.range s.numKvCacheGroups).foldlM (fun s g => do
    let m ← (s.managers g).saveNewComputedBlocks requestId (newComputedBlocks.getD g [])
    return s.setGroup g m s.blockPool) s

/-- The new blocks are returned for each group. -/
def allocateNewBlocks (s : KVCacheManager) (requestId : String) (numTokens : ℕ) :
    Except KvError (KVCacheManager × List (List ℕ)) :=
  (List.range s.numKvCacheGroups).foldlM (fun (s, newBlocks) g => do
    let (blocks, m, p) ← (s.managers g).allocateNewBlocks s.blockPool requestId numTokens
    return (s.setGroup g m p, newBlocks ++ [blocks])) (s, [])

/-- Cache the full blocks in all groups. The hashes that one group appends are known to the
next. -/
def cacheBlocks (env : HashEnv) (s : KVCacheManager) (r : Request) (numTokens : ℕ) :
    Except KvError KVCacheManager :=
  (List.range s.numKvCacheGroups).foldlM (fun s g => do
    let (m, p, hashes) ← (s.managers g).cacheBlocks env s.blockPool g r
      (s.reqToBlockHashes r.requestId) numTokens
    return { s.setGroup g m p with
      reqToBlockHashes := update s.reqToBlockHashes r.requestId hashes }) s

/-- Release the blocks of a request. -/
def free (s : KVCacheManager) (requestId : String) : Except KvError KVCacheManager :=
  (List.range s.numKvCacheGroups).foldlM (fun s g => do
    let (m, p) ← (s.managers g).free s.blockPool requestId
    return s.setGroup g m p) s

/-! ### The interface of the scheduler -/

def createEmptyBlockList (s : KVCacheManager) : List (List ℕ) :=
  List.replicate s.numKvCacheGroups []

/-- The hashes of a request are computed only if it has none. -/
def requestHashes (env : HashEnv) (s : KVCacheManager) (r : Request) :
    Except KvError (List BlockHash) :=
  match s.reqToBlockHashes r.requestId, s.blockSize with
  | [], some blockSize => hashRequestTokens env blockSize r
  | [], none => .error (.assertionError "")
  | hashes, _ => .ok hashes

/-- The cached blocks of a request, and the number of their tokens. The last token is always
computed again. -/
def getComputedBlocks (env : HashEnv) (s : KVCacheManager) (r : Request) :
    Except KvError (KVCacheManager × List (List ℕ) × ℕ) := do
  if !s.enableCaching || r.promptLogprobs then return (s, s.createEmptyBlockList, 0)
  let blockHashes ← s.requestHashes env r
  let s := { s with
    reqToBlockHashes := update s.reqToBlockHashes r.requestId blockHashes }
  let (hits, hitLength) ← s.coordinator.findLongestCacheHit s.blockPool s.numKvCacheGroups
    s.useEagle blockHashes (r.numTokens - 1)
  return (s, hits, hitLength)

/-- Without caching there are no hits. -/
def touchComputedBlocks (s : KVCacheManager) (newComputedBlocks : List (List ℕ)) :
    Except KvError BlockPool :=
  if s.enableCaching then s.blockPool.touch newComputedBlocks
  else if newComputedBlocks.any (· ≠ []) then .error (.assertionError
    "Computed blocks should be empty when prefix caching is disabled")
  else .ok s.blockPool

/-- Count the references to the hits and put them into the tables of the request. -/
def takeComputedBlocks (s : KVCacheManager) (requestId : String)
    (newComputedBlocks : List (List ℕ)) : Except KvError KVCacheManager := do
  let p ← s.touchComputedBlocks newComputedBlocks
  saveNewComputedBlocks { s with blockPool := p } requestId newComputedBlocks

/-- The new blocks of a request for its next tokens, or none if there are too few free blocks.
Draft tokens get slots but are not cached. -/
def allocateSlots (env : HashEnv) (s : KVCacheManager) (r : Request)
    (numNewTokens numNewComputedTokens : ℕ) (newComputedBlocks : List (List ℕ))
    (numLookaheadTokens : ℕ) (delayCacheBlocks : Bool) :
    Except KvError (KVCacheManager × Option (List (List ℕ))) := do
  if numNewTokens = 0 then throw (.valueError "num_new_tokens must be greater than 0")
  -- this is done even if the request cannot be scheduled
  let s ← s.removeSkippedBlocks r.requestId r.numComputedTokens
  let numComputedTokens := r.numComputedTokens + numNewComputedTokens
  let numTokensNeedSlot :=
    min (numComputedTokens + numNewTokens + numLookaheadTokens) s.maxModelLen
  let numBlocksToAllocate :=
    s.getNumBlocksToAllocate r.requestId numTokensNeedSlot newComputedBlocks
  if s.blockPool.getNumFreeBlocks < numBlocksToAllocate then return (s, none)
  let s ← s.takeComputedBlocks r.requestId newComputedBlocks
  let (s, newBlocks) ← s.allocateNewBlocks r.requestId numTokensNeedSlot
  if !s.enableCaching || delayCacheBlocks then return (s, some newBlocks)
  let s ← s.cacheBlocks env r (min (numComputedTokens + numNewTokens) r.numTokens)
  return (s, some newBlocks)

def freeBlockHashes (s : KVCacheManager) (requestId : String) : KVCacheManager :=
  { s with reqToBlockHashes := update s.reqToBlockHashes requestId [] }

def cacheRequestBlocks (env : HashEnv) (s : KVCacheManager) (r : Request)
    (numComputedTokens : ℕ) : Except KvError KVCacheManager :=
  if s.enableCaching then s.cacheBlocks env r numComputedTokens else .ok s

def resetPrefixCache (s : KVCacheManager) : Bool × KVCacheManager :=
  (s.blockPool.resetPrefixCache.1, { s with blockPool := s.blockPool.resetPrefixCache.2 })

def getNumCommonPrefixBlocks (s : KVCacheManager) (requestId : String)
    (numRunningRequests : ℕ) : List ℕ :=
  match s.coordinator with
  | .noPrefixCache => List.replicate s.numKvCacheGroups 0
  | _ => (List.range s.numKvCacheGroups).map fun g =>
    (s.managers g).getNumCommonPrefixBlocks s.blockPool requestId numRunningRequests

end KVCacheManager

/-! ### Calls of the scheduler -/

/-- What the scheduler asks for. A request is admitted with the blocks that it has just found in
the cache, and a running request gets slots without. A request that is preempted keeps its
hashes, and one that is finished does not. -/
inductive Call where
  | getComputedBlocks (r : Request)
  | allocateComputed (r : Request) (numNewTokens numLookaheadTokens : ℕ) (delayCacheBlocks : Bool)
  | allocateSlots (r : Request) (numNewTokens numLookaheadTokens : ℕ) (delayCacheBlocks : Bool)
  | preempt (requestId : String)
  | finish (requestId : String)
  | cacheBlocks (r : Request) (numComputedTokens : ℕ)
  | resetPrefixCache

/-- The state after a call that returns, and the new blocks. -/
def KVCacheManager.call (env : HashEnv) (s : KVCacheManager) :
    Call → Except KvError (KVCacheManager × Option (List (List ℕ)))
  | .getComputedBlocks r => do
    let (s, _, _) ← s.getComputedBlocks env r
    return (s, none)
  | .allocateComputed r numNewTokens numLookaheadTokens delayCacheBlocks => do
    let (s, hits, hitLength) ← s.getComputedBlocks env r
    s.allocateSlots env r numNewTokens hitLength hits numLookaheadTokens delayCacheBlocks
  | .allocateSlots r numNewTokens numLookaheadTokens delayCacheBlocks =>
    s.allocateSlots env r numNewTokens 0 s.createEmptyBlockList numLookaheadTokens
      delayCacheBlocks
  | .preempt requestId => do
    let s ← s.free requestId
    return (s, none)
  | .finish requestId => do
    let s ← s.free requestId
    return (s.freeBlockHashes requestId, none)
  | .cacheBlocks r numComputedTokens => do
    let s ← s.cacheRequestBlocks env r numComputedTokens
    return (s, none)
  | .resetPrefixCache => .ok (s.resetPrefixCache.2, none)

end Kv
