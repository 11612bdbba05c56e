import Mosaic.Kv.Interface
import Mosaic.Table.Ragged
import Mathlib.Algebra.Order.Field.Rat
import Mathlib.Data.Int.Order.Basic

/-!
# The layout of the cache of a hybrid model

A hybrid model has layers with different specifications whose pages have the same size. The layers
of each specification are cut into groups of the size of the smallest kind, the last of which may be
shorter. There are as many tensors as a group has layers, and each tensor is shared by one layer of
every group that is long enough.
-/

namespace Kv

/-! ### Merging specifications -/

namespace KVCacheSpec

/-- What all attention layers have. -/
def attn? : KVCacheSpec → Option AttentionSpec
  | fullAttention attn _ _ => some attn
  | slidingWindow attn _ => some attn
  | chunkedLocalAttention attn _ => some attn
  | mamba _ _ _ _ _ => none

/-- The window that a full attention layer records. -/
def recordedWindow : KVCacheSpec → Option ℕ
  | fullAttention _ window _ => window
  | _ => none

/-- The chunk size that a full attention layer records. -/
def recordedChunkSize : KVCacheSpec → Option ℕ
  | fullAttention _ _ attentionChunkSize => attentionChunkSize
  | _ => none

/-- The one size among those that are recorded. -/
def mergeWindowSizes (windowSizes : List ℕ) : Except KvError (Option ℕ) :=
  match windowSizes.dedup with
  | [] => .ok none
  | [windowSize] => .ok (some windowSize)
  | _ => .error (.valueError
      "All attention layers in the same KV cache group must have the same window size.")

/-- Full attention layers may differ in what they record. -/
def mergeFullAttention (attn : AttentionSpec) (specs : List KVCacheSpec) :
    Except KvError KVCacheSpec := do
  if ∃ spec ∈ specs, spec.isFullAttention = false then
    throw (.assertionError
      "All attention layers in the same KV cache group must be FullAttentionSpec.")
  let slidingWindow ← mergeWindowSizes (specs.filterMap recordedWindow)
  let attentionChunkSize ← mergeWindowSizes (specs.filterMap recordedChunkSize)
  if ∃ spec ∈ specs, spec.attn? ≠ some attn then
    throw (.assertionError
      "All attention layers in the same KV cache group must have the same attention spec.")
  if slidingWindow.isSome ∧ attentionChunkSize.isSome then
    throw (.assertionError ("Model with both sliding window layers and chunked local attention " ++
      "layers is not supported."))
  return fullAttention attn slidingWindow attentionChunkSize

/-- The method is that of the first specification. -/
def merge : List KVCacheSpec → Except KvError KVCacheSpec
  | [] => .error .indexError
  | fullAttention attn window attentionChunkSize :: rest =>
    mergeFullAttention attn (fullAttention attn window attentionChunkSize :: rest)
  | first :: rest =>
    if ∀ spec ∈ rest, spec = first then .ok first
    else .error (.assertionError "All layers in the same KV cache group must be the same.")

end KVCacheSpec

/-! ### Groups and tensors -/

/-- The specification of a layer in the map of all layers. -/
def layerSpec (kvCacheSpec : List (String × KVCacheSpec)) (layerName : String) :
    Except KvError KVCacheSpec :=
  match kvCacheSpec.lookup layerName with
  | some spec => .ok spec
  | none => .error .keyError

def createKvCacheGroupSpecs (kvCacheSpec : List (String × KVCacheSpec))
    (groupedLayerNames : List (List String)) : Except KvError (List KVCacheGroupSpec) :=
  groupedLayerNames.mapM fun layerNamesOneGroup => do
    let layerSpecs ← layerNamesOneGroup.mapM (layerSpec kvCacheSpec)
    let mergedLayerSpec ← KVCacheSpec.merge layerSpecs
    return ⟨layerNamesOneGroup, mergedLayerSpec⟩

def getUniformPageSize (kvCacheSpec : List (String × KVCacheSpec)) : Except KvError ℕ := do
  let pageSizes ← (kvCacheSpec.map Prod.snd).mapM KVCacheSpec.pageSizeBytes
  match pageSizes.dedup with
  | [pageSize] => return pageSize
  | _ => throw (.assertionError "")

/-- An override replaces the number that fits into the memory. -/
def getNumBlocks (numGpuBlocksOverride : Option ℕ) (numLayers : ℕ) (availableMemory : ℤ)
    (pageSize : ℕ) : Except KvError ℕ :=
  if pageSize = 0 ∨ numLayers = 0 then .error .zeroDivisionError
  else
    let numBlocks := (max (availableMemory / pageSize / numLayers) 0).toNat
    .ok (numGpuBlocksOverride.getD numBlocks)

def maxMemoryUsageBytes (cfg : VllmConfig) (specs : List KVCacheSpec) : Except KvError ℕ := do
  let sizes ← specs.mapM (KVCacheSpec.maxMemoryUsageBytes cfg)
  return sizes.sum

/-- How many requests of the maximal length fit, which is logged. -/
def getMaxConcurrencyForKvCacheConfig (cfg : VllmConfig) (kvCacheConfig : KVCacheConfig) :
    Except KvError ℚ := do
  match kvCacheConfig.kvCacheGroups with
  | [] => throw (.valueError "max() arg is an empty sequence")
  | first :: rest =>
    let numLayerPerGroup := ((first :: rest).map fun group => group.layerNames.length).foldl max 0
    let usage ← maxMemoryUsageBytes cfg ((first :: rest).map KVCacheGroupSpec.kvCacheSpec)
    let pageSize ← first.kvCacheSpec.pageSizeBytes
    let memoryPerBlock := pageSize * numLayerPerGroup
    if memoryPerBlock = 0 then throw .zeroDivisionError
    let numBlockPerRequest := cdiv (numLayerPerGroup * usage) memoryPerBlock
    if numBlockPerRequest = 0 then throw .zeroDivisionError
    return (kvCacheConfig.numBlocks : ℚ) / numBlockPerRequest

/-- All layers by their specifications. -/
def sameTypeLayers (kvCacheSpec : List (String × KVCacheSpec)) :
    List (KVCacheSpec × List String) :=
  Ragged.groupBy kvCacheSpec

/-- The kinds with the fewest layers set the size of the groups. -/
def groupSize? (layers : List (KVCacheSpec × List String)) : Except KvError ℕ :=
  match (layers.map fun row => row.2.length).min? with
  | some size => .ok size
  | none => .error (.valueError "min() arg is an empty sequence")

def groupedLayers (layers : List (KVCacheSpec × List String)) (groupSize : ℕ) :
    List (List String) :=
  layers.flatMap fun row => Ragged.chunks groupSize row.2

/-- The tensors, each shared by the layers at one position of the groups. -/
def kvCacheTensors (groupSize perMemoryPoolSize : ℕ) (groupedLayers : List (List String)) :
    List KVCacheTensor :=
  (Ragged.columns groupSize groupedLayers).map fun sharedBy => ⟨perMemoryPoolSize, sharedBy⟩

/-- The configuration of a hybrid model. -/
def getKvCacheConfigUniformPageSize (cfg : VllmConfig) (numGpuBlocksOverride : Option ℕ)
    (kvCacheSpec : List (String × KVCacheSpec)) (availableMemory : ℤ) :
    Except KvError KVCacheConfig := do
  let sameTypeLayers := sameTypeLayers kvCacheSpec
  let groupSize ← groupSize? sameTypeLayers
  let groupedLayers := groupedLayers sameTypeLayers groupSize
  let kvCacheGroups ← createKvCacheGroupSpecs kvCacheSpec groupedLayers
  let pageSize ← getUniformPageSize kvCacheSpec
  let numBlocks ← getNumBlocks numGpuBlocksOverride groupSize availableMemory pageSize
  let kvCacheConfig : KVCacheConfig := {
    numBlocks := numBlocks
    kvCacheTensors := kvCacheTensors groupSize (pageSize * numBlocks) groupedLayers
    kvCacheGroups := kvCacheGroups }
  let _ ← getMaxConcurrencyForKvCacheConfig cfg kvCacheConfig
  return kvCacheConfig

end Kv
