import Mosaic.Block.BlockPlans
import Mosaic.Graph.AnalysisTotal
import Mosaic.Pool.ActivationMemoryPool
import Mosaic.Search.OnlineSearcher
import Mathlib.Algebra.Order.Ring.Unbundled.Rat

/-!
# Plans at run time

A model asks the searcher for a configuration, builds the graph of the configuration once more,
this time always with the chunkwise builder, plans it, and cuts its activation tensors out of
the pool. The searcher has analysed another graph, built elsewhere. That the two plans agree is
what makes the search sound: what the searcher has found to fit the budget fits the pool.
-/

namespace Search

open Graph Block Pool

/-! ### The models -/

/-- The exceptions while a model makes its plan. -/
inductive ModelError (F : Type) where
  | poolNotInitialized
  | search (error : SearchError F)
  | graph (error : GraphError TensorName)

/-- The text of the exception. -/
def ModelError.message {F : Type} (mbText : F → String) (gbText : ℤ → String) :
    ModelError F → String
  | .poolNotInitialized => "ActivationPool 未初始化，无法进行在线搜索"
  | .search error => error.message mbText gbText
  | .graph error => error.message

/-- Analyse a graph and keep its plan. -/
def analyzedPlan (graph : Except (GraphError TensorName) (CustomGraph TensorName)) :
    Except (GraphError TensorName) (ReusePlan TensorName) := do
  let analysis ← graph >>= analyze
  return analysis.reusePlan

section Model

variable {F : Type} [LinearOrder F] [Zero F]

/-- The plan of a forward pass, with the strategy that the model remembers for it. When chunks
are switched on, the searcher decides about them, and is followed for a number of rounds. -/
def getOptimizedReusePlan (mb : ℕ → F) (family : Family) (useChunkwise : Bool)
    (pool : Option ActivationMemoryPool) (N M rounds : ℕ) :
    Option (Except (ModelError F) (ReusePlan TensorName × Option (SearchResult F))) :=
  if !useChunkwise then
    match analyzedPlan (family.graph none N M) with
    | .error error => some (.error (.graph error))
    | .ok plan => some (.ok (plan, none))
  else
    match pool with
    | none => some (.error .poolNotInitialized)
    | some pool =>
      if !pool.initialized then some (.error .poolNotInitialized)
      else
        match searchOptimalConfigOnline mb N M pool.poolSize (modelName family) rounds with
        | none => none
        | some (.error error) => some (.error (.search error))
        | some (.ok result) =>
          -- always the chunkwise builder, also when nothing is chunked
          match analyzedPlan (family.graph (some result.strategy) N M) with
          | .error error => some (.error (.graph error))
          | .ok plan => some (.ok (plan, some result))

/-- The activation tensors of a forward pass, and the pool afterwards. Without a pool, and after
any exception, there are none: the pass falls back on tensors of its own. -/
def allocateActivationTensorsWithReusePlan (mb : ℕ → F) (driver : ℕ → ℕ → Bool) (family : Family)
    (useChunkwise : Bool) (pool : Option ActivationMemoryPool) (N M rounds : ℕ) :
    Option (Option ActivationMemoryPool × Option (List (TensorName × TensorView))) :=
  match pool with
  | none => some (none, none)
  | some pool =>
    if !pool.initialized then some (some pool, none)
    else
      match getOptimizedReusePlan mb family useChunkwise (some pool) N M rounds with
      | none => none
      | some (.error _) => some (some pool, none)
      | some (.ok (plan, _)) =>
        match pool.allocateForTokensWithSize driver plan.totalBufferSizeBytes with
        | .error _ => some (some pool, none)
        | .ok (pool, buffer) =>
          match tensorViews buffer plan with
          | .error _ => some (some pool, none)
          | .ok tensors => some (some pool, some tensors)

end Model

/-! ### The two builders -/

/-- Where nothing is chunked, the plain and the chunkwise builder make the same graph, whatever
the numbers of chunks. -/
theorem graph_none (family : Family) (N M numChunksLogits numChunksMlp : ℕ) :
    family.graph none N M =
      family.graph (some ⟨false, false, numChunksLogits, numChunksMlp⟩) N M := by
  cases family <;> rfl

/-- The search analyses the graph that is built at run time. -/
theorem searchGraph_eq (family : Family) (config : ChunkStrategy) (N M : ℕ) :
    searchGraph family config N M = family.graph (some config) N M := by
  obtain ⟨chunkLogits, chunkMlp, numChunksLogits, numChunksMlp⟩ := config
  unfold searchGraph
  split
  · rename_i hplain
    obtain ⟨rfl, rfl⟩ : chunkLogits = false ∧ chunkMlp = false := by simpa using hplain
    exact graph_none family N M numChunksLogits numChunksMlp
  · rfl

/-! ### Soundness -/

/-- A view of a tensor lies in the first `total` bytes of a pool, at a multiple of the size of
its elements. -/
def InPool (view : TensorView) (total poolSize : ℕ) : Prop :=
  view.start + view.bytes ≤ total ∧ total ≤ poolSize ∧
    view.dtype.bytesPerElement ∣ view.start

section Sound

variable {F : Type} [LinearOrder F] [Zero F]

/-- The activation tensors of a forward pass are the tensors of the plan, each in the pool. They
exist as soon as the pool hands out the buffer, which it does unless mapping memory fails. -/
def TensorsInPool (mb : ℕ → F) (family : Family) (pool : ActivationMemoryPool) (N M rounds : ℕ)
    (plan : ReusePlan TensorName) : Prop :=
  ∃ tensors, tensors.map Prod.fst = plan.entries.map Prod.fst ∧
    (∀ tensor ∈ tensors, InPool tensor.2 plan.totalBufferSizeBytes pool.poolSize) ∧
    ∀ driver, (pool.useVmm = false →
        pool.allocateForTokensWithSize driver plan.totalBufferSizeBytes =
          .ok (pool, plan.totalBufferSizeBytes)) ∧
      ∀ pool' buffer, pool.allocateForTokensWithSize driver plan.totalBufferSizeBytes =
          .ok (pool', buffer) →
        allocateActivationTensorsWithReusePlan mb driver family true (some pool) N M rounds =
          some (some pool', some tensors)

/-- The plan that a model makes from a search result is the size of the plan that the search has
accepted, stays below the safety margin, and its tensors lie in the pool. -/
def FitsPool (mb : ℕ → F) (family : Family) (N M : ℕ) (poolSize : ℤ) (rounds : ℕ)
    (result : SearchResult F) : Prop :=
  ∃ accepted plan,
    analyzedPlan (searchGraph family result.strategy N M) = .ok accepted ∧
    accepted.totalBufferSizeBytes = result.totalBytes ∧
    analyzedPlan (family.graph (some result.strategy) N M) = .ok plan ∧
    plan.totalBufferSizeBytes = accepted.totalBufferSizeBytes ∧
    plan.totalBufferSizeBytes ≤ poolSize - 900 * 1024 * 1024 ∧
    ∀ pool : ActivationMemoryPool, pool.initialized = true → pool.poolSize = poolSize →
      getOptimizedReusePlan mb family true (some pool) N M rounds =
        some (.ok (plan, some result)) ∧
      TensorsInPool mb family pool N M rounds plan

variable {g : CustomGraph TensorName} {s : BlockShape} {plan : ReusePlan TensorName}

/-- Every entry of the plan of a block fits into the planned buffer and is aligned. -/
theorem entryView_inside (hg : IsBlock s g) (h : generateOptimizedReusePlan g = .ok plan)
    {entry : TensorName × PlanEntry} (hentry : entry ∈ plan.entries) :
    (entryView entry.2).start + (entryView entry.2).bytes ≤ plan.totalBufferSizeBytes ∧
      (entryView entry.2).dtype.bytesPerElement ∣ (entryView entry.2).start := by
  obtain ⟨_, entry⟩ := entry
  obtain ⟨_, _, hj, hpos, rfl, rfl⟩ := exists_node_of_mem_entries h hentry
  exact ⟨stop_le_total h hj hpos, hg.aligned h hj⟩

/-- All tensors of the plan of a block can be cut out of a buffer of the planned size. -/
theorem tensorViews_block (hg : IsBlock s g) (h : generateOptimizedReusePlan g = .ok plan) :
    tensorViews plan.totalBufferSizeBytes plan =
      .ok (plan.entries.map fun entry => (entry.1, entryView entry.2)) :=
  tensorViews_eq_ok (fun _ hentry => (entryView_inside hg h hentry).1)
    fun _ hentry => (entryView_inside hg h hentry).2

theorem analyzedPlan_eq_ok {graph : Except (GraphError TensorName) (CustomGraph TensorName)}
    {analysis : Analysis TensorName} (h : (graph >>= analyze) = .ok analysis) :
    analyzedPlan graph = .ok analysis.reusePlan := by
  rw [analyzedPlan, h]
  rfl

/-- A pool that is as large as the plan of the search result serves the forward pass. -/
theorem tensorsInPool {mb : ℕ → F} {family : Family} {pool : ActivationMemoryPool} {N M rounds : ℕ}
    {strategy : Option (SearchResult F)} (hg : IsBlock s g)
    (h : generateOptimizedReusePlan g = .ok plan) (ready : pool.initialized = true)
    (fits : plan.totalBufferSizeBytes ≤ pool.poolSize)
    (planned : getOptimizedReusePlan mb family true (some pool) N M rounds =
      some (.ok (plan, strategy))) :
    TensorsInPool mb family pool N M rounds plan := by
  refine ⟨plan.entries.map fun entry => (entry.1, entryView entry.2), ?_, ?_,
    fun driver => ⟨?_, ?_⟩⟩
  · simp [Function.comp_def]
  · intro tensor htensor
    obtain ⟨entry, hentry, rfl⟩ := List.mem_map.mp htensor
    obtain ⟨hinside, haligned⟩ := entryView_inside hg h hentry
    exact ⟨hinside, fits, haligned⟩
  · intro plain
    exact ActivationMemoryPool.exists_allocateForTokensWithSize driver ready plain fits
  · intro pool' buffer hbuffer
    -- the buffer has the planned length, so every view of the plan can be made
    obtain ⟨rfl, -, -⟩ := ActivationMemoryPool.allocateForTokensWithSize_eq_ok hbuffer
    simp [allocateActivationTensorsWithReusePlan, ready, planned, hbuffer, tensorViews_block hg h]

/-- Soundness of the search. For every family, all numbers of tokens and every pool size: when the
search returns, the plan made from its result at run time has the size of the plan it accepted,
leaves the safety margin, and all tensors of the plan lie in the pool, aligned. -/
theorem search_sound (mb : ℕ → F) (family : Family) {N M : ℕ} (hN : 1 ≤ N) (hM : 1 ≤ M)
    {poolSize : ℤ} {rounds : ℕ} {result : SearchResult F}
    (returned : searchOptimalConfigOnline mb N M poolSize (modelName family) rounds =
      some (.ok result)) :
    FitsPool mb family N M poolSize rounds result := by
  have hloop := returned
  rw [searchOptimalConfigOnline, modelFamily_modelName] at hloop
  obtain ⟨chunked, analysis, hanalysis, htotal, haccepts⟩ := searchLoop_eq_ok chunked_noChunk hloop
  have hbudget := le_of_accepts haccepts
  rw [htotal, safetyMarginBytes] at hbudget
  -- the graph that the search analysed is the one that is built at run time
  have haccepted := analyzedPlan_eq_ok hanalysis
  rw [searchGraph_eq] at hanalysis
  have hrebuilt := analyzedPlan_eq_ok hanalysis
  obtain ⟨_, hgraph, hg⟩ := family.exists_graph (some result.strategy) N M hN hM
    (by rintro s ⟨⟩; exact chunked.mlp_pos) (by rintro s ⟨⟩; exact chunked.logits_pos)
  rw [hgraph] at hanalysis
  have hplan := generateOptimizedReusePlan_of_analyze hanalysis
  refine ⟨analysis.reusePlan, analysis.reusePlan, haccepted, htotal.symm, hrebuilt, rfl, hbudget,
    fun pool ready hsize => ?_⟩
  have planned : getOptimizedReusePlan mb family true (some pool) N M rounds =
      some (.ok (analysis.reusePlan, some result)) := by
    simp [getOptimizedReusePlan, ready, hsize, returned, hrebuilt]
  exact ⟨planned, tensorsInPool hg hplan ready (by omega) planned⟩

/-! ### Large pools -/

/-- A block reads only tensors that it produces. -/
theorem closed_block (hg : IsBlock s g) : Closed g := by
  have horder : ∀ family chunked, ∀ entry ∈ blockOrder family chunked, ∀ name ∈ entry.2,
      name ∈ (blockOrder family chunked).map Prod.fst := by
    rintro (_ | _ | _) (_ | _) <;> decide
  intro node hnode name hname
  have hentry : (node.outputName, node.inputNames) ∈ skeleton g := List.mem_map_of_mem hnode
  rw [hg.skeleton_eq] at hentry
  rw [hg.names_eq]
  exact horder _ _ _ hentry name hname

theorem exists_analysis_block (hg : IsBlock s g) : ∃ analysis, analyze g = .ok analysis := by
  obtain ⟨_, node, hj, -, -⟩ := hg.exists_node (IsBlock.finalOutput_mem _ _)
  have hnode := List.mem_of_getElem? hj
  exact exists_analysis (closed_block hg) hg.aliasesReady hnode (hg.nonempty node hnode)

/-- In a pool with room for separate buffers and both margins, nothing is chunked. -/
theorem search_returns_of_large (mb : ℕ → F) (family : Family) {N M : ℕ} (hN : 1 ≤ N)
    (hM : 1 ≤ M) {poolSize : ℤ} (large : ∀ g, family.graph none N M = .ok g →
      (g.executionOrder.map OpNode.sizeBytes).sum + minMarginBytes ≤ poolSize - safetyMarginBytes) :
    ∃ result, searchOptimalConfigOnline mb N M poolSize (modelName family) 1 = some (.ok result) ∧
      result.strategy = noChunk := by
  obtain ⟨g, hgraph, hg⟩ := family.exists_graph none N M hN hM nofun nofun
  obtain ⟨analysis, hanalysis⟩ := exists_analysis_block hg
  have hplan := generateOptimizedReusePlan_of_analyze hanalysis
  have hle := totalBufferSizeBytes_le_sum hplan hg.aliasesReady
  have hlarge := large g hgraph
  have haccepts : accepts family (poolSize - safetyMarginBytes)
      analysis.reusePlan.totalBufferSizeBytes = true := by
    unfold accepts
    rw [minMarginBytes] at hlarge
    rw [if_pos (by omega)]
    split
    · dsimp only
      rw [Bool.not_eq_true', decide_eq_false_iff_not, minMarginBytes]
      omega
    · rfl
  -- the first round analyses the plain graph
  have hround : (searchGraph family noChunk N M >>= analyze) = .ok analysis := by
    rw [searchGraph, noChunk, if_pos (by rfl), hgraph]
    exact hanalysis
  refine ⟨⟨noChunk, analysis.reusePlan.totalBufferSizeBytes,
    analyzeComponentsFromTimeline mb analysis.memoryTimeline⟩, ?_, rfl⟩
  rw [searchOptimalConfigOnline, modelFamily_modelName, searchLoop, searchRound, hround]
  simp only [haccepts, if_true]

/-- Megabytes as rational numbers. -/
def toMb (bytes : ℕ) : ℚ :=
  bytes / (1024 * 1024)

theorem search_sound_two_gigabytes :
    ∃ result, searchOptimalConfigOnline toMb 8 4 (2 ^ 31) (modelName .lladaMoe) 1 =
        some (.ok result) ∧
      result.strategy = noChunk ∧ FitsPool toMb .lladaMoe 8 4 (2 ^ 31) 1 result := by
  have large : ∀ g, Family.lladaMoe.graph none 8 4 = .ok g →
      (g.executionOrder.map OpNode.sizeBytes).sum + minMarginBytes ≤
        2 ^ 31 - safetyMarginBytes := by
    rintro g ⟨⟩
    decide
  obtain ⟨result, returned, hstrategy⟩ :=
    search_returns_of_large toMb .lladaMoe (by decide) (by decide) large
  exact ⟨result, returned, hstrategy, search_sound toMb .lladaMoe (by decide) (by decide) returned⟩

end Sound

end Search
