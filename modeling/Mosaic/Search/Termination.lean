import Mosaic.Search.BlockPeaks
import Mosaic.Search.Cutting
import Mathlib.Tactic.Ring

/-!
# Does the search end?

The search cuts the highest peak, and a chunk has at least one row. Once the chunks have one row
each, more chunks change nothing. If one row of the feed-forward part or of the logits still
weighs more than the fixed part, the search goes on cutting for ever, unless a configuration on
its way fits. That happens to short inputs: the fixed part grows with the number of tokens, one
row of a chunk does not.
-/

namespace Search

open Graph Block Cutting

/-! ### Numbers of chunks -/

/-- The configuration with given numbers of chunks. A part in one piece is not chunked. -/
def countConfig (counts : ℕ × ℕ) : ChunkStrategy :=
  ⟨decide (2 ≤ counts.2), decide (2 ≤ counts.1), counts.2, counts.1⟩

/-- The number of rows of a chunk. -/
def chunkRows (count chunks : ℕ) : ℕ :=
  if 2 ≤ chunks then maxChunkSize count chunks else count

/-- The shape of the graph with given numbers of chunks. -/
def countShape (family : Family) (P O : ℕ) (hP : 1 ≤ P) (hO : 1 ≤ O) (counts : ℕ × ℕ)
    (h : 1 ≤ counts.1 ∧ 1 ≤ counts.2) : BlockShape :=
  family.shape (some (countConfig counts)) P O hP hO
    (fun _ hs => Option.some.inj hs ▸ h.1) (fun _ hs => Option.some.inj hs ▸ h.2)

/-- The size of the plan with given numbers of chunks. -/
def planBytes (family : Family) (P O : ℕ) (counts : ℕ × ℕ) : ℕ :=
  match analyzedPlan (searchGraph family (countConfig counts) P O) with
  | .ok plan => plan.totalBufferSizeBytes
  | .error _ => 0

/-! ### Peaks -/

/-- The peak of the fixed part, for each token. -/
def fixedPerToken (family : Family) : ℕ :=
  (3 * family.config.hiddenSize + family.config.kvWidth) * 2

/-- The peak of a feed-forward part in one piece, for each token. -/
def plainPerToken (family : Family) : ℕ :=
  (family.config.hiddenSize + family.firstStage.width +
    if family = .lladaMoe then 0 else family.secondStage.width) * 2

/-- What a feed-forward part in chunks keeps for each token. -/
def keptPerToken (family : Family) : ℕ :=
  3 * family.config.hiddenSize * 2

/-- What a feed-forward part in chunks takes for each row of a chunk. -/
def stagesPerRow (family : Family) : ℕ :=
  (family.firstStage.width + family.secondStage.width + family.thirdStage.width) * 2

def logitsPerRow (family : Family) : ℕ :=
  family.config.vocabSize * 2

/-- The peak of the feed-forward part in a number of chunks. -/
def mlpPeak (family : Family) (P chunks : ℕ) : ℕ :=
  if 2 ≤ chunks then keptPerToken family * P + stagesPerRow family * maxChunkSize P chunks
  else plainPerToken family * P

/-- The peaks of the parts in bytes. -/
def peakCosts (family : Family) (P O : ℕ) : Costs ℕ where
  fixed := fixedPerToken family * P
  first := mlpPeak family P
  second chunks := logitsPerRow family * chunkRows O chunks

section Shape

variable (family : Family) {P O : ℕ} (hP : 1 ≤ P) (hO : 1 ≤ O) {counts : ℕ × ℕ}
  (h : 1 ≤ counts.1 ∧ 1 ≤ counts.2)

@[simp] theorem countShape_family : (countShape family P O hP hO counts h).family = family := rfl

@[simp] theorem countShape_tokens : (countShape family P O hP hO counts h).N = P := rfl

@[simp] theorem countShape_chunked :
    (countShape family P O hP hO counts h).chunked = decide (2 ≤ counts.1) := rfl

@[simp] theorem countShape_rows :
    (countShape family P O hP hO counts h).rows = chunkRows P counts.1 := by
  simp [countShape, Family.shape, countConfig, chunkRows]

@[simp] theorem countShape_logitsRows :
    (countShape family P O hP hO counts h).logitsRows = chunkRows O counts.2 := by
  simp [countShape, Family.shape, countConfig, chunkRows]

theorem peakBytes_fixed_eq :
    peakBytes (countShape family P O hP hO counts h) .fixed = (peakCosts family P O).fixed := by
  rw [peakBytes_fixed, BlockShape.hiddenBytes_eq, BlockShape.kvBytes_eq, BlockShape.config]
  simp only [countShape_family, countShape_tokens, peakCosts, fixedPerToken]
  ring

theorem peakBytes_mlp_eq :
    peakBytes (countShape family P O hP hO counts h) .mlp =
      (peakCosts family P O).first counts.1 := by
  by_cases hchunks : 2 ≤ counts.1
  · rw [peakBytes_mlp_chunked _ (by simpa using hchunks), BlockShape.hiddenBytes_eq,
      BlockShape.stageBytes, BlockShape.stageBytes, BlockShape.stageBytes, BlockShape.config]
    simp only [countShape_family, countShape_tokens, countShape_rows, peakCosts, mlpPeak,
      chunkRows, if_pos hchunks, keptPerToken, stagesPerRow]
    ring
  · rw [peakBytes_mlp_plain _ (by simpa using hchunks), BlockShape.hiddenBytes_eq,
      BlockShape.stageBytes, BlockShape.stageBytes, BlockShape.config]
    simp only [countShape_family, countShape_tokens, countShape_rows, peakCosts, mlpPeak,
      chunkRows, if_neg hchunks, plainPerToken]
    split_ifs <;> ring

theorem peakBytes_logits_eq :
    peakBytes (countShape family P O hP hO counts h) .logits =
      (peakCosts family P O).second counts.2 := by
  rw [peakBytes_logits, BlockShape.config]
  simp only [countShape_family, countShape_logitsRows, peakCosts, logitsPerRow]
  ring

end Shape

/-! ### The loop follows the path -/

section Loop

variable {F : Type} [LinearOrder F] [Zero F] {mb : ℕ → F} {family : Family} {P O : ℕ}
  (budget : ℤ) {counts : ℕ × ℕ} {n : ℕ}

/-- The peaks in megabytes. -/
def mbCosts (mb : ℕ → F) (family : Family) (P O : ℕ) : Costs F where
  fixed := mb (peakCosts family P O).fixed
  first chunks := mb ((peakCosts family P O).first chunks)
  second chunks := mb ((peakCosts family P O).second chunks)

omit [Zero F] in
/-- Cutting the bottleneck of a configuration is a cut of the numbers of chunks. -/
theorem cutBottleneck_countConfig {c : Costs F} {components : Components F}
    (h : 1 ≤ counts.1 ∧ 1 ≤ counts.2) (hfixed : components.fixedPeakMb = c.fixed)
    (hmlp : components.mlpPeakMb = c.first counts.1)
    (hlogits : components.logitsPeakMb = c.second counts.2) :
    cutBottleneck (countConfig counts) components = (c.cut counts).map countConfig := by
  obtain ⟨a, b⟩ := counts
  obtain ⟨ha, hb⟩ : 1 ≤ a ∧ 1 ≤ b := h
  -- The first cut of a part is into two chunks, and a later one adds a chunk.
  have hsecond : ({ countConfig (a, b) with
      chunkLogits := true
      numChunksLogits := if (countConfig (a, b)).chunkLogits then b + 1 else 2 } : ChunkStrategy) =
      countConfig (a, b + 1) := by
    by_cases hchunks : 2 ≤ b
    · simp [countConfig, hchunks, hb]
    · obtain rfl : b = 1 := by omega
      simp [countConfig]
  have hfirst : ({ countConfig (a, b) with
      chunkMlp := true
      numChunksMlp := if (countConfig (a, b)).chunkMlp then a + 1 else 2 } : ChunkStrategy) =
      countConfig (a + 1, b) := by
    by_cases hchunks : 2 ≤ a
    · simp [countConfig, hchunks, ha]
    · obtain rfl : a = 1 := by omega
      simp [countConfig]
  unfold cutBottleneck Costs.cut
  simp only [hfixed, hmlp, hlogits, gt_iff_lt]
  split
  · exact congrArg some hsecond
  · split
    · exact congrArg some hfirst
    · rfl

/-- What a round does with given numbers of chunks. -/
theorem exists_round (mono : Monotone mb) (zero : mb 0 = 0) (hP : 1 ≤ P) (hO : 1 ≤ O)
    (h : 1 ≤ counts.1 ∧ 1 ≤ counts.2) :
    ∃ components, searchRound mb family P O budget (countConfig counts) =
      if accepts family budget (planBytes family P O counts) then
        .ok (.accept ⟨countConfig counts, planBytes family P O counts, components⟩)
      else
        match (mbCosts mb family P O).cut counts with
        | some counts => .ok (.next (countConfig counts))
        | none =>
          .error (.fixedBottleneck P O (planBytes family P O counts) budget components) := by
  obtain ⟨_, hgraph, hg⟩ := family.exists_graph (some (countConfig counts)) P O hP hO
    (fun _ hs => Option.some.inj hs ▸ h.1) (fun _ hs => Option.some.inj hs ▸ h.2)
  obtain ⟨analysis, hanalysis⟩ := exists_analysis_block hg
  have hsearch : (searchGraph family (countConfig counts) P O >>= analyze) = .ok analysis := by
    rw [searchGraph_eq, hgraph]
    exact hanalysis
  have hbytes : analysis.reusePlan.totalBufferSizeBytes = planBytes family P O counts := by
    rw [planBytes, analyzedPlan_eq_ok hsearch]
  obtain ⟨hfixed, hmlp, hlogits⟩ := components_eq mono zero hg hanalysis
  refine ⟨analyzeComponentsFromTimeline mb analysis.memoryTimeline, ?_⟩
  have hcut := cutBottleneck_countConfig (c := mbCosts mb family P O) h
    (hfixed.trans (congrArg mb (peakBytes_fixed_eq family hP hO h)))
    (hmlp.trans (congrArg mb (peakBytes_mlp_eq family hP hO h)))
    (hlogits.trans (congrArg mb (peakBytes_logits_eq family hP hO h)))
  rw [searchRound, hsearch]
  dsimp only
  rw [hbytes, hcut]
  cases (mbCosts mb family P O).cut counts <;> rfl

/-- As long as nothing fits, the loop follows the path. -/
theorem searchLoop_path (mono : Monotone mb) (zero : mb 0 = 0) (hP : 1 ≤ P) (hO : 1 ≤ O)
    (h : (mbCosts mb family P O).path n = some counts)
    (rejects : ∀ m counts, m < n → (mbCosts mb family P O).path m = some counts →
      accepts family budget (planBytes family P O counts) = false) (rounds : ℕ) :
    searchLoop mb family P O budget (n + rounds) noChunk =
      searchLoop mb family P O budget rounds (countConfig counts) := by
  induction n generalizing counts rounds with
  | zero =>
    cases h
    rw [zero_add]
    rfl
  | succ n ih =>
    obtain ⟨before, hbefore, hcut⟩ := Option.bind_eq_some_iff.mp h
    obtain ⟨ha, hb, -⟩ := Costs.path_counts hbefore
    obtain ⟨_, hround⟩ := exists_round budget mono zero hP hO ⟨ha, hb⟩
    rw [rejects n before (Nat.lt_succ_self n) hbefore, if_neg Bool.false_ne_true, hcut] at hround
    rw [Nat.succ_add, ← Nat.add_succ,
      ih hbefore (fun m counts hm => rejects m counts (Nat.lt_succ_of_lt hm)) (rounds + 1),
      searchLoop, hround]

/-- The search returns a configuration or gives up because the fixed part is the bottleneck. -/
def Terminates (mb : ℕ → F) (P O : ℕ) (poolSize : ℤ) (modelName : String) : Prop :=
  ∃ rounds,
    (∃ result, searchOptimalConfigOnline mb P O poolSize modelName rounds = some (.ok result)) ∨
    ∃ totalBytes components, searchOptimalConfigOnline mb P O poolSize modelName rounds =
      some (.error (.fixedBottleneck P O totalBytes (poolSize - safetyMarginBytes) components))

/-- The search ends where the cutting ends or meets a plan that fits. -/
theorem terminates_iff_path (mono : Monotone mb) (zero : mb 0 = 0) (modelName : String)
    (hP : 1 ≤ P) (hO : 1 ≤ O) (poolSize : ℤ) :
    Terminates mb P O poolSize modelName ↔
      (∃ n counts, (mbCosts mb (modelFamily modelName) P O).path n = some counts ∧
        accepts (modelFamily modelName) (poolSize - safetyMarginBytes)
          (planBytes (modelFamily modelName) P O counts) = true) ∨
      ∃ n, (mbCosts mb (modelFamily modelName) P O).path n = none := by
  unfold Terminates searchOptimalConfigOnline
  generalize modelFamily modelName = family
  generalize poolSize - safetyMarginBytes = budget
  constructor
  · rintro ⟨rounds, hends⟩
    by_contra hnot
    rw [not_or] at hnot
    obtain ⟨hrejects, hpath⟩ := hnot
    -- the path goes on, and so does the loop
    obtain ⟨counts, hcounts⟩ :=
      Option.ne_none_iff_exists'.mp fun hnone => hpath ⟨rounds, hnone⟩
    have hloop := searchLoop_path budget mono zero hP hO hcounts (fun m counts _ hm =>
      eq_false_of_ne_true fun haccepts => hrejects ⟨m, counts, hm, haccepts⟩) 0
    rw [add_zero, searchLoop] at hloop
    simp [hloop] at hends
  · intro hends
    -- the first configuration that is accepted or cannot be cut ends the loop
    have hexists : ∃ n, (∃ counts, (mbCosts mb family P O).path n = some counts ∧
        accepts family budget (planBytes family P O counts) = true) ∨
        (mbCosts mb family P O).path (n + 1) = none := by
      rcases hends with ⟨n, hn⟩ | ⟨n, hn⟩
      · exact ⟨n, .inl hn⟩
      · exact ⟨n, .inr (by rw [Costs.path_succ, hn, Option.bind_none])⟩
    have hfirst := Nat.find_spec hexists
    have hbefore := fun m hm => Nat.find_min (m := m) hexists hm
    generalize Nat.find hexists = n at hfirst hbefore
    obtain ⟨counts, hcounts⟩ : ∃ counts, (mbCosts mb family P O).path n = some counts := by
      rcases hfirst with ⟨counts, hcounts, -⟩ | hnone
      · exact ⟨counts, hcounts⟩
      · cases n with
        | zero => exact ⟨_, rfl⟩
        | succ n =>
          exact Option.ne_none_iff_exists'.mp fun h => hbefore n (Nat.lt_succ_self n) (.inr h)
    have hloop := searchLoop_path budget mono zero hP hO hcounts (fun m counts hm h =>
      eq_false_of_ne_true fun haccepts => hbefore m hm (.inl ⟨counts, h, haccepts⟩)) 1
    obtain ⟨ha, hb, -⟩ := Costs.path_counts hcounts
    obtain ⟨_, hround⟩ := exists_round budget mono zero hP hO ⟨ha, hb⟩
    refine ⟨n + 1, ?_⟩
    rw [hloop, searchLoop, hround]
    cases haccepts : accepts family budget (planBytes family P O counts) with
    | true => exact .inl ⟨_, rfl⟩
    | false =>
      have hcut : (mbCosts mb family P O).cut counts = none := by
        rcases hfirst with ⟨counts', hcounts', haccepts'⟩ | hnone
        · rw [hcounts] at hcounts'
          cases hcounts'
          rw [haccepts] at haccepts'
          cases haccepts'
        · rwa [Costs.path_succ, hcounts, Option.bind_some] at hnone
      rw [if_neg Bool.false_ne_true, hcut]
      exact .inr ⟨_, _, rfl⟩

end Loop

/-! ### The sizes of plans -/

section Sizes

variable {family : Family} {P O : ℕ} {counts counts' : ℕ × ℕ} {count chunks : ℕ}

theorem maxChunkSize_eq (hcount : 1 ≤ count) (hchunks : 1 ≤ chunks) :
    maxChunkSize count chunks = (count - 1) / chunks + 1 := by
  rw [maxChunkSize, show count + chunks - 1 = count - 1 + chunks by omega,
    Nat.add_div_right _ hchunks]

theorem maxChunkSize_anti {count chunks chunks' : ℕ} (hcount : 1 ≤ count) (hchunks : 1 ≤ chunks)
    (hle : chunks ≤ chunks') : maxChunkSize count chunks' ≤ maxChunkSize count chunks := by
  rw [maxChunkSize_eq hcount hchunks, maxChunkSize_eq hcount (hchunks.trans hle)]
  exact Nat.succ_le_succ (Nat.div_le_div_left hle hchunks)

theorem maxChunkSize_le (hcount : 1 ≤ count) (hchunks : 1 ≤ chunks) :
    1 ≤ maxChunkSize count chunks ∧ maxChunkSize count chunks ≤ count := by
  rw [maxChunkSize_eq hcount hchunks]
  have hle := Nat.div_le_self (count - 1) chunks
  generalize (count - 1) / chunks = quotient at hle ⊢
  omega

/-- With as many chunks as there are rows, every chunk has one row. -/
theorem maxChunkSize_eq_one (hcount : 1 ≤ count) (hle : count ≤ chunks) :
    maxChunkSize count chunks = 1 := by
  rw [maxChunkSize_eq hcount (hcount.trans hle), Nat.div_eq_of_lt (by omega)]

theorem chunkRows_eq_one (hcount : 1 ≤ count) (hle : count ≤ chunks) :
    chunkRows count chunks = 1 := by
  unfold chunkRows
  split
  · exact maxChunkSize_eq_one hcount hle
  · omega

theorem chunkRows_pos {count : ℕ} (hcount : 1 ≤ count) (chunks : ℕ) :
    1 ≤ chunkRows count chunks := by
  unfold chunkRows
  split
  · exact (maxChunkSize_le hcount (by omega)).1
  · exact hcount

theorem chunkRows_anti {count chunks chunks' : ℕ} (hcount : 1 ≤ count) (hle : chunks ≤ chunks') :
    chunkRows count chunks' ≤ chunkRows count chunks := by
  unfold chunkRows
  split_ifs
  · exact maxChunkSize_anti hcount (by omega) hle
  · exact (maxChunkSize_le hcount (by omega)).2
  · omega
  · exact le_rfl

/-- The plan with given numbers of chunks. -/
theorem exists_plan_counts (family : Family) (hP : 1 ≤ P) (hO : 1 ≤ O)
    (h : 1 ≤ counts.1 ∧ 1 ≤ counts.2) :
    ∃ g plan, IsBlock (countShape family P O hP hO counts h) g ∧
      generateOptimizedReusePlan g = .ok plan ∧
      planBytes family P O counts = plan.totalBufferSizeBytes := by
  obtain ⟨g, hgraph, hg⟩ := family.exists_graph (some (countConfig counts)) P O hP hO
    (fun _ hs => Option.some.inj hs ▸ h.1) (fun _ hs => Option.some.inj hs ▸ h.2)
  obtain ⟨analysis, hanalysis⟩ := exists_analysis_block hg
  have hsearch : (searchGraph family (countConfig counts) P O >>= analyze) = .ok analysis := by
    rw [searchGraph_eq, hgraph]
    exact hanalysis
  refine ⟨g, analysis.reusePlan, hg, generateOptimizedReusePlan_of_analyze hanalysis, ?_⟩
  rw [planBytes, analyzedPlan_eq_ok hsearch]

/-- The number of bytes of the hidden states. -/
def hiddenOf (family : Family) (P : ℕ) : ℕ :=
  P * (family.config.hiddenSize * 2)

/-- The end of the attention part. -/
def attentionOf (family : Family) (P : ℕ) : ℕ :=
  max (3 * hiddenOf family P + 2 * (P * (family.config.kvWidth * 2))) (4 * hiddenOf family P)

/-- The end of the feed-forward part in chunks of some rows. -/
def chunkedOf (family : Family) (P rows : ℕ) : ℕ :=
  match family with
  | .lladaMoe => moeEnd (hiddenOf family P) (rows * (family.secondStage.width * 2))
  | _ => denseEnd (hiddenOf family P) (rows * (family.secondStage.width * 2))

/-- Where the first two intermediate tensors end that are not chunked. -/
def plainOf (family : Family) (P : ℕ) : ℕ :=
  4 * hiddenOf family P + P * (family.firstStage.width * 2) + P * (family.secondStage.width * 2)

/-- The end of the logits in chunks of some rows. -/
def logitsOf (family : Family) (P rows : ℕ) : ℕ :=
  hiddenOf family P + rows * (family.config.vocabSize * 2)

theorem chunkedOf_mono (family : Family) (P : ℕ) {rows rows' : ℕ} (h : rows ≤ rows') :
    chunkedOf family P rows ≤ chunkedOf family P rows' := by
  unfold chunkedOf
  split
  · exact moeEnd_mono (Nat.mul_le_mul_right _ h)
  · exact denseEnd_mono (Nat.mul_le_mul_right _ h)

section

variable (hP : 1 ≤ P) (hO : 1 ≤ O) (h : 1 ≤ counts.1 ∧ 1 ≤ counts.2)
include hP hO h

theorem attentionOf_le : attentionOf family P ≤ planBytes family P O counts := by
  obtain ⟨_, _, hg, hplan, htotal⟩ := exists_plan_counts family hP hO h
  have hle := hg.attentionEnd_le_total hplan
  rw [BlockShape.attentionEnd, BlockShape.hiddenBytes_eq, BlockShape.kvBytes_eq] at hle
  rw [htotal]
  exact hle

theorem logitsOf_le : logitsOf family P (chunkRows O counts.2) ≤ planBytes family P O counts := by
  obtain ⟨_, _, hg, hplan, htotal⟩ := exists_plan_counts family hP hO h
  have hle := hg.logitsEnd_le_total hplan
  rw [BlockShape.logitsEnd, BlockShape.hiddenBytes_eq, countShape_logitsRows] at hle
  rw [htotal]
  exact hle

theorem chunkedEnd_countShape (hchunks : 2 ≤ counts.1) :
    (countShape family P O hP hO counts h).chunkedEnd =
      chunkedOf family P (maxChunkSize P counts.1) := by
  have hrows := countShape_rows family hP hO h
  rw [chunkRows, if_pos hchunks] at hrows
  unfold BlockShape.chunkedEnd BlockShape.stageBytes
  rw [hrows, BlockShape.hiddenBytes_eq]
  cases family <;> rfl

theorem chunkedOf_le (hchunks : 2 ≤ counts.1) :
    chunkedOf family P (maxChunkSize P counts.1) ≤ planBytes family P O counts := by
  obtain ⟨_, _, hg, hplan, htotal⟩ := exists_plan_counts family hP hO h
  rw [htotal, ← chunkedEnd_countShape hP hO h hchunks]
  exact hg.chunkedEnd_le_total hplan (by simpa using hchunks)

theorem plainOf_le (hplain : counts.1 = 1) : plainOf family P ≤ planBytes family P O counts := by
  obtain ⟨_, _, hg, hplan, htotal⟩ := exists_plan_counts family hP hO h
  have hle := hg.plainEnd_le_total hplan (by simp [hplain])
  have hrows := countShape_rows family hP hO h
  rw [chunkRows, if_neg (by omega)] at hrows
  unfold BlockShape.plainEnd BlockShape.stageBytes at hle
  rw [hrows, BlockShape.hiddenBytes_eq] at hle
  rw [htotal]
  exact hle

/-- A plan in chunks takes no more than its parts. -/
theorem planBytes_le (hchunks : 2 ≤ counts.1) : planBytes family P O counts ≤
      max (max (attentionOf family P) (chunkedOf family P (maxChunkSize P counts.1)))
        (logitsOf family P (chunkRows O counts.2)) := by
  obtain ⟨_, _, hg, hplan, htotal⟩ := exists_plan_counts family hP hO h
  have hle := hg.total_le hplan (by simpa using hchunks)
  rw [chunkedEnd_countShape hP hO h hchunks, BlockShape.attentionEnd, BlockShape.logitsEnd,
    BlockShape.hiddenBytes_eq, BlockShape.kvBytes_eq, countShape_logitsRows] at hle
  rw [htotal]
  exact hle

end

/-- With other chunks of the logits, a plan grows at most as far as the logits do. -/
theorem planBytes_le_logits (hP : 1 ≤ P) (hO : 1 ≤ O) {a b b' : ℕ} (ha : 1 ≤ a) (hb : 1 ≤ b)
    (hb' : 1 ≤ b') :
    planBytes family P O (a, b') ≤
      max (planBytes family P O (a, b)) (logitsOf family P (chunkRows O b')) := by
  obtain ⟨_, _, hg, hplan, htotal⟩ := exists_plan_counts family hP hO
    (show 1 ≤ (a, b).1 ∧ 1 ≤ (a, b).2 from ⟨ha, hb⟩)
  obtain ⟨_, _, hg', hplan', htotal'⟩ := exists_plan_counts family hP hO
    (show 1 ≤ (a, b').1 ∧ 1 ≤ (a, b').2 from ⟨ha, hb'⟩)
  have hpos : 0 < chunkRows O b' := chunkRows_pos hO b'
  have hshape : countShape family P O hP hO (a, b') ⟨ha, hb'⟩ =
      { countShape family P O hP hO (a, b) ⟨ha, hb⟩ with
        logitsRows := chunkRows O b', logitsRows_pos := hpos } :=
    (BlockShape.mk.injEq ..).mpr ⟨rfl, rfl, rfl, rfl, countShape_logitsRows family hP hO ⟨ha, hb'⟩⟩
  rw [hshape] at hg'
  have hle := hg.total_le_logitsRows hpos hplan hg' hplan'
  rw [BlockShape.hiddenBytes_eq] at hle
  rw [htotal, htotal']
  exact hle

end Sizes

/-! ### Short inputs -/

/-- From this number of tokens on, the fixed part weighs at least as much as one row of the other
parts. -/
def leastTokens : Family → ℕ
  | .llada => 9
  | .dream => 111
  | .lladaMoe => 20

/-- The numbers of chunks at which the cutting comes to rest for short inputs: if one row of the
feed-forward part outweighs one row of the logits, the logits are cut until they weigh less than
it, and else the feed-forward part is cut until it weighs no more than one row of the logits. The
other part is then cut for ever. -/
def restCounts (family : Family) (P O : ℕ) : ℕ × ℕ :=
  let costs := peakCosts family P O
  let row := costs.first (P + 1)
  let logitsRow := costs.second O
  if logitsRow < row then (P + 2, leastCount O fun chunks => costs.second chunks < row)
  else (leastCount (P + 1) fun chunks => costs.first chunks ≤ logitsRow, O + 1)

section Short

variable {family : Family} {P O : ℕ}

theorem accepts_mono {budget : ℤ} {total total' : ℕ} (hle : total' ≤ total)
    (h : accepts family budget total = true) : accepts family budget total' = true := by
  have hfits := le_of_accepts h
  unfold accepts at h ⊢
  rw [if_pos hfits] at h
  rw [if_pos (by omega)]
  split
  · rename_i hmoe
    rw [if_pos hmoe] at h
    rw [Bool.not_eq_true', decide_eq_false_iff_not] at h ⊢
    omega
  · rfl

/-- The peaks of the feed-forward part with one row for each chunk. -/
theorem first_eq_row (family : Family) (O : ℕ) (hP : 1 ≤ P) (chunks : ℕ)
    (hchunks : P + 1 ≤ chunks) :
    (peakCosts family P O).first chunks = keptPerToken family * P + stagesPerRow family := by
  dsimp only [peakCosts]
  rw [mlpPeak, if_pos (by omega), maxChunkSize_eq_one hP (by omega), mul_one]

theorem second_eq_row (family : Family) (P : ℕ) (hO : 1 ≤ O) (chunks : ℕ) (hchunks : O ≤ chunks) :
    (peakCosts family P O).second chunks = logitsPerRow family := by
  dsimp only [peakCosts]
  rw [chunkRows_eq_one hO hchunks, mul_one]

/-- Long inputs: with one row for each chunk, the fixed part outweighs the others. -/
theorem row_le_fixed (hP : leastTokens family ≤ P) :
    keptPerToken family * P + stagesPerRow family ≤ fixedPerToken family * P ∧
      logitsPerRow family ≤ fixedPerToken family * P := by
  cases family with
  | llada =>
    change 9 ≤ P at hP
    change 24576 * P + 73728 ≤ 32768 * P ∧ 252928 ≤ 32768 * P
    omega
  | dream =>
    change 111 ≤ P at hP
    change 21504 * P + 113664 ≤ 22528 * P ∧ 304128 ≤ 22528 * P
    omega
  | lladaMoe =>
    change 20 ≤ P at hP
    change 12288 * P + 81920 ≤ 16384 * P ∧ 314368 ≤ 16384 * P
    omega

/-- Short inputs: the feed-forward part outweighs the fixed part in any number of chunks. -/
theorem fixed_lt_first (hP : 1 ≤ P) (hshort : P < leastTokens family) (chunks : ℕ) :
    (peakCosts family P O).fixed < (peakCosts family P O).first chunks := by
  have hrows : 1 ≤ maxChunkSize P chunks ∨ ¬ 2 ≤ chunks := by
    by_cases h : 2 ≤ chunks
    · exact .inl (maxChunkSize_le hP (by omega)).1
    · exact .inr h
  dsimp only [peakCosts]
  unfold mlpPeak
  generalize maxChunkSize P chunks = rows at hrows ⊢
  cases family with
  | llada =>
    change P < 9 at hshort
    change 32768 * P < if 2 ≤ chunks then 24576 * P + 73728 * rows else 57344 * P
    split <;> omega
  | dream =>
    change P < 111 at hshort
    change 22528 * P < if 2 ≤ chunks then 21504 * P + 113664 * rows else 82944 * P
    split <;> omega
  | lladaMoe =>
    change P < 20 at hshort
    change 16384 * P < if 2 ≤ chunks then 12288 * P + 81920 * rows else 36864 * P
    split <;> omega

/-- Where one row of the feed-forward part outweighs one row of the logits, the feed-forward part
is never lighter than with one row. -/
theorem row_le_first (hP : 1 ≤ P)
    (hheavy : logitsPerRow family < keptPerToken family * P + stagesPerRow family)
    (hshort : P < leastTokens family) :
    (∀ chunks, keptPerToken family * P + stagesPerRow family ≤
        (peakCosts family P O).first chunks) ∧
      logitsPerRow family < plainPerToken family * P := by
  have hplain : keptPerToken family * P + stagesPerRow family ≤ plainPerToken family * P ∧
      logitsPerRow family < plainPerToken family * P := by
    cases family with
    | llada =>
      change 252928 < 24576 * P + 73728 at hheavy
      change 24576 * P + 73728 ≤ 57344 * P ∧ 252928 < 57344 * P
      omega
    | dream =>
      change 304128 < 21504 * P + 113664 at hheavy
      change 21504 * P + 113664 ≤ 82944 * P ∧ 304128 < 82944 * P
      omega
    | lladaMoe =>
      change 314368 < 12288 * P + 81920 at hheavy
      change 12288 * P + 81920 ≤ 36864 * P ∧ 314368 < 36864 * P
      omega
  refine ⟨fun chunks => ?_, hplain.2⟩
  dsimp only [peakCosts]
  unfold mlpPeak
  split
  · have hrows : 1 ≤ maxChunkSize P chunks := (maxChunkSize_le hP (by omega)).1
    exact Nat.add_le_add_left (Nat.le_mul_of_pos_right _ hrows) _
  · exact hplain.1

/-- Chunks that weigh no more than the logits take less memory than the part in one piece. -/
theorem chunkedOf_le_plainOf {rows : ℕ} (hshort : P < leastTokens family)
    (hplain : logitsPerRow family < plainPerToken family * P)
    (hrows : rows = 1 ∨
      keptPerToken family * P + stagesPerRow family * rows ≤ logitsPerRow family) :
    chunkedOf family P rows ≤ plainOf family P := by
  cases family with
  | llada =>
    change 252928 < 57344 * P at hplain
    change rows = 1 ∨ 24576 * P + 73728 * rows ≤ 252928 at hrows
    change denseEnd (P * 8192) (rows * 24576) ≤ 4 * (P * 8192) + P * 24576 + P * 24576
    unfold denseEnd
    split_ifs <;> omega
  | dream =>
    change 304128 < 82944 * P at hplain
    change rows = 1 ∨ 21504 * P + 113664 * rows ≤ 304128 at hrows
    change denseEnd (P * 7168) (rows * 37888) ≤ 4 * (P * 7168) + P * 37888 + P * 37888
    unfold denseEnd
    split_ifs <;> omega
  | lladaMoe =>
    change 314368 < 36864 * P at hplain
    change rows = 1 ∨ 12288 * P + 81920 * rows ≤ 314368 at hrows
    change moeEnd (P * 4096) (rows * 16384) ≤ 4 * (P * 4096) + P * 32768 + P * 16384
    unfold moeEnd
    split_ifs <;> omega

section

variable (hP : 1 ≤ P) (hO : 1 ≤ O) (hshort : P < leastTokens family)
include hP hO hshort

/-- The cutting rests where the logits weigh less than one row of the feed-forward part. -/
theorem rest_of_heavy_row
    (hheavy : logitsPerRow family < keptPerToken family * P + stagesPerRow family) :
    (∃ n, (peakCosts family P O).path n = some (restCounts family P O)) ∧
      ∀ n counts, (peakCosts family P O).path n = some counts →
        planBytes family P O (restCounts family P O) ≤ planBytes family P O counts := by
  have hrow := first_eq_row family O hP
  have hlogits := second_eq_row family P hO O le_rfl
  obtain ⟨hleast, hplain⟩ := row_le_first (O := O) hP hheavy hshort
  have hlast : decide ((peakCosts family P O).second O < (peakCosts family P O).first (P + 1)) =
      true := by
    rw [hlogits, hrow _ le_rfl]
    exact decide_eq_true hheavy
  obtain ⟨hB, -, hcheap, hdear⟩ := leastCount_spec (p := fun chunks =>
    (peakCosts family P O).second chunks < (peakCosts family P O).first (P + 1)) hO hlast
  have hrest : restCounts family P O = (P + 2, leastCount O fun chunks =>
      (peakCosts family P O).second chunks < (peakCosts family P O).first (P + 1)) :=
    if_pos (of_decide_eq_true hlast)
  rw [hrest]
  generalize leastCount O _ = B at hB hcheap hdear ⊢
  obtain ⟨hbound, hvisited⟩ := Costs.path_rest_second (c := peakCosts family P O) (K := P + 1)
    (by omega) (fixed_lt_first hP hshort (P + 1)) (fun a _ => by rw [hrow _ le_rfl]; exact hleast a)
    (fun a ha => by rw [hrow _ le_rfl, hrow a ha]) hB (of_decide_eq_true hcheap)
    fun b hb hlt => not_lt.mp (of_decide_eq_false (hdear b hb hlt))
  refine ⟨hvisited, ?_⟩
  rintro n ⟨a, b⟩ hpath
  obtain ⟨ha, hb, -⟩ := Costs.path_counts hpath
  have hcounts : 1 ≤ (a, b).1 ∧ 1 ≤ (a, b).2 := ⟨ha, hb⟩
  -- the plan at rest takes no more than its parts, and each part is no larger than here
  refine (planBytes_le hP hO ⟨by dsimp only; omega, hB⟩ (by dsimp only; omega)).trans
    (max_le (max_le (attentionOf_le hP hO hcounts) ?_) ?_)
  · rw [maxChunkSize_eq_one hP (by omega)]
    by_cases hchunks : 2 ≤ a
    · exact (chunkedOf_mono family P (maxChunkSize_le hP ha).1).trans
        (chunkedOf_le hP hO hcounts hchunks)
    · exact (chunkedOf_le_plainOf hshort hplain (.inl rfl)).trans
        (plainOf_le hP hO hcounts (by dsimp only; omega))
  · refine le_trans (Nat.add_le_add_left (Nat.mul_le_mul_right _ ?_) _) (logitsOf_le hP hO hcounts)
    exact chunkRows_anti hO (hbound n a b hpath)

/-- The cutting rests where the feed-forward part weighs no more than one row of the logits. -/
theorem rest_of_light_row
    (hlight : keptPerToken family * P + stagesPerRow family ≤ logitsPerRow family) :
    (∃ n, (peakCosts family P O).path n = some (restCounts family P O)) ∧
      ∀ n counts, (peakCosts family P O).path n = some counts →
        planBytes family P O (restCounts family P O) ≤ planBytes family P O counts := by
  have hrow := first_eq_row family O hP
  have hlogits := second_eq_row family P hO
  have hlast : decide ((peakCosts family P O).first (P + 1) ≤ (peakCosts family P O).second O) =
      true := by
    rw [hlogits O le_rfl, hrow _ le_rfl]
    exact decide_eq_true hlight
  obtain ⟨hA, -, hcheap, hdear⟩ := leastCount_spec (p := fun chunks =>
    (peakCosts family P O).first chunks ≤ (peakCosts family P O).second O)
    (Nat.le_add_left 1 P) hlast
  have hrest : restCounts family P O = (leastCount (P + 1) fun chunks =>
      (peakCosts family P O).first chunks ≤ (peakCosts family P O).second O, O + 1) :=
    if_neg (not_lt.mpr (of_decide_eq_true hlast))
  rw [hrest]
  generalize leastCount (P + 1) _ = A at hA hcheap hdear ⊢
  have hdear : ∀ a, 1 ≤ a → a < A →
      (peakCosts family P O).second O < (peakCosts family P O).first a :=
    fun a ha hlt => not_le.mp (of_decide_eq_false (hdear a ha hlt))
  have hcheap : (peakCosts family P O).first A ≤ (peakCosts family P O).second O :=
    of_decide_eq_true hcheap
  obtain ⟨hbound, hvisited⟩ := Costs.path_rest_first (c := peakCosts family P O) (L := O) hO
    ((fixed_lt_first hP hshort (P + 1)).trans_le (of_decide_eq_true hlast))
    (fun b hb => Nat.mul_le_mul_left _ (by
      rw [chunkRows_eq_one hO le_rfl]
      exact chunkRows_pos hO b))
    (fun b hb => by rw [hlogits O le_rfl, hlogits b hb]) hA hcheap hdear
  refine ⟨hvisited, ?_⟩
  rintro n ⟨a, b⟩ hpath
  obtain ⟨ha, hb, -⟩ := Costs.path_counts hpath
  have hcounts : 1 ≤ (a, b).1 ∧ 1 ≤ (a, b).2 := ⟨ha, hb⟩
  have haA := hbound n a b hpath
  have hlogitsOf : logitsOf family P (chunkRows O (O + 1)) ≤ planBytes family P O (a, b) := by
    refine le_trans (Nat.add_le_add_left (Nat.mul_le_mul_right _ ?_) _) (logitsOf_le hP hO hcounts)
    rw [chunkRows_eq_one hO (by omega)]
    exact chunkRows_pos hO b
  by_cases hplain : A = 1
  · -- nothing but the logits differs
    obtain rfl : a = A := by omega
    exact (planBytes_le_logits hP hO ha hb (by omega)).trans (max_le le_rfl hlogitsOf)
  · refine (planBytes_le hP hO ⟨hA, by dsimp only; omega⟩ (by dsimp only; omega)).trans
      (max_le (max_le (attentionOf_le hP hO hcounts) ?_) hlogitsOf)
    by_cases hchunks : 2 ≤ a
    · exact (chunkedOf_mono family P (maxChunkSize_anti hP ha haA)).trans
        (chunkedOf_le hP hO hcounts hchunks)
    · refine le_trans (chunkedOf_le_plainOf hshort ?_ (.inr ?_))
        (plainOf_le hP hO hcounts (by dsimp only; omega))
      · have hone := hdear 1 le_rfl (by omega)
        rw [hlogits O le_rfl] at hone
        exact hone
      · rw [hlogits O le_rfl] at hcheap
        dsimp only [peakCosts] at hcheap
        rwa [mlpPeak, if_pos (by omega)] at hcheap

/-- For short inputs the cutting reaches its rest, and no plan on the way is smaller than the plan
at rest. -/
theorem path_rest : (∃ n, (peakCosts family P O).path n = some (restCounts family P O)) ∧
      ∀ n counts, (peakCosts family P O).path n = some counts →
        planBytes family P O (restCounts family P O) ≤ planBytes family P O counts := by
  rcases lt_or_ge (logitsPerRow family) (keptPerToken family * P + stagesPerRow family) with
    hheavy | hlight
  · exact rest_of_heavy_row hP hO hshort hheavy
  · exact rest_of_light_row hP hO hshort hlight

end

/-- For short inputs all numbers that matter are small. -/
theorem peaks_small (hP : 1 ≤ P) (hshort : P < leastTokens family) :
    (peakCosts family P O).fixed < 2 ^ 50 ∧
      ∀ chunks, (peakCosts family P O).first chunks < 2 ^ 53 := by
  have hrows : ∀ chunks, maxChunkSize P chunks ≤ P ∨ ¬ 2 ≤ chunks := by
    intro chunks
    by_cases h : 2 ≤ chunks
    · exact .inl (maxChunkSize_le hP (by omega)).2
    · exact .inr h
  dsimp only [peakCosts]
  unfold mlpPeak
  cases family with
  | llada =>
    change P < 9 at hshort
    change 32768 * P < 2 ^ 50 ∧ ∀ chunks, (if 2 ≤ chunks then
      24576 * P + 73728 * maxChunkSize P chunks else 57344 * P) < 2 ^ 53
    refine ⟨by omega, fun chunks => ?_⟩
    have := hrows chunks
    split <;> omega
  | dream =>
    change P < 111 at hshort
    change 22528 * P < 2 ^ 50 ∧ ∀ chunks, (if 2 ≤ chunks then
      21504 * P + 113664 * maxChunkSize P chunks else 82944 * P) < 2 ^ 53
    refine ⟨by omega, fun chunks => ?_⟩
    have := hrows chunks
    split <;> omega
  | lladaMoe =>
    change P < 20 at hshort
    change 16384 * P < 2 ^ 50 ∧ ∀ chunks, (if 2 ≤ chunks then
      12288 * P + 81920 * maxChunkSize P chunks else 36864 * P) < 2 ^ 53
    refine ⟨by omega, fun chunks => ?_⟩
    have := hrows chunks
    split <;> omega

end Short

/-! ### Termination -/

section Terminates

variable {F : Type} [LinearOrder F] [Zero F] {mb : ℕ → F} {family : Family} {P O : ℕ}

omit [Zero F] in
/-- Megabytes are compared like bytes as long as one of the numbers is represented exactly. -/
theorem mb_lt_iff (mono : Monotone mb) (strict : StrictMonoOn mb (Set.Iio (2 ^ 53))) {x y : ℕ}
    (h : x + 1 < 2 ^ 53 ∨ y < 2 ^ 53) : mb x < mb y ↔ x < y := by
  refine ⟨mono.reflect_lt, fun hlt => ?_⟩
  rcases h with hx | hy
  · exact (strict (show x < 2 ^ 53 by omega) hx (Nat.lt_succ_self x)).trans_le (mono hlt)
  · exact strict (hlt.trans hy) hy hlt

omit [Zero F] in
theorem path_mbCosts (mono : Monotone mb) (strict : StrictMonoOn mb (Set.Iio (2 ^ 53)))
    (hP : 1 ≤ P) (hshort : P < leastTokens family) (n : ℕ) :
    (mbCosts mb family P O).path n = (peakCosts family P O).path n := by
  obtain ⟨hfixed, hfirst⟩ := peaks_small (O := O) hP hshort
  exact Costs.path_congr (fun a => mb_lt_iff mono strict (.inl (by omega)))
    (fun b => mb_lt_iff mono strict (.inl (by omega)))
    (fun a b => mb_lt_iff mono strict (.inr (hfirst a))) n

omit [Zero F] in
/-- For short inputs the cutting never ends. -/
theorem path_ne_none (mono : Monotone mb) (strict : StrictMonoOn mb (Set.Iio (2 ^ 53)))
    (hP : 1 ≤ P) (hshort : P < leastTokens family) (n : ℕ) :
    (mbCosts mb family P O).path n ≠ none := by
  rw [path_mbCosts mono strict hP hshort]
  obtain ⟨counts, hcounts⟩ :=
    Costs.path_isSome (c := peakCosts family P O) (.inl fun a _ => fixed_lt_first hP hshort a) n
  rw [hcounts]
  exact Option.some_ne_none counts

/-- The search ends if and only if the input is long enough for the fixed part to become the
bottleneck, or the plan fits at which the cutting comes to rest. -/
theorem search_terminates_iff (mono : Monotone mb) (strict : StrictMonoOn mb (Set.Iio (2 ^ 53)))
    (zero : mb 0 = 0) (modelName : String) (hP : 1 ≤ P) (hO : 1 ≤ O) (poolSize : ℤ) :
    Terminates mb P O poolSize modelName ↔
      leastTokens (modelFamily modelName) ≤ P ∨
      accepts (modelFamily modelName) (poolSize - safetyMarginBytes)
        (planBytes (modelFamily modelName) P O (restCounts (modelFamily modelName) P O)) =
          true := by
  rw [terminates_iff_path mono zero modelName hP hO poolSize]
  generalize modelFamily modelName = family
  rcases le_or_gt (leastTokens family) P with hlong | hshort
  · -- with one row for each chunk, nothing outweighs the fixed part
    refine iff_of_true (.inr ⟨P + 1 + O, ?_⟩) (.inl hlong)
    obtain ⟨hmlp, hlogits⟩ := row_le_fixed hlong
    refine Costs.path_eq_none (by omega) hO (mono ?_) (mono ?_)
    · rw [first_eq_row family O hP _ le_rfl]
      exact hmlp
    · rw [second_eq_row family P hO O le_rfl]
      exact hlogits
  · obtain ⟨⟨n, hvisited⟩, hleast⟩ := path_rest hP hO hshort
    constructor
    · rintro (⟨m, counts, hpath, haccepts⟩ | ⟨m, hnone⟩)
      · rw [path_mbCosts mono strict hP hshort] at hpath
        exact .inr (accepts_mono (hleast m counts hpath) haccepts)
      · exact absurd hnone (path_ne_none mono strict hP hshort m)
    · rintro (hlong | haccepts)
      · omega
      · refine .inl ⟨n, _, ?_, haccepts⟩
        rw [path_mbCosts mono strict hP hshort]
        exact hvisited

theorem toMb_strictMono : StrictMono toMb := by
  intro x y hlt
  unfold toMb
  have hlt : (x : ℚ) < y := Nat.cast_lt.mpr hlt
  exact div_lt_div_of_pos_right hlt (by norm_num)

theorem toMb_zero : toMb 0 = 0 := by
  simp [toMb]

theorem search_terminates_nine_tokens : Terminates toMb 9 1 0 "llada" :=
  (search_terminates_iff toMb_strictMono.monotone (toMb_strictMono.strictMonoOn _) toMb_zero "llada"
    (by decide) (by decide) 0).mpr (.inl (by decide))

/-- Nothing fits into a pool smaller than the safety margin, and with one token the logits outweigh
the fixed part for ever. -/
theorem search_never_ends : ¬ Terminates toMb 1 1 0 "llada" := by
  rw [terminates_iff_path toMb_strictMono.monotone toMb_zero "llada" le_rfl le_rfl 0]
  rintro (⟨n, _, -, haccepts⟩ | ⟨n, hnone⟩)
  · have hfits := le_of_accepts haccepts
    rw [safetyMarginBytes] at hfits
    omega
  · exact path_ne_none toMb_strictMono.monotone (toMb_strictMono.strictMonoOn _) le_rfl
      (by decide) n hnone

end Terminates

end Search
