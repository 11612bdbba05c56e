import Mosaic.Block.BlockTotals
import Mosaic.Search.ModelPlans

/-!
# The peaks of a block

The searcher compares the peaks of three parts of a block. Which tensors are in memory when a node
runs depends on the names in the graph only, so each peak is a linear expression in the numbers of
tokens and rows: the fixed part has the queries, keys and values beside the input, the feed-forward
part everything between its input and its output, the logits nothing but themselves.
-/

namespace Search

open List Fallible Graph Block

/-! ### Live sets from names -/

section Residents

variable {ν : Type} [DecidableEq ν]

/-- The tensors that are live after each node, from the names alone. -/
def orderLiveness (order : List (ν × List ν)) : List (ν × Finset ν) :=
  (order.foldr (fun entry acc =>
    ((entry.1, acc.2) :: acc.1, acc.2.erase entry.1 ∪ entry.2.toFinset)) ([], ∅)).1

theorem analyzeLiveness_eq (g : CustomGraph ν) :
    analyzeLiveness g = orderLiveness (skeleton g) := by
  rw [analyzeLiveness, orderLiveness, skeleton, foldr_map]
  rfl

/-- The tensors in memory when the node that produces `name` runs, in the order of the nodes. -/
def residents (order : List (ν × List ν)) (name : ν) : List ν :=
  (order.map Prod.fst).filter fun other =>
    other ∈ liveAfter (orderLiveness order) name ∪ {name}

/-- In a closed graph the live memory is that of the residents. -/
theorem liveBytes_eq {g : CustomGraph ν} (closed : Closed g) {name : ν} (hname : name ∈ g.names) :
    liveBytes g name = ((residents (skeleton g) name).map g.tensorSize).sum := by
  have hnames : (skeleton g).map Prod.fst = g.names := by
    rw [skeleton, List.map_map]
    rfl
  have hset : liveSet g name = (residents (skeleton g) name).toFinset := by
    ext other
    rw [liveSet, analyzeLiveness_eq, residents, hnames, mem_toFinset, mem_filter,
      decide_eq_true_iff]
    refine ⟨fun h => ⟨?_, h⟩, fun h => h.2⟩
    rcases Finset.mem_union.mp h with hlive | hself
    · exact mem_names_of_liveAfter closed (analyzeLiveness_eq g ▸ hlive)
    · rwa [Finset.mem_singleton.mp hself]
  rw [liveBytes, hset, sum_toFinset]
  rw [residents, hnames]
  exact g.nodup.filter _

end Residents

/-! ### Parts -/

/-- The parts of a block that the searcher tells apart. -/
inductive Part where
  | fixed | mlp | logits
  deriving DecidableEq, Repr

/-- The part that a tensor counts for. -/
def partOf (name : TensorName) : Part :=
  if hasText "logits" name.text then .logits
  else if mlpKeywords.any (hasText · name.text) then .mlp
  else .fixed

/-- The highest peak among some nodes. -/
def highest (part : Part) (timeline : List (TimelineStep TensorName)) : ℕ :=
  ((timeline.filter fun step => partOf step.nodeName = part).map
    TimelineStep.totalMemoryBytes).foldl max 0

/-- The tensors in memory at each node of a part. -/
def partResidents (family : Family) (chunked : Bool) (part : Part) : List (List TensorName) :=
  (((blockOrder family chunked).map Prod.fst).filter (partOf · = part)).map
    (residents (blockOrder family chunked))

/-- The peaks of the parts of a block in bytes. -/
def peakBytes (s : BlockShape) (part : Part) : ℕ :=
  ((partResidents s.family s.chunked part).map fun names => (names.map s.bytes).sum).foldl max 0

section Components

variable {F : Type} [LinearOrder F] [Zero F] {mb : ℕ → F}

omit [Zero F] in
/-- A step counts for the part of its node. -/
theorem count_eq (mono : Monotone mb) (fixed mlp logits : ℕ) (total : F)
    (step : TimelineStep TensorName) :
    ∃ total', Components.count mb ⟨mb fixed, mb mlp, mb logits, total⟩ step =
      ⟨mb (if partOf step.nodeName = .fixed then max fixed step.totalMemoryBytes else fixed),
        mb (if partOf step.nodeName = .mlp then max mlp step.totalMemoryBytes else mlp),
        mb (if partOf step.nodeName = .logits then max logits step.totalMemoryBytes else logits),
        total'⟩ := by
  refine ⟨max total (mb step.totalMemoryBytes), ?_⟩
  have htext : toString step.nodeName = step.nodeName.text := rfl
  unfold Components.count partOf
  simp only [htext]
  split
  · simp [mono.map_max]
  · split
    · simp [mono.map_max]
    · simp [mono.map_max]

/-- The peaks over a timeline are the highest steps of each part. -/
theorem analyzeComponentsFromTimeline_eq (mono : Monotone mb) (zero : mb 0 = 0)
    (timeline : List (TimelineStep TensorName)) :
    let components := analyzeComponentsFromTimeline mb timeline
    components.fixedPeakMb = mb (highest .fixed timeline) ∧
      components.mlpPeakMb = mb (highest .mlp timeline) ∧
      components.logitsPeakMb = mb (highest .logits timeline) := by
  have hfold : ∀ (fixed mlp logits : ℕ) (total : F), ∃ total',
      timeline.foldl (Components.count mb) ⟨mb fixed, mb mlp, mb logits, total⟩ =
        ⟨mb (((timeline.filter fun step => partOf step.nodeName = .fixed).map
            TimelineStep.totalMemoryBytes).foldl max fixed),
          mb (((timeline.filter fun step => partOf step.nodeName = .mlp).map
            TimelineStep.totalMemoryBytes).foldl max mlp),
          mb (((timeline.filter fun step => partOf step.nodeName = .logits).map
            TimelineStep.totalMemoryBytes).foldl max logits), total'⟩ := by
    induction timeline with
    | nil => exact fun _ _ _ total => ⟨total, rfl⟩
    | cons step rest ih =>
      intro fixed mlp logits total
      obtain ⟨total', hstep⟩ := count_eq mono fixed mlp logits total step
      rw [foldl_cons, hstep]
      obtain ⟨total'', hrest⟩ := ih _ _ _ total'
      refine ⟨total'', ?_⟩
      rw [hrest]
      cases hpart : partOf step.nodeName <;> simp [hpart]
  obtain ⟨total, htotal⟩ := hfold 0 0 0 0
  rw [zero] at htotal
  rw [analyzeComponentsFromTimeline, htotal]
  exact ⟨rfl, rfl, rfl⟩

/-- The peaks that the searcher compares are those of the shape. -/
theorem components_eq (mono : Monotone mb) (zero : mb 0 = 0) {s : BlockShape}
    {g : CustomGraph TensorName} (hg : IsBlock s g) {analysis : Analysis TensorName}
    (h : analyze g = .ok analysis) :
    let components := analyzeComponentsFromTimeline mb analysis.memoryTimeline
    components.fixedPeakMb = mb (peakBytes s .fixed) ∧
      components.mlpPeakMb = mb (peakBytes s .mlp) ∧
      components.logitsPeakMb = mb (peakBytes s .logits) := by
  have htimeline : ∀ part, highest part analysis.memoryTimeline = peakBytes s part := by
    intro part
    have hclosed := closed_block hg
    obtain ⟨_, -, hrest⟩ := bind_eq_ok.mp h
    obtain ⟨timeline, hget, hrest⟩ := bind_eq_ok.mp hrest
    obtain ⟨_, -, hres⟩ := bind_eq_ok.mp hrest
    have hmade : analysis.memoryTimeline = timeline := by
      split at hres
      · cases hres
        rfl
      · cases hres
    rw [calculateMemoryTimeline_eq_ok hclosed] at hget
    cases hget
    -- the nodes are named as the shape says, and have its sizes
    have hbytes : ∀ name ∈ g.names, liveBytes g name =
        ((residents (blockOrder s.family s.chunked) name).map s.bytes).sum := by
      intro name hname
      rw [liveBytes_eq hclosed hname, hg.skeleton_eq]
      exact congrArg List.sum (map_congr_left fun other _ => hg.tensorSize_eq other)
    rw [hmade, highest, peakBytes, partResidents, ← hg.names_eq, CustomGraph.names,
      filter_map, filter_map, List.map_map, List.map_map, List.map_map]
    refine congrArg (List.foldl max 0) (map_congr_left fun node hnode => ?_)
    exact hbytes _ (mem_map_of_mem (mem_filter.mp hnode).1)
  obtain ⟨hfixed, hmlp, hlog⟩ :=
    analyzeComponentsFromTimeline_eq mono zero analysis.memoryTimeline
  rw [htimeline] at hfixed hmlp hlog
  exact ⟨hfixed, hmlp, hlog⟩

end Components

/-! ### The peaks in numbers -/

theorem foldl_max_eq {l : List ℕ} {m : ℕ} (hmem : m ∈ l) (hle : ∀ x ∈ l, x ≤ m) :
    l.foldl max 0 = m := by
  refine le_antisymm ?_ ((le_foldl_max l 0).2 m hmem)
  rcases foldl_max_mem l 0 with hzero | hin
  · rw [hzero]
    exact Nat.zero_le m
  · exact hle _ hin

variable (s : BlockShape)

theorem kvBytes_le_hiddenBytes : s.kvBytes ≤ s.hiddenBytes := by
  rw [s.kvBytes_eq, s.hiddenBytes_eq, BlockShape.config]
  refine Nat.mul_le_mul_left _ ?_
  cases s.family <;> decide

theorem hiddenBytes_le_stageBytes (hchunked : s.chunked = false) :
    s.hiddenBytes ≤ s.stageBytes s.family.firstStage ∧
      s.stageBytes s.family.secondStage ≤ s.stageBytes s.family.firstStage ∧
      s.stageBytes s.family.thirdStage ≤ s.stageBytes s.family.firstStage := by
  rw [s.hiddenBytes_eq, BlockShape.stageBytes, BlockShape.stageBytes, BlockShape.stageBytes,
    s.rows_eq hchunked, BlockShape.config]
  cases s.family <;> exact ⟨Nat.mul_le_mul_left _ (by decide), Nat.mul_le_mul_left _ (by decide),
    Nat.mul_le_mul_left _ (by decide)⟩

/-- The fixed part is highest where the keys join the input, the normed input and the queries. -/
theorem peakBytes_fixed : peakBytes s .fixed = 3 * s.hiddenBytes + s.kvBytes := by
  have hresidents : ∀ family chunked, partResidents family chunked .fixed =
      [[.x], [.x, .xNormed], [.x, .xNormed, .q], [.x, .xNormed, .q, .k], [.x, .q, .k, .v],
        [.x, family.config.attention], [.x, .attOut], [.x, .attOut, .xNormed2],
        [.xNormed2, .residual], [.finalOutput]] := by
    rintro (_ | _ | _) (_ | _) <;> decide
  have hhidden := s.bytes_hidden
  have hkv := s.bytes_kv
  have hle := kvBytes_le_hiddenBytes s
  simp only [mem_cons, not_mem_nil, or_false, forall_eq_or_imp, forall_eq,
    BlockShape.config] at hhidden hkv
  obtain ⟨sx, sxNormed, sq, sattention, sattOut, sxNormed2, sresidual, -, sfinal⟩ := hhidden
  obtain ⟨sk, sv⟩ := hkv
  rw [peakBytes, hresidents]
  simp only [map_cons, map_nil, sum_cons, sum_nil, sx, sxNormed, sq, sk, sv,
    sattention, sattOut, sxNormed2, sresidual, sfinal, add_zero]
  apply foldl_max_eq
  · simp only [mem_cons]
    omega
  · simp only [mem_cons, not_mem_nil, or_false, forall_eq_or_imp, forall_eq]
    refine ⟨?_, ?_, ?_, ?_, ?_, ?_, ?_, ?_, ?_, ?_⟩ <;> omega

/-- In chunks, the feed-forward part is highest where its output is made. -/
theorem peakBytes_mlp_chunked (hchunked : s.chunked = true) :
    peakBytes s .mlp = 3 * s.hiddenBytes + (s.stageBytes s.family.firstStage +
      s.stageBytes s.family.secondStage + s.stageBytes s.family.thirdStage) := by
  have hresidents : ∀ family, partResidents family true .mlp =
      [[.xNormed2, .residual, family.firstStage.name],
        [.xNormed2, .residual, family.firstStage.name, family.secondStage.name],
        [.xNormed2, .residual, family.firstStage.name, family.secondStage.name,
          family.thirdStage.name],
        [.xNormed2, .residual, family.firstStage.name, family.secondStage.name,
          family.thirdStage.name, family.config.feedForwardOutput],
        [.xNormed2, .residual, family.config.feedForwardOutput, family.config.loopHazardBarrier],
        [.residual, family.config.feedForwardOutput, .xnorm2Barrier]] := by
    rintro (_ | _ | _) <;> decide
  have hhidden := s.bytes_hidden
  have hstages := s.bytes_stages
  have hbarriers := s.bytes_barriers hchunked
  have hpos : 0 < s.stageBytes s.family.firstStage := by
    have := s.rows_pos
    cases s.family <;> exact mul_pos this (by decide)
  have hH := s.hiddenBytes_pos
  simp only [mem_cons, not_mem_nil, or_false, forall_eq_or_imp, forall_eq,
    BlockShape.config] at hhidden hstages hbarriers
  obtain ⟨-, -, -, -, -, sxNormed2, sresidual, soutput, -⟩ := hhidden
  obtain ⟨sfirst, ssecond, sthird⟩ := hstages
  obtain ⟨sbarrier, sinput⟩ := hbarriers
  rw [peakBytes, hchunked, hresidents]
  simp only [map_cons, map_nil, sum_cons, sum_nil, sxNormed2, sresidual,
    sfirst, ssecond, sthird, soutput, sbarrier, sinput, add_zero]
  apply foldl_max_eq
  · simp only [mem_cons]
    omega
  · simp only [mem_cons, not_mem_nil, or_false, forall_eq_or_imp, forall_eq]
    refine ⟨?_, ?_, ?_, ?_, ?_, ?_⟩ <;> omega

/-- In one piece, a dense feed-forward part is highest where both projections are in memory, and
one with experts where its first tensor is. -/
theorem peakBytes_mlp_plain (hchunked : s.chunked = false) :
    peakBytes s .mlp = s.hiddenBytes + s.stageBytes s.family.firstStage +
      if s.family = .lladaMoe then 0 else s.stageBytes s.family.secondStage := by
  have hhidden := s.bytes_hidden
  have hstages := s.bytes_stages
  obtain ⟨hfirst, hsecond, hthird⟩ := hiddenBytes_le_stageBytes s hchunked
  simp only [mem_cons, not_mem_nil, or_false, forall_eq_or_imp, forall_eq,
    BlockShape.config] at hhidden hstages
  obtain ⟨-, -, -, -, -, sxNormed2, sresidual, soutput, -⟩ := hhidden
  obtain ⟨sfirst, ssecond, sthird⟩ := hstages
  by_cases hmoe : s.family = .lladaMoe
  · -- With experts two tensors are live at a time, and the first stage is the largest.
    have hresidents : partResidents s.family false .mlp =
        [[.residual, s.family.firstStage.name], [.residual, s.family.secondStage.name],
          [.residual, s.family.thirdStage.name],
          [.residual, s.family.config.feedForwardOutput]] := by
      rw [hmoe]
      decide
    rw [peakBytes, hchunked, hresidents, if_pos hmoe]
    simp only [map_cons, map_nil, sum_cons, sum_nil, sresidual, sfirst,
      ssecond, sthird, soutput, add_zero]
    apply foldl_max_eq
    · simp only [mem_cons, true_or]
    · simp only [mem_cons, not_mem_nil, or_false, forall_eq_or_imp, forall_eq]
      refine ⟨?_, ?_, ?_, ?_⟩ <;> omega
  · -- Dense: the gate and the up projection are live together, and are of one size.
    have hresidents : partResidents s.family false .mlp =
        [[.xNormed2, .residual, s.family.firstStage.name],
          [.residual, s.family.firstStage.name, s.family.secondStage.name],
          [.residual, s.family.thirdStage.name],
          [.residual, s.family.config.feedForwardOutput]] := by
      cases hfamily : s.family with
      | llada => decide
      | dream => decide
      | lladaMoe => exact absurd hfamily hmoe
    have hequal : s.stageBytes s.family.secondStage = s.stageBytes s.family.firstStage := by
      cases hfamily : s.family with
      | llada => rfl
      | dream => rfl
      | lladaMoe => exact absurd hfamily hmoe
    rw [peakBytes, hchunked, hresidents, if_neg hmoe]
    simp only [map_cons, map_nil, sum_cons, sum_nil, sxNormed2, sresidual,
      sfirst, ssecond, sthird, soutput, add_zero]
    apply foldl_max_eq
    · simp only [mem_cons]
      omega
    · simp only [mem_cons, not_mem_nil, or_false, forall_eq_or_imp, forall_eq]
      refine ⟨?_, ?_, ?_, ?_⟩ <;> omega

theorem peakBytes_logits :
    peakBytes s .logits = s.logitsRows * (s.config.vocabSize * 2) := by
  have hresidents : ∀ family chunked, partResidents family chunked .logits = [[.logits]] := by
    rintro (_ | _ | _) (_ | _) <;> decide
  rw [peakBytes, hresidents, ← s.bytes_logits]
  simp

end Search
