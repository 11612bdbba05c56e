import Mosaic.Block.BlockGraphs
import Mosaic.Graph.Skeleton

/-!
# Where the planner puts the tensors of a block

The attention part is placed in the same way for all families, token counts and chunk sizes:
in units of the size of the hidden states, the input lies at zero, the normed input of the
feed-forward part at one and the residual at three. The intermediate tensors of the
feed-forward part are placed wherever their sizes allow, but they keep apart from everything
they are live with. What remains to be excluded is that the output of the feed-forward part
overlaps the block's input, onto which the final output is forced, without lying exactly on it.
-/

namespace Block

open List Graph

/-! ### The graphs that are built -/

/-- The parameters of a block graph: numbers of tokens, of rows of the intermediate tensors and
of rows of the logits. Without chunks the intermediate tensors have a row for each token. -/
structure BlockShape where
  family : Family
  chunked : Bool
  N : ℕ
  rows : ℕ
  logitsRows : ℕ
  tokens_pos : 0 < N
  rows_pos : 0 < rows
  logitsRows_pos : 0 < logitsRows
  rows_eq : chunked = false → rows = N

namespace BlockShape

variable (s : BlockShape)

/-- The constants of the family. -/
def config : BlockConfig := s.family.config

/-- The calls before the alias. -/
def calls : List Call :=
  attentionCalls s.config s.N ++
    (if s.chunked then s.config.feedForward s.rows s.N ++ barrierCalls s.config
      else s.config.feedForward s.N s.N) ++ [finalCall s.config s.N]

/-- The call for the logits. -/
def logitsCall : Call :=
  ⟨.logits, s.config.logitsOp, [.finalOutput], [s.logitsRows, s.config.vocabSize], .bfloat16⟩

/-- The names of the graph. -/
def order : List (TensorName × List TensorName) :=
  (s.calls ++ [s.logitsCall]).map fun call => (call.outputName, call.inputNames)

end BlockShape

/-- The graph of a shape. -/
structure IsBlock (s : BlockShape) (g : CustomGraph TensorName) : Prop where
  order : g.executionOrder = (s.calls ++ [s.logitsCall]).map CustomGraph.OpCall.node
  aliases : g.aliases = [(.finalOutput, .x)]

/-- The names of a shape depend on the family and on the chunks only. -/
def blockOrder (family : Family) (chunked : Bool) : List (TensorName × List TensorName) :=
  let c := family.config
  (attentionCalls c 0 ++
    (if chunked then c.feedForward 0 0 ++ barrierCalls c else c.feedForward 0 0) ++
    [finalCall c 0]).map (fun call => (call.outputName, call.inputNames)) ++
    [(.logits, [.finalOutput])]

theorem BlockShape.order_eq (s : BlockShape) : s.order = blockOrder s.family s.chunked := by
  obtain ⟨family, chunked, _⟩ := s
  cases family <;> cases chunked <;> rfl

theorem nodup_blockOrder (family : Family) (chunked : Bool) :
    ((blockOrder family chunked).map Prod.fst).Nodup := by
  cases family <;> cases chunked <;> decide

/-- Building the calls of a shape and closing the block. -/
theorem BlockShape.exists_graph (s : BlockShape) :
    ∃ g, ((CustomGraph.empty TensorName).addOps s.calls >>= fun graph =>
      finishBlock s.config graph s.logitsRows) = .ok g ∧ IsBlock s g := by
  have hnames : (s.calls ++ [s.logitsCall]).map CustomGraph.OpCall.outputName =
      (blockOrder s.family s.chunked).map Prod.fst := by
    rw [← s.order_eq, order, List.map_map]
    rfl
  -- distinct names are all that the builder asks for
  have hnodup := hnames ▸ nodup_blockOrder s.family s.chunked
  rw [map_append] at hnodup
  obtain ⟨hcalls, -, hfresh⟩ := nodup_append.mp hnodup
  obtain ⟨g₁, hg₁⟩ := CustomGraph.exists_addOps (CustomGraph.empty TensorName) s.calls hcalls
  obtain ⟨horder, haliases⟩ := CustomGraph.addOps_eq_ok hg₁
  rw [CustomGraph.empty, nil_append] at horder
  have hnode : ∀ call ∈ s.calls, g₁.nodes call.node.outputName = some call.node := by
    intro call hcall
    have hmem : call.node ∈ g₁.executionOrder := horder ▸ mem_map_of_mem hcall
    obtain ⟨_, hi⟩ := mem_iff_getElem?.mp hmem
    exact CustomGraph.nodes_eq hi
  have hfinal := hnode (finalCall s.config s.N) (by simp [calls])
  have hx := hnode ⟨.x, "placeholder", [], [s.N, s.config.hiddenSize], .bfloat16⟩
    (by simp [calls, attentionCalls])
  have halias := CustomGraph.addAlias_eq_ok hfinal hx le_rfl
  obtain ⟨g, hg, horder', haliases'⟩ := CustomGraph.exists_addOp
    { g₁ with aliases := (.finalOutput, .x) :: g₁.aliases } s.logitsCall (by
      have : g₁.names = s.calls.map CustomGraph.OpCall.outputName := by
        rw [CustomGraph.names, horder, List.map_map]
        rfl
      intro hmem
      exact hfresh _ (this ▸ hmem) _ mem_cons_self rfl)
  refine ⟨g, ?_, ?_, ?_⟩
  · rw [hg₁]
    change (g₁.addAlias .finalOutput .x >>= _) = _
    rw [show g₁.addAlias .finalOutput .x = _ from halias]
    exact hg
  · rw [horder', horder, map_append]
    rfl
  · rw [haliases', haliases]
    rfl

/-- The shape of the graph for a strategy. -/
def Family.shape (family : Family) (strategy : Option ChunkStrategy) (N M : ℕ) (hN : 0 < N)
    (hM : 0 < M) (hmlp : ∀ s ∈ strategy, 0 < s.numChunksMlp)
    (hlog : ∀ s ∈ strategy, 0 < s.numChunksLogits) : BlockShape where
  family := family
  chunked := (strategy.map ChunkStrategy.chunkMlp).getD false
  N := N
  rows := match strategy with
    | some s => if s.chunkMlp then maxChunkSize N s.numChunksMlp else N
    | none => N
  logitsRows := match strategy with
    | some s => if s.chunkLogits then maxChunkSize M s.numChunksLogits else M
    | none => M
  tokens_pos := hN
  rows_pos := by
    cases strategy with
    | none => exact hN
    | some s =>
      have := hmlp s rfl
      dsimp only
      split
      · exact Nat.div_pos (by omega) this
      · exact hN
  logitsRows_pos := by
    cases strategy with
    | none => exact hM
    | some s =>
      have := hlog s rfl
      dsimp only
      split
      · exact Nat.div_pos (by omega) this
      · exact hM
  rows_eq h := by
    cases strategy with
    | none => rfl
    | some s =>
      have hchunk : s.chunkMlp = false := h
      simp [hchunk]

/-- All six builders succeed. -/
theorem Family.exists_graph (family : Family) (strategy : Option ChunkStrategy) (N M : ℕ)
    (hN : 0 < N) (hM : 0 < M) (hmlp : ∀ s ∈ strategy, 0 < s.numChunksMlp)
    (hlog : ∀ s ∈ strategy, 0 < s.numChunksLogits) :
    ∃ g, family.graph strategy N M = .ok g ∧
      IsBlock (family.shape strategy N M hN hM hmlp hlog) g := by
  obtain ⟨g, hg, hblock⟩ := (family.shape strategy N M hN hM hmlp hlog).exists_graph
  refine ⟨g, ?_, hblock⟩
  rw [← hg]
  cases strategy with
  | none => cases family <;> rfl
  | some s =>
    obtain ⟨_, chunkMlp, numChunksLogits, numChunksMlp⟩ := s
    cases family <;> cases chunkMlp <;> rfl

/-! ### Names and sizes -/

namespace BlockShape

variable (s : BlockShape)

/-- The number of bytes of the hidden states. -/
def hiddenBytes : ℕ :=
  TensorSpec.sizeBytes ⟨[s.N, s.config.hiddenSize], .bfloat16⟩

/-- The number of bytes of the keys, and of the values. -/
def kvBytes : ℕ :=
  TensorSpec.sizeBytes ⟨[s.N, s.config.kvWidth], .bfloat16⟩

/-- The number of bytes of a tensor. -/
def bytes (name : TensorName) : ℕ :=
  (((s.calls ++ [s.logitsCall]).find? fun call => call.outputName = name).map fun call =>
    call.node.sizeBytes).getD 0

theorem bytes_hidden : ∀ name ∈ [TensorName.x, .xNormed, .q, s.config.attention, .attOut,
    .xNormed2, .residual, s.config.feedForwardOutput, .finalOutput],
    s.bytes name = s.hiddenBytes := by
  obtain ⟨family, chunked, _⟩ := s
  simp only [mem_cons, not_mem_nil, or_false, forall_eq_or_imp, forall_eq]
  cases family <;> cases chunked <;> exact ⟨rfl, rfl, rfl, rfl, rfl, rfl, rfl, rfl, rfl⟩

theorem bytes_kv : ∀ name ∈ [TensorName.k, .v], s.bytes name = s.kvBytes := by
  obtain ⟨family, chunked, _⟩ := s
  simp only [mem_cons, not_mem_nil, or_false, forall_eq_or_imp, forall_eq]
  cases family <;> cases chunked <;> exact ⟨rfl, rfl⟩

/-- Every dimension of every tensor is positive. -/
theorem shape_pos : ∀ call ∈ s.calls ++ [s.logitsCall], ∀ d ∈ call.shape, 0 < d := by
  obtain ⟨family, chunked, _, _, _, hN, hrows, hlog, -⟩ := s
  cases family <;> cases chunked <;>
    simp [calls, logitsCall, config, Family.config, llada, dream, lladaMoe, attentionCalls,
      denseFeedForward, moeFeedForward, barrierCalls, finalCall, hN, hrows, hlog]

end BlockShape

theorem sizeBytes_row (n width : ℕ) :
    TensorSpec.sizeBytes ⟨[n, width], .bfloat16⟩ = n * (width * 2) := by
  simp [TensorSpec.sizeBytes, Dtype.bytesPerElement, Dtype.bits, mul_assoc]

theorem sizeBytes_row3 (n width depth : ℕ) :
    TensorSpec.sizeBytes ⟨[n, width, depth], .bfloat16⟩ = n * (width * depth * 2) := by
  simp [TensorSpec.sizeBytes, Dtype.bytesPerElement, Dtype.bits, mul_assoc]

theorem bytesPerElement_pos (dtype : Dtype) : 0 < dtype.bytesPerElement := by
  cases dtype <;> decide

theorem sizeBytes_pos (call : Call) (h : ∀ d ∈ call.shape, 0 < d) : 0 < call.node.sizeBytes :=
  Nat.mul_pos (List.prod_pos_iff_forall_pos_nat.mpr h) (bytesPerElement_pos _)

theorem BlockShape.hiddenBytes_pos (s : BlockShape) : 0 < s.hiddenBytes :=
  sizeBytes_pos ⟨.x, "placeholder", [], [s.N, s.config.hiddenSize], .bfloat16⟩
    (s.shape_pos _ (by simp [BlockShape.calls, attentionCalls]))

theorem BlockShape.kvBytes_pos (s : BlockShape) : 0 < s.kvBytes :=
  sizeBytes_pos ⟨.k, "k_proj", [.xNormed], [s.N, s.config.kvWidth], .bfloat16⟩
    (s.shape_pos _ (by simp [BlockShape.calls, attentionCalls]))

namespace IsBlock

variable {s : BlockShape} {g : CustomGraph TensorName} {plan : ReusePlan TensorName}

section

variable (hg : IsBlock s g)
include hg

theorem skeleton_eq : skeleton g = blockOrder s.family s.chunked := by
  rw [← s.order_eq, skeleton, hg.order, List.map_map]
  rfl

theorem names_eq : g.names = (blockOrder s.family s.chunked).map Prod.fst := by
  rw [← hg.skeleton_eq, skeleton, List.map_map]
  rfl

theorem tensorSize_eq (name : TensorName) : g.tensorSize name = s.bytes name := by
  rw [CustomGraph.tensorSize, CustomGraph.nodes, hg.order, find?_map, Option.map_map]
  rfl

theorem nonempty : ∀ node ∈ g.executionOrder, 0 < node.sizeBytes := by
  rw [hg.order]
  intro node hnode
  obtain ⟨call, hcall, rfl⟩ := mem_map.mp hnode
  exact sizeBytes_pos call (s.shape_pos call hcall)

/-! ### Placement of the attention part -/

theorem births_eq (name : TensorName) :
    births g name = ((blockOrder s.family s.chunked).map Prod.fst).idxOf name := by
  rw [births, hg.names_eq]

/-- Nothing before the final output is aliased. -/
theorem unaliased : UnaliasedBefore g (births g .finalOutput) := by
  intro i hi node hnode
  rw [hg.aliases, find?_cons_of_neg, find?_nil]
  intro heq
  have hname : node.outputName = .finalOutput := (of_decide_eq_true heq).symm
  rw [← hname, Graph.births_eq g hnode] at hi
  exact absurd hi (lt_irrefl _)

end

/-- The second tensor is produced before the final output and while the first is live. -/
def KeepsApart (family : Family) (chunked : Bool) (earlier later : TensorName) : Prop :=
  LiveTogether (blockOrder family chunked) earlier later ∧
    ((blockOrder family chunked).map Prod.fst).idxOf later <
      ((blockOrder family chunked).map Prod.fst).idxOf .finalOutput

instance (family : Family) (chunked : Bool) (earlier later : TensorName) :
    Decidable (KeepsApart family chunked earlier later) :=
  inferInstanceAs (Decidable (_ ∧ _))

section

variable (hg : IsBlock s g) (h : generateOptimizedReusePlan g = .ok plan)
include hg h

theorem apart {earlier later : TensorName} (keep : KeepsApart s.family s.chunked earlier later) :
    Arena.Apart (planOffset plan) (tensorView g earlier) (tensorView g later) := by
  -- the final output is the only aliased tensor, so before it first fit keeps tensors apart
  obtain ⟨live, hbefore⟩ := keep
  refine apart_of_liveTogether h (hg.unaliased.mono ?_) (hg.skeleton_eq ▸ live)
  rw [hg.births_eq, hg.births_eq]
  exact hbefore

/-- Before the final output every tensor lies at the least offset that misses the live ones. -/
theorem isLeast_before (j : ℕ)
    (hlt : j < ((blockOrder s.family s.chunked).map Prod.fst).idxOf .finalOutput)
    (name : TensorName) (live : List TensorName)
    (hname : ((blockOrder s.family s.chunked).map Prod.fst)[j]? = some name)
    (hlive : liveNames (blockOrder s.family s.chunked) j = live) :
    IsLeast (FirstFit.Feasible (planOffset plan) (planStop g plan) (s.bytes name) live)
      (planOffset plan name) := by
  rw [getElem?_map] at hname
  obtain ⟨_, hentry, rfl⟩ := Option.map_eq_some_iff.mp hname
  rw [← hg.skeleton_eq] at hentry hlive
  rw [← hg.tensorSize_eq, ← hlive]
  refine offset_isLeast h hg.nonempty hentry (hg.unaliased.mono ?_)
  rw [hg.births_eq]
  exact hlt

/-- With or without chunks, the final output is not among the first thirteen tensors. -/
theorem isLeast (j : ℕ) (hlt : j < 13) (name : TensorName) (live : List TensorName)
    (hname : ((blockOrder s.family s.chunked).map Prod.fst)[j]? = some name)
    (hlive : liveNames (blockOrder s.family s.chunked) j = live) :
    IsLeast (FirstFit.Feasible (planOffset plan) (planStop g plan) (s.bytes name) live)
      (planOffset plan name) := by
  have hfinal : ∀ family chunked,
      13 ≤ ((blockOrder family chunked).map Prod.fst).idxOf TensorName.finalOutput := by
    rintro (_ | _ | _) (_ | _) <;> decide
  exact hg.isLeast_before h j (hlt.trans_le (hfinal _ _)) name live hname hlive

end

theorem planStop_eq (hg : IsBlock s g) (plan : ReusePlan TensorName) (name : TensorName) :
    planStop g plan name = planOffset plan name + s.bytes name := by
  rw [planStop, hg.tensorSize_eq]

/-- The offsets of the attention part. -/
structure AttentionOffsets (s : BlockShape) (plan : ReusePlan TensorName) : Prop where
  x : planOffset plan .x = 0
  xNormed : planOffset plan .xNormed = s.hiddenBytes
  q : planOffset plan .q = 2 * s.hiddenBytes
  k : planOffset plan .k = 3 * s.hiddenBytes
  v : planOffset plan .v = 3 * s.hiddenBytes + s.kvBytes
  attention : planOffset plan s.config.attention = s.hiddenBytes
  attOut : planOffset plan .attOut = 2 * s.hiddenBytes
  xNormed2 : planOffset plan .xNormed2 = s.hiddenBytes
  residual : planOffset plan .residual = 3 * s.hiddenBytes

/-- The names of the attention part, and what is live when each of them is placed. -/
theorem attention_order (s : BlockShape) :
    (List.range 9).map (fun j => (((blockOrder s.family s.chunked).map Prod.fst)[j]?,
      liveNames (blockOrder s.family s.chunked) j)) =
      [(some .x, []), (some .xNormed, [.x]), (some .q, [.x, .xNormed]),
        (some .k, [.x, .xNormed, .q]), (some .v, [.x, .xNormed, .q, .k]),
        (some s.config.attention, [.x, .q, .k, .v]), (some .attOut, [.x, s.config.attention]),
        (some .xNormed2, [.x, .attOut]), (some .residual, [.x, .attOut, .xNormed2])] := by
  obtain ⟨family, chunked, _⟩ := s
  cases family <;> cases chunked <;> rfl

theorem attentionOffsets (hg : IsBlock s g) (h : generateOptimizedReusePlan g = .ok plan) :
    AttentionOffsets s plan := by
  have hA := s.hiddenBytes_pos
  have hK := s.kvBytes_pos
  have hhidden := s.bytes_hidden
  have hkv := s.bytes_kv
  have hstop := hg.planStop_eq plan
  have horder := attention_order s
  simp only [mem_cons, not_mem_nil, or_false, forall_eq_or_imp, forall_eq] at hhidden hkv
  obtain ⟨sx, sxn, sq, satt, sao, sxn2, sres, -, -⟩ := hhidden
  obtain ⟨sk, sv⟩ := hkv
  simp only [range_succ, range_zero, nil_append, map_cons,
    map_nil, cons_append, List.cons.injEq, Prod.mk.injEq, and_true] at horder
  obtain ⟨o0, o1, o2, o3, o4, o5, o6, o7, o8⟩ := horder
  have hroom := fun j hj name live hname hlive =>
    (FirstFit.room_of_isLeast (hg.isLeast h j hj name live hname hlive)).eq
  have px := hroom 0 (by decide) _ _ o0.1 o0.2
  have pxn := hroom 1 (by decide) _ _ o1.1 o1.2
  have pq := hroom 2 (by decide) _ _ o2.1 o2.2
  have pk := hroom 3 (by decide) _ _ o3.1 o3.2
  have pv := hroom 4 (by decide) _ _ o4.1 o4.2
  have patt := hroom 5 (by decide) _ _ o5.1 o5.2
  have pao := hroom 6 (by decide) _ _ o6.1 o6.2
  have pxn2 := hroom 7 (by decide) _ _ o7.1 o7.2
  have pres := hroom 8 (by decide) _ _ o8.1 o8.2
  simp only [map_cons, map_nil, FirstFit.Misses, hstop, and_true]
    at px pxn pq pk pv patt pao pxn2 pres
  -- each offset follows from those of the tensors that are live when the tensor is placed
  have hx : planOffset plan .x = 0 := px 0 trivial fun _ _ => Nat.zero_le _
  have hxn : planOffset plan .xNormed = s.hiddenBytes := pxn _ (by omega) (by omega)
  have hq : planOffset plan .q = 2 * s.hiddenBytes := pq _ (by omega) (by omega)
  have hk : planOffset plan .k = 3 * s.hiddenBytes := pk _ (by omega) (by omega)
  have hv : planOffset plan .v = 3 * s.hiddenBytes + s.kvBytes := pv _ (by omega) (by omega)
  have hatt : planOffset plan s.config.attention = s.hiddenBytes := patt _ (by omega) (by omega)
  have hao : planOffset plan .attOut = 2 * s.hiddenBytes := by
    exact pao _ (by omega) (by omega)
  have hxn2 : planOffset plan .xNormed2 = s.hiddenBytes := by
    exact pxn2 _ (by omega) (by omega)
  have hres : planOffset plan .residual = 3 * s.hiddenBytes := by
    clear hxn hq hk hv hatt
    exact pres _ (by omega) (by omega)
  exact ⟨hx, hxn, hq, hk, hv, hatt, hao, hxn2, hres⟩

/-! ### Around the alias -/

theorem exists_node (hg : IsBlock s g) {name : TensorName}
    (hname : name ∈ (blockOrder s.family s.chunked).map Prod.fst) :
    ∃ (j : ℕ) (node : OpNode TensorName), g.executionOrder[j]? = some node ∧
      node.outputName = name ∧ j = births g name := by
  rw [← hg.names_eq] at hname
  obtain ⟨node, hnode, rfl⟩ := mem_map.mp hname
  obtain ⟨j, hj⟩ := mem_iff_getElem?.mp hnode
  exact ⟨j, node, hj, rfl, (Graph.births_eq g hj).symm⟩

theorem x_first (family : Family) (chunked : Bool) :
    ((blockOrder family chunked).map Prod.fst)[0]? = some .x := by
  cases family <;> cases chunked <;> rfl

theorem finalOutput_mem (family : Family) (chunked : Bool) :
    TensorName.finalOutput ∈ (blockOrder family chunked).map Prod.fst := by
  cases family <;> cases chunked <;> decide

/-- The only alias target is the first tensor. -/
theorem aliasesReady (hg : IsBlock s g) : AliasesReady g := by
  intro j node hj hpos source target halias
  rw [hg.aliases] at halias
  have hfinal : node.outputName = .finalOutput ∧ target = .x := by
    by_cases hname : TensorName.finalOutput = node.outputName
    · rw [find?_cons_of_pos (by simpa using hname)] at halias
      cases halias
      exact ⟨hname.symm, rfl⟩
    · rw [find?_cons_of_neg (by simpa using hname)] at halias
      cases halias
  obtain ⟨hname, rfl⟩ := hfinal
  obtain ⟨i, producer, hi, hx, -⟩ := hg.exists_node (mem_of_getElem? (x_first _ _))
  -- the input is the first tensor, so the final output comes later
  have hzero : i = 0 := by
    have hfirst := x_first s.family s.chunked
    rw [← hg.names_eq, CustomGraph.names, getElem?_map] at hfirst
    obtain ⟨first, hget, hfirstName⟩ := Option.map_eq_some_iff.mp hfirst
    exact g.eq_of_outputName_eq hi hget (hx.trans hfirstName.symm)
  subst hzero
  refine ⟨producer, mem_take_iff.mpr ⟨0, ?_, hi⟩, hx, hg.nonempty _ (mem_of_getElem? hi)⟩
  refine pos_of_ne_zero fun hj0 => ?_
  subst hj0
  rw [hj, Option.some.injEq] at hi
  rw [hi, hx] at hname
  cases hname

theorem exists_plan (hg : IsBlock s g) : ∃ plan, generateOptimizedReusePlan g = .ok plan :=
  Graph.exists_plan hg.aliasesReady

theorem offset_finalOutput (hg : IsBlock s g) (h : generateOptimizedReusePlan g = .ok plan) :
    planOffset plan .finalOutput = 0 := by
  obtain ⟨_, node, hj, hname, -⟩ := hg.exists_node (finalOutput_mem _ _)
  have halias : g.aliases.find? (fun link => link.1 = node.outputName) =
      some (.finalOutput, .x) := by
    rw [hg.aliases, hname]
    rfl
  have htarget := planOffset_eq_target h hj (hg.nonempty _ (mem_of_getElem? hj)) halias
  rw [← hname, htarget, (hg.attentionOffsets h).x]

/-- Without chunks, the tensors that are live when the feed-forward output is placed are the
residual and a tensor no smaller than the hidden states. -/
theorem live_output (s : BlockShape) (hchunked : s.chunked = false) :
    ∀ name ∈ liveNames (blockOrder s.family s.chunked) 12,
      name = .residual ∨ s.hiddenBytes ≤ s.bytes name := by
  obtain ⟨family, chunked, N, _⟩ := s
  obtain rfl : chunked = false := hchunked
  cases family with
  | llada =>
    rw [show liveNames (blockOrder .llada false) 12 = [.residual, .mlpGated] by decide]
    simp only [mem_cons, not_mem_nil, or_false, forall_eq_or_imp, forall_eq, true_or, true_and]
    refine .inr ?_
    change TensorSpec.sizeBytes ⟨[N, 4096], .bfloat16⟩ ≤
      TensorSpec.sizeBytes ⟨[N, 12288], .bfloat16⟩
    rw [sizeBytes_row, sizeBytes_row]
    omega
  | dream =>
    rw [show liveNames (blockOrder .dream false) 12 = [.residual, .xMlp] by decide]
    simp only [mem_cons, not_mem_nil, or_false, forall_eq_or_imp, forall_eq, true_or, true_and]
    refine .inr ?_
    change TensorSpec.sizeBytes ⟨[N, 3584], .bfloat16⟩ ≤
      TensorSpec.sizeBytes ⟨[N, 18944], .bfloat16⟩
    rw [sizeBytes_row, sizeBytes_row]
    omega
  | lladaMoe =>
    rw [show liveNames (blockOrder .lladaMoe false) 12 = [.residual, .moeCache3] by decide]
    simp only [mem_cons, not_mem_nil, or_false, forall_eq_or_imp, forall_eq, true_or, true_and]
    refine .inr ?_
    change TensorSpec.sizeBytes ⟨[N, 2048], .bfloat16⟩ ≤
      TensorSpec.sizeBytes ⟨[N, 8, 2048], .bfloat16⟩
    rw [sizeBytes_row, sizeBytes_row3]
    omega

section

variable (hg : IsBlock s g) (h : generateOptimizedReusePlan g = .ok plan)
include hg h

/-- The output of the feed-forward part lies exactly on the block's input, or behind it. -/
theorem offset_output : planOffset plan s.config.feedForwardOutput = 0 ∨
      s.hiddenBytes ≤ planOffset plan s.config.feedForwardOutput := by
  have hoffs := hg.attentionOffsets h
  have hhidden := s.bytes_hidden
  have hname : ((blockOrder s.family s.chunked).map Prod.fst)[12]? =
      some s.config.feedForwardOutput := by
    obtain ⟨family, chunked, _⟩ := s
    cases family <;> cases chunked <;> rfl
  have hleast := hg.isLeast h 12 (by decide) _ _ hname rfl
  rw [hhidden s.config.feedForwardOutput (by simp)] at hleast
  cases hchunked : s.chunked with
  | true =>
    -- the normed input is still live and fills the next `hiddenBytes` addresses
    have hlive : TensorName.xNormed2 ∈ liveNames (blockOrder s.family true) 12 := by
      cases s.family <;> decide
    have := hleast.1 .xNormed2 (hchunked ▸ hlive)
    rw [FirstFit.Clear, hg.planStop_eq, hoffs.xNormed2, hhidden .xNormed2 (by simp)] at this
    omega
  | false =>
    -- every live block reaches beyond the input
    refine FirstFit.eq_zero_or_le_of_isLeast hleast fun name hlive => ?_
    rw [hg.planStop_eq]
    rcases live_output s hchunked name hlive with rfl | hlarge
    · rw [hoffs.residual]
      omega
    · omega

theorem offset_residual : planOffset plan .residual = 3 * s.hiddenBytes :=
  (hg.attentionOffsets h).residual

/-- When the logits are placed, only the final output is live. -/
theorem isLeast_logits :
    IsLeast (FirstFit.Feasible (planOffset plan) (planStop g plan) (s.bytes .logits)
      [.finalOutput]) (planOffset plan .logits) := by
  have hlast : ∀ family chunked, ∃ j inputs, (blockOrder family chunked)[j]? =
      some (TensorName.logits, inputs) ∧
      liveNames (blockOrder family chunked) j = [.finalOutput] := by
    rintro (_ | _ | _) (_ | _)
    all_goals first
      | exact ⟨14, _, rfl, rfl⟩
      | exact ⟨16, _, rfl, rfl⟩
  obtain ⟨j, inputs, hj, hlive⟩ := hlast s.family s.chunked
  rw [← hg.skeleton_eq] at hj hlive
  have hleast := offset_isLeast_of_length_le h hg.nonempty hj (by rw [hg.aliases]; rfl)
    (by rw [hlive]; exact le_rfl)
  rwa [hlive, hg.tensorSize_eq] at hleast

end

theorem logits_mem (family : Family) (chunked : Bool) :
    TensorName.logits ∈ (blockOrder family chunked).map Prod.fst := by
  cases family <;> cases chunked <;> decide

/-- The logits lie behind the final output. -/
theorem offset_logits (hg : IsBlock s g) (h : generateOptimizedReusePlan g = .ok plan) :
    s.hiddenBytes ≤ planOffset plan .logits := by
  have hlog : 0 < s.bytes .logits := by
    obtain ⟨_, _, hnode, hname, -⟩ := hg.exists_node (logits_mem _ _)
    rw [← hg.tensorSize_eq, ← hname, CustomGraph.tensorSize_eq hnode]
    exact hg.nonempty _ (mem_of_getElem? hnode)
  have := (hg.isLeast_logits h).1 .finalOutput mem_cons_self
  rw [FirstFit.Clear, hg.planStop_eq, hg.offset_finalOutput h,
    s.bytes_hidden .finalOutput (by simp)] at this
  omega

/-! ### Alignment -/

/-- All tensors have elements of two bytes but the barriers, which nothing consumes. -/
theorem dtype_cases (s : BlockShape) : ∀ call ∈ s.calls ++ [s.logitsCall],
    call.dtype = .bfloat16 ∨ call.dtype = .int8 ∧
      consumedFrom (blockOrder s.family s.chunked) 0 call.outputName = false := by
  obtain ⟨family, chunked, _⟩ := s
  cases family <;> cases chunked <;>
    simp [BlockShape.calls, BlockShape.logitsCall, BlockShape.config, Family.config, llada, dream,
      lladaMoe, attentionCalls, denseFeedForward, moeFeedForward, barrierCalls, finalCall] <;>
    decide

/-- Every tensor lies at a multiple of the size of its elements. -/
theorem aligned (hg : IsBlock s g) (h : generateOptimizedReusePlan g = .ok plan)
    {j : ℕ} {node : OpNode TensorName} (hj : g.executionOrder[j]? = some node) :
    node.outputSpec.dtype.bytesPerElement ∣ planOffset plan node.outputName := by
  have hdtype : ∀ node ∈ g.executionOrder, node.outputSpec.dtype = .bfloat16 ∨
      node.outputSpec.dtype = .int8 ∧ consumedFrom (skeleton g) 0 node.outputName = false := by
    intro node hnode
    rw [hg.order] at hnode
    obtain ⟨call, hcall, rfl⟩ := mem_map.mp hnode
    rw [hg.skeleton_eq]
    exact dtype_cases s call hcall
  have heven : 2 ∣ planOffset plan node.outputName := by
    refine dvd_planOffset h hg.aliasesReady ?_ hj (hg.nonempty _ (mem_of_getElem? hj))
    intro producer hproducer consumer hconsumer hin
    rcases hdtype producer hproducer with hwide | ⟨-, hunused⟩
    · rw [OpNode.sizeBytes, TensorSpec.sizeBytes, hwide]
      exact Nat.dvd_mul_left _ _
    · -- a barrier has no consumer
      obtain ⟨k, hk⟩ := mem_iff_getElem?.mp hconsumer
      have hused := consumedFrom_skeleton.mpr ⟨k, consumer, Nat.zero_le k, hk, hin⟩
      rw [hunused] at hused
      cases hused
  rcases hdtype node (mem_of_getElem? hj) with hwide | ⟨hnarrow, -⟩
  · rw [hwide]
    exact heven
  · rw [hnarrow]
    exact Nat.one_dvd _

end IsBlock

end Block
