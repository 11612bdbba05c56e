import Mosaic.Block.BlockPlans
import Mosaic.Block.Forward
import Mosaic.Control.Chunks

/-!
# The forward pass in one buffer

Every part of a layer is safe: started in agreement with separate buffers on the tensors it
needs, it ends in agreement on the tensors that the rest of the pass needs. In the chunk loop
the invariant is agreement on the normed input, the residual and the rows of the output that
are already there.
-/

namespace Block

open List Graph Arena IsBlock

/-! ### Tensors and slices in the pool -/

/-- The intermediate tensors of the feed-forward part. -/
def intermediates : Family → List TensorName
  | .llada => [.mlpX, .mlpXUp, .mlpGated]
  | .dream => [.xGate, .xUp, .xMlp]
  | .lladaMoe => [.moeCache1, .moeCache2, .moeCache3]

/-- The number of rows of a tensor. -/
def numRows (g : CustomGraph TensorName) (name : TensorName) : ℕ :=
  ((g.nodes name).bind fun node => node.outputSpec.shape.head?).getD 0

section Layout

variable {s : BlockShape} {g : CustomGraph TensorName} {plan : ReusePlan TensorName}

variable {name : TensorName}

theorem poolBase_eq (h : name ≠ .routerLogits) : poolBase plan name = planOffset plan name :=
  if_neg h

theorem routerLogits_not_mem (family : Family) (chunked : Bool) :
    TensorName.routerLogits ∉ (blockOrder family chunked).map Prod.fst := by
  cases family <;> cases chunked <;> decide

/-- One of the two tensors is produced while the other one is live. -/
def Sep (family : Family) (chunked : Bool) (a b : TensorName) : Prop :=
  KeepsApart family chunked a b ∨ KeepsApart family chunked b a

instance (family : Family) (chunked : Bool) (a b : TensorName) :
    Decidable (Sep family chunked a b) :=
  inferInstanceAs (Decidable (_ ∨ _))

section

variable (hg : IsBlock s g) (h : generateOptimizedReusePlan g = .ok plan)
include hg h

theorem apart_pool_of_keepsApart {a b : TensorName} (keep : KeepsApart s.family s.chunked a b) :
    Apart (poolBase plan) (tensorView g a) (tensorView g b) := by
  have hrouter := routerLogits_not_mem s.family s.chunked
  have ha : a ≠ .routerLogits := by
    rintro rfl
    obtain ⟨entry, hentry, heq⟩ := mem_map.mp (mem_of_mem_filter keep.1.2)
    exact hrouter (mem_map.mpr ⟨entry, mem_of_mem_take hentry, heq⟩)
  have hb : b ≠ .routerLogits := by
    rintro rfl
    exact hrouter keep.1.1
  exact (hg.apart h keep).congr_base (poolBase_eq ha) (poolBase_eq hb)

theorem apart_pool {a b : TensorName} (sep : Sep s.family s.chunked a b) :
    Apart (poolBase plan) (tensorView g a) (tensorView g b) := by
  rcases sep with keep | keep
  · exact apart_pool_of_keepsApart hg h keep
  · exact (apart_pool_of_keepsApart hg h keep).symm

/-- The router logits lie outside of the buffer. -/
theorem apart_router (hname : name ∈ (blockOrder s.family s.chunked).map Prod.fst) (lo len : ℕ) :
    Apart (poolBase plan) (tensorView g name) ⟨.routerLogits, lo, len⟩ := by
  have hne : name ≠ .routerLogits := by
    rintro rfl
    exact routerLogits_not_mem _ _ hname
  obtain ⟨_, _, hj, rfl, -⟩ := hg.exists_node hname
  have := stop_le_total h hj (hg.nonempty _ (mem_of_getElem? hj))
  refine .inr (.inr (.inl ?_))
  rw [tensorView_eq hj]
  simp only [View.addr, poolBase_eq hne]
  simp only [poolBase, if_true]
  omega

end

theorem tensorSize_eq_rows {node : OpNode TensorName}
    (hnode : g.nodes name = some node) (hshape : node.outputSpec.shape ≠ []) :
    g.tensorSize name = numRows g name * rowBytes g name := by
  obtain ⟨_, _, hrest⟩ := exists_cons_of_ne_nil hshape
  simp [CustomGraph.tensorSize, numRows, rowBytes, hnode, hrest, OpNode.sizeBytes,
    TensorSpec.sizeBytes, mul_assoc]

theorem shape_ne_nil (s : BlockShape) : ∀ call ∈ s.calls ++ [s.logitsCall], call.shape ≠ [] := by
  obtain ⟨family, chunked, _⟩ := s
  cases family <;> cases chunked <;>
    simp [BlockShape.calls, BlockShape.logitsCall, BlockShape.config, Family.config, llada, dream,
      lladaMoe, attentionCalls, denseFeedForward, moeFeedForward, barrierCalls, finalCall]

section

variable (hg : IsBlock s g) (hname : name ∈ (blockOrder s.family s.chunked).map Prod.fst)
include hg hname

theorem tensorSize_rows : g.tensorSize name = numRows g name * rowBytes g name := by
  obtain ⟨_, _, hj, rfl, -⟩ := hg.exists_node hname
  refine tensorSize_eq_rows (CustomGraph.nodes_eq hj) ?_
  have hmem := mem_of_getElem? hj
  rw [hg.order] at hmem
  obtain ⟨call, hcall, rfl⟩ := mem_map.mp hmem
  exact shape_ne_nil s call hcall

/-- A slice within the rows of a tensor lies within the tensor. -/
theorem slice_within {lo hi : ℕ} (hlo : lo ≤ hi) (hhi : hi ≤ numRows g name) :
    (slice g name lo hi).Within (tensorView g name) := by
  refine ⟨rfl, Nat.zero_le _, ?_⟩
  have hmul : hi * rowBytes g name ≤ numRows g name * rowBytes g name :=
    Nat.mul_le_mul_right _ hhi
  simp only [slice, tensorView, tensorSize_rows hg hname, Nat.sub_mul]
  have : lo * rowBytes g name ≤ hi * rowBytes g name := Nat.mul_le_mul_right _ hlo
  omega

/-- All rows of a tensor. -/
theorem slice_all : slice g name 0 (numRows g name) = tensorView g name := by
  simp [slice, tensorView, tensorSize_rows hg hname]

end

theorem nodes_eq_find (hg : IsBlock s g) (name : TensorName) :
    g.nodes name = ((s.calls ++ [s.logitsCall]).find? fun call => call.outputName = name).map
      CustomGraph.OpCall.node := by
  rw [CustomGraph.nodes, hg.order, find?_map]
  rfl

theorem numRows_tokens (hg : IsBlock s g) :
    numRows g .xNormed2 = s.N ∧ numRows g s.config.feedForwardOutput = s.N := by
  rw [numRows, numRows, nodes_eq_find hg, nodes_eq_find hg]
  obtain ⟨family, chunked, _⟩ := s
  cases family <;> cases chunked <;> exact ⟨rfl, rfl⟩

theorem numRows_logits (hg : IsBlock s g) : numRows g .logits = s.logitsRows := by
  rw [numRows, nodes_eq_find hg]
  obtain ⟨family, chunked, _⟩ := s
  cases family <;> cases chunked <;> rfl

/-- The intermediate tensors have as many rows as a chunk, and one of them eight times as many. -/
theorem numRows_intermediates (hg : IsBlock s g) : ∀ t ∈ intermediates s.family,
    numRows g t = if t = .moeCache2 then s.rows * 8 else s.rows := by
  have hrows := s.rows_eq
  have hnodes := nodes_eq_find hg
  simp only [numRows, hnodes]
  obtain ⟨family, chunked, N, rows, _⟩ := s
  cases chunked with
  | true => cases family <;> simp only [intermediates, mem_cons, not_mem_nil, or_false,
      forall_eq_or_imp, forall_eq] <;> exact ⟨rfl, rfl, rfl⟩
  | false =>
    obtain rfl : rows = N := hrows rfl
    cases family <;> simp only [intermediates, mem_cons, not_mem_nil, or_false,
      forall_eq_or_imp, forall_eq] <;> exact ⟨rfl, rfl, rfl⟩

/-! ### Which tensors keep apart -/

theorem keeps_residual (family : Family) (chunked : Bool) :
    ∀ t ∈ family.config.feedForwardOutput :: intermediates family,
      Sep family chunked .residual t := by
  cases family <;> cases chunked <;> decide

theorem keeps_loop (family : Family) :
    (∀ t ∈ family.config.feedForwardOutput :: intermediates family,
      Sep family true .xNormed2 t) ∧
    ∀ t ∈ intermediates family, Sep family true t family.config.feedForwardOutput := by
  cases family <;> decide

end Layout

/-! ### The feed-forward part -/

section FeedForward

variable {α : Type} {base : TensorName → ℕ} {g : CustomGraph TensorName} {sem : Semantics α}
  {layer chunk lo hi : ℕ} {K : List (View TensorName)}

/-- The gated feed-forward part on some rows keeps everything its four tensors miss. -/
theorem denseRows_safe {gate up gated : TensorName}
    (hgate : Apart base (slice g .xNormed2 lo hi) (slice g gate 0 (hi - lo)))
    (hup : Apart base (slice g .xNormed2 lo hi) (slice g up 0 (hi - lo)))
    (hgateUp : Apart base (slice g gate 0 (hi - lo)) (slice g up 0 (hi - lo)))
    (hgateGated : Apart base (slice g gate 0 (hi - lo)) (slice g gated 0 (hi - lo)))
    (hupGated : Apart base (slice g up 0 (hi - lo)) (slice g gated 0 (hi - lo)))
    (hout : Apart base (slice g gated 0 (hi - lo)) (slice g .mlpOutput lo hi))
    (keep : ∀ v ∈ K, (∀ t ∈ [gate, up, gated], Apart base v (slice g t 0 (hi - lo))) ∧
      Apart base v (slice g .mlpOutput lo hi)) :
    Safe base (slice g .xNormed2 lo hi :: K) (denseRows g sem layer chunk gate up gated lo hi)
      (slice g .mlpOutput lo hi :: K) := by
  -- The agreement moves from the input through gate, up and product to the output, and each
  -- step carries K along.
  have hK : ∀ v ∈ K, ∀ t ∈ [gate, up, gated], Apart base v (slice g t 0 (hi - lo)) :=
    fun v hv => (keep v hv).1
  have gateStep : Safe base (slice g .xNormed2 lo hi :: K)
      [launch sem layer chunk .gateProj [slice g .xNormed2 lo hi] [slice g gate 0 (hi - lo)]]
      (slice g gate 0 (hi - lo) :: slice g .xNormed2 lo hi :: K) :=
    Safe.kernel_single (by simpa using ⟨.of_mem (by simp), hgate⟩) fun v hv => by
      rcases mem_cons.mp hv with rfl | hv
      · exact ⟨by simp, hgate⟩
      · exact ⟨by simp [hv], hK v hv gate (by simp)⟩
  have upStep : Safe base (slice g gate 0 (hi - lo) :: slice g .xNormed2 lo hi :: K)
      [launch sem layer chunk .upProj [slice g .xNormed2 lo hi] [slice g up 0 (hi - lo)]]
      (slice g up 0 (hi - lo) :: slice g gate 0 (hi - lo) :: K) :=
    Safe.kernel_single (by simpa using ⟨.of_mem (by simp), hup⟩) fun v hv => by
      rcases mem_cons.mp hv with rfl | hv
      · exact ⟨by simp, hgateUp⟩
      · exact ⟨by simp [hv], hK v hv up (by simp)⟩
  have siluStep : Safe base (slice g up 0 (hi - lo) :: slice g gate 0 (hi - lo) :: K)
      [update sem layer chunk .silu (slice g gate 0 (hi - lo))]
      (slice g up 0 (hi - lo) :: slice g gate 0 (hi - lo) :: K) :=
    Safe.inPlace (.of_mem (by simp)) fun v hv => by
      rcases mem_cons.mp hv with rfl | hv
      · exact .inr ⟨by simp, hgateUp.symm⟩
      · rcases mem_cons.mp hv with rfl | hv
        · exact .inl rfl
        · exact .inr ⟨by simp [hv], hK v hv gate (by simp)⟩
  have mulStep : Safe base (slice g up 0 (hi - lo) :: slice g gate 0 (hi - lo) :: K)
      [launch sem layer chunk .mul [slice g gate 0 (hi - lo), slice g up 0 (hi - lo)]
        [slice g gated 0 (hi - lo)]] (slice g gated 0 (hi - lo) :: K) := by
    refine Safe.kernel_single ?_ fun v hv => ⟨by simp [hv], hK v hv gated (by simp)⟩
    simp only [mem_cons, not_mem_nil, or_false, forall_eq_or_imp, forall_eq]
    exact ⟨⟨.of_mem (by simp), hgateGated⟩, .of_mem (by simp), hupGated⟩
  have downStep : Safe base (slice g gated 0 (hi - lo) :: K)
      [launch sem layer chunk .downProj [slice g gated 0 (hi - lo)] [slice g .mlpOutput lo hi]]
      (slice g .mlpOutput lo hi :: K) :=
    Safe.kernel_single (by simpa using ⟨.of_mem (by simp), hout⟩) fun v hv =>
      ⟨by simp [hv], (keep v hv).2⟩
  exact gateStep.cons (upStep.cons (siluStep.cons (mulStep.cons downStep)))

/-- The experts on some rows keep everything their four tensors miss. -/
theorem moeRows_safe
    (hcache1 : Apart base (slice g .xNormed2 lo hi) (slice g .moeCache1 0 (hi - lo)))
    (hcache2 : Apart base (slice g .moeCache1 0 (hi - lo)) (slice g .moeCache2 0 ((hi - lo) * 8)))
    (hcache3 : Apart base (slice g .moeCache2 0 ((hi - lo) * 8)) (slice g .moeCache3 0 (hi - lo)))
    (hout : Apart base (slice g .moeCache3 0 (hi - lo)) (slice g .moeOutput lo hi))
    (router : Covered K (routerSlice sem.numExperts lo hi))
    (keep : ∀ v ∈ K, Apart base v (slice g .moeCache1 0 (hi - lo)) ∧
      Apart base v (slice g .moeCache2 0 ((hi - lo) * 8)) ∧
      Apart base v (slice g .moeCache3 0 (hi - lo)) ∧ Apart base v (slice g .moeOutput lo hi)) :
    Safe base (slice g .xNormed2 lo hi :: K) (moeRows g sem layer chunk lo hi)
      (slice g .moeOutput lo hi :: K) := by
  obtain ⟨r, hr, hwithin⟩ := router
  have hrouter : ∀ v, Covered (v :: K) (routerSlice sem.numExperts lo hi) :=
    fun v => ⟨r, mem_cons_of_mem _ hr, hwithin⟩
  have gemm1 : Safe base (slice g .xNormed2 lo hi :: K)
      [launch sem layer chunk .moeGemm1
        [slice g .xNormed2 lo hi, routerSlice sem.numExperts lo hi]
        [slice g .moeCache1 0 (hi - lo)]] (slice g .moeCache1 0 (hi - lo) :: K) := by
    refine Safe.kernel_single ?_ fun v hv => ⟨by simp [hv], (keep v hv).1⟩
    simp only [mem_cons, not_mem_nil, or_false, forall_eq_or_imp, forall_eq]
    exact ⟨⟨.of_mem (by simp), hcache1⟩, hrouter _, (keep r hr).1.within_left hwithin⟩
  have act : Safe base (slice g .moeCache1 0 (hi - lo) :: K)
      [launch sem layer chunk .siluAndMul [slice g .moeCache1 0 (hi - lo)]
        [slice g .moeCache2 0 ((hi - lo) * 8)]] (slice g .moeCache2 0 ((hi - lo) * 8) :: K) :=
    Safe.kernel_single (by simpa using ⟨.of_mem (by simp), hcache2⟩) fun v hv =>
      ⟨by simp [hv], (keep v hv).2.1⟩
  have gemm2 : Safe base (slice g .moeCache2 0 ((hi - lo) * 8) :: K)
      [launch sem layer chunk .moeGemm2
        [slice g .moeCache2 0 ((hi - lo) * 8), routerSlice sem.numExperts lo hi]
        [slice g .moeCache3 0 (hi - lo)]] (slice g .moeCache3 0 (hi - lo) :: K) := by
    refine Safe.kernel_single ?_ fun v hv => ⟨by simp [hv], (keep v hv).2.2.1⟩
    simp only [mem_cons, not_mem_nil, or_false, forall_eq_or_imp, forall_eq]
    exact ⟨⟨.of_mem (by simp), hcache3⟩, hrouter _, (keep r hr).2.2.1.within_left hwithin⟩
  have sum : Safe base (slice g .moeCache3 0 (hi - lo) :: K)
      [launch sem layer chunk .moeSum [slice g .moeCache3 0 (hi - lo)] [slice g .moeOutput lo hi]]
      (slice g .moeOutput lo hi :: K) :=
    Safe.kernel_single (by simpa using ⟨.of_mem (by simp), hout⟩) fun v hv =>
      ⟨by simp [hv], (keep v hv).2.2.2⟩
  exact gemm1.cons (act.cons (gemm2.cons sum))

end FeedForward

/-! ### The feed-forward part of a block graph -/

section Blocks

variable {α : Type} {s : BlockShape} {g : CustomGraph TensorName} {plan : ReusePlan TensorName}
  {sem : Semantics α} {layer chunk lo hi : ℕ} {K : List (View TensorName)}

/-- The router logits, for the family that has them. -/
def routerViews (family : Family) (numExperts N : ℕ) : List (View TensorName) :=
  match family with
  | .lladaMoe => [routerSlice numExperts 0 N]
  | _ => []

theorem apart_slices (hg : IsBlock s g) (h : generateOptimizedReusePlan g = .ok plan)
    {a b : TensorName} (sep : Sep s.family s.chunked a b) {v w : View TensorName}
    (hv : v.Within (tensorView g a)) (hw : w.Within (tensorView g b)) :
    Apart (poolBase plan) v w :=
  ((apart_pool hg h sep).within_left hv).within_right hw

theorem mem_tokens (family : Family) (chunked : Bool) :
    ∀ t ∈ [TensorName.xNormed2, .residual, .x, .finalOutput, .logits,
      family.config.feedForwardOutput] ++ intermediates family,
      t ∈ (blockOrder family chunked).map Prod.fst := by
  cases family <;> cases chunked <;> decide

/-- A slice of a chunk buffer that is no longer than a chunk. -/
theorem chunk_slice_within (hg : IsBlock s g) {t : TensorName} (ht : t ∈ intermediates s.family)
    {rows : ℕ} (hrows : rows ≤ if t = .moeCache2 then s.rows * 8 else s.rows) :
    (slice g t 0 rows).Within (tensorView g t) := by
  refine slice_within hg (mem_tokens _ _ t (mem_append_right _ ht)) (Nat.zero_le _) ?_
  rwa [numRows_intermediates hg t ht]

/-- The tensors that the gated feed-forward part needs side by side. -/
def KeepsDense (family : Family) (chunked : Bool) (gate up gated : TensorName) : Prop :=
  Sep family chunked .xNormed2 gate ∧ Sep family chunked .xNormed2 up ∧
  Sep family chunked gate up ∧ Sep family chunked gate gated ∧
  Sep family chunked up gated ∧ Sep family chunked gated .mlpOutput

instance (family : Family) (chunked : Bool) (gate up gated : TensorName) :
    Decidable (KeepsDense family chunked gate up gated) :=
  inferInstanceAs (Decidable (_ ∧ _))

theorem keeps_dense (chunked : Bool) :
    KeepsDense .llada chunked .mlpX .mlpXUp .mlpGated ∧
    KeepsDense .dream chunked .xGate .xUp .xMlp := by
  cases chunked <;> decide

theorem keeps_moe (chunked : Bool) :
    Sep .lladaMoe chunked .xNormed2 .moeCache1 ∧ Sep .lladaMoe chunked .moeCache1 .moeCache2 ∧
    Sep .lladaMoe chunked .moeCache2 .moeCache3 ∧ Sep .lladaMoe chunked .moeCache3 .moeOutput := by
  cases chunked <;> decide

theorem routerSlice_within {numExperts N : ℕ} (hlo : lo ≤ hi) (hhi : hi ≤ N) :
    (routerSlice numExperts lo hi).Within (routerSlice numExperts 0 N) := by
  have hstart : lo * (numExperts * 2) ≤ hi * (numExperts * 2) := Nat.mul_le_mul_right _ hlo
  have hstop : hi * (numExperts * 2) ≤ N * (numExperts * 2) := Nat.mul_le_mul_right _ hhi
  refine ⟨rfl, ?_, ?_⟩ <;> simp only [routerSlice, Nat.sub_mul, zero_mul] <;> omega

/-- The gated feed-forward part of a block graph on some rows. -/
theorem denseBlock_safe (hg : IsBlock s g) (h : generateOptimizedReusePlan g = .ok plan)
    {gate up gated : TensorName} (hnames : intermediates s.family = [gate, up, gated])
    (hdense : TensorName.moeCache2 ∉ intermediates s.family)
    (keeps : KeepsDense s.family s.chunked gate up gated) (hrows : hi - lo ≤ s.rows)
    (hinput : (slice g .xNormed2 lo hi).Within (tensorView g .xNormed2))
    (houtput : (slice g .mlpOutput lo hi).Within (tensorView g .mlpOutput))
    (hinter : ∀ v ∈ K, ∀ t ∈ intermediates s.family, Apart (poolBase plan) v (tensorView g t))
    (hout : ∀ v ∈ K, Apart (poolBase plan) v (slice g .mlpOutput lo hi)) :
    Safe (poolBase plan) (slice g .xNormed2 lo hi :: K)
      (denseRows g sem layer chunk gate up gated lo hi) (slice g .mlpOutput lo hi :: K) := by
  obtain ⟨k₁, k₂, k₃, k₄, k₅, k₆⟩ := keeps
  -- Every buffer of a dense family has the rows of a chunk, so the same rows fit all three.
  have hsmall : ∀ t ∈ [gate, up, gated], (slice g t 0 (hi - lo)).Within (tensorView g t) := by
    intro t ht
    rw [← hnames] at ht
    refine chunk_slice_within hg ht ?_
    rwa [if_neg (by rintro rfl; exact hdense ht)]
  have hsep : ∀ {a b : TensorName} {v w : View TensorName}, Sep s.family s.chunked a b →
      v.Within (tensorView g a) → w.Within (tensorView g b) → Apart (poolBase plan) v w :=
    fun sep => apart_slices hg h sep
  have wGate := hsmall gate (by simp)
  have wUp := hsmall up (by simp)
  have wGated := hsmall gated (by simp)
  refine denseRows_safe (hsep k₁ hinput wGate) (hsep k₂ hinput wUp) (hsep k₃ wGate wUp)
    (hsep k₄ wGate wGated) (hsep k₅ wUp wGated) (hsep k₆ wGated houtput) fun v hv => ⟨?_, hout v hv⟩
  intro t ht
  exact (hinter v hv t (hnames ▸ ht)).within_right (hsmall t ht)

/-- The feed-forward part on some rows turns agreement on these rows of its input into
agreement on these rows of its output. -/
theorem feedForwardRows_safe (hg : IsBlock s g) (h : generateOptimizedReusePlan g = .ok plan)
    (hlo : lo ≤ hi) (hhi : hi ≤ s.N) (hrows : hi - lo ≤ s.rows)
    (hinter : ∀ v ∈ K, ∀ t ∈ intermediates s.family, Apart (poolBase plan) v (tensorView g t))
    (hout : ∀ v ∈ K, Apart (poolBase plan) v (slice g s.config.feedForwardOutput lo hi))
    (router : ∀ v ∈ routerViews s.family sem.numExperts s.N, v ∈ K) :
    Safe (poolBase plan) (slice g .xNormed2 lo hi :: K)
      (feedForwardRows s.family g sem layer chunk lo hi)
      (slice g s.config.feedForwardOutput lo hi :: K) := by
  have hinput : (slice g .xNormed2 lo hi).Within (tensorView g .xNormed2) :=
    slice_within hg (mem_tokens _ _ _ (by simp)) hlo (by rw [(numRows_tokens hg).1]; exact hhi)
  have houtput : (slice g s.config.feedForwardOutput lo hi).Within
      (tensorView g s.config.feedForwardOutput) :=
    slice_within hg (mem_tokens _ _ _ (by simp [BlockShape.config])) hlo
      (by rw [(numRows_tokens hg).2]; exact hhi)
  -- The three families are split only here: what each of them needs apart was decided above.
  obtain ⟨family, chunked, N, rows, _⟩ := s
  cases family with
  | llada =>
    exact denseBlock_safe hg h rfl (by simp [intermediates]) (keeps_dense chunked).1 hrows hinput
      houtput hinter hout
  | dream =>
    exact denseBlock_safe hg h rfl (by simp [intermediates]) (keeps_dense chunked).2 hrows hinput
      houtput hinter hout
  | lladaMoe =>
    obtain ⟨k₁, k₂, k₃, k₄⟩ := keeps_moe chunked
    have hmem : ∀ t ∈ [TensorName.moeCache1, .moeCache2, .moeCache3],
        t ∈ intermediates .lladaMoe := fun t ht => ht
    -- The second cache has a row for each of the eight experts of a token.
    have w₁ := chunk_slice_within hg (hmem .moeCache1 (by simp)) hrows
    have w₂ := chunk_slice_within hg (hmem .moeCache2 (by simp)) (Nat.mul_le_mul_right 8 hrows)
    have w₃ := chunk_slice_within hg (hmem .moeCache3 (by simp)) hrows
    refine moeRows_safe (apart_slices hg h k₁ hinput w₁) (apart_slices hg h k₂ w₁ w₂)
      (apart_slices hg h k₃ w₂ w₃) (apart_slices hg h k₄ w₃ houtput)
      ⟨_, router _ mem_cons_self, routerSlice_within hlo hhi⟩ fun v hv => ?_
    have hv' := hinter v hv
    exact ⟨(hv' .moeCache1 (hmem _ (by simp))).within_right w₁,
      (hv' .moeCache2 (hmem _ (by simp))).within_right w₂,
      (hv' .moeCache3 (hmem _ (by simp))).within_right w₃, hout v hv⟩

/-! ### Chunk loops -/

/-- A chunk loop whose rounds lead from the rows done so far to the next ones. -/
theorem chunkLoop_safe {base : TensorName → ℕ} {count tile : ℕ} (htile : 0 < tile)
    (invariant : ℕ → List (View TensorName))
    (body : ℕ → ℕ → ℕ → List (Arena.Op TensorName α))
    (round : ∀ i lo hi, lo < count → hi = min (lo + tile) count →
      Safe base (invariant lo) (body i lo hi) (invariant hi)) :
    Safe base (invariant 0) (chunkLoop count tile body) (invariant count) := by
  have hround : ∀ i < (count + tile - 1) / tile, Safe base (invariant (min (i * tile) count))
      (body i (i * tile) (min (i * tile + tile) count))
      (invariant (min ((i + 1) * tile) count)) := by
    intro i hi
    have hlt := Chunks.lt_of_lt_chunks htile hi
    have := round i (i * tile) _ hlt rfl
    rwa [show min (i * tile) count = i * tile by omega, Nat.add_one_mul]
  have hloop := Safe.flatMap_range (fun i => invariant (min (i * tile) count)) _ _ hround
  have hdone := Chunks.le_chunks_mul count tile htile
  rwa [zero_mul, Nat.zero_min, min_eq_right hdone] at hloop

/-- What a chunk loop keeps: its input, the residual, and the rows of the output so far. -/
def loopViews (s : BlockShape) (g : CustomGraph TensorName) (numExperts done : ℕ) :
    List (View TensorName) :=
  [tensorView g .xNormed2, tensorView g .residual, slice g s.config.feedForwardOutput 0 done] ++
    routerViews s.family numExperts s.N

theorem apart_routerViews (hg : IsBlock s g) (h : generateOptimizedReusePlan g = .ok plan)
    {numExperts : ℕ} {v : View TensorName} (hv : v ∈ routerViews s.family numExperts s.N)
    {name : TensorName} (hname : name ∈ (blockOrder s.family s.chunked).map Prod.fst) :
    Apart (poolBase plan) (tensorView g name) v := by
  have : ∃ lo len, v = ⟨.routerLogits, lo, len⟩ := by
    unfold routerViews at hv
    split at hv
    · exact ⟨_, _, mem_singleton.mp hv⟩
    · cases hv
  obtain ⟨lo, len, rfl⟩ := this
  exact apart_router hg h hname lo len

/-- In a chunked graph everything the loop keeps misses the chunk buffers. -/
theorem loopViews_apart (hg : IsBlock s g) (h : generateOptimizedReusePlan g = .ok plan)
    (hchunked : s.chunked = true) {numExperts done : ℕ} (hdone : done ≤ s.N) :
    ∀ v ∈ loopViews s g numExperts done, ∀ t ∈ intermediates s.family,
      Apart (poolBase plan) v (tensorView g t) := by
  intro v hv t ht
  obtain ⟨hinput, houtput⟩ := keeps_loop s.family
  have hresidual := keeps_residual s.family s.chunked
  have houtputMem : s.config.feedForwardOutput ∈ (blockOrder s.family s.chunked).map Prod.fst :=
    mem_tokens _ _ _ (by simp [BlockShape.config])
  rcases mem_append.mp hv with hv | hv
  · simp only [mem_cons, not_mem_nil, or_false] at hv
    rcases hv with rfl | rfl | rfl
    · exact apart_pool hg h (hchunked ▸ hinput t (mem_cons_of_mem _ ht))
    · exact apart_pool hg h (hresidual t (mem_cons_of_mem _ ht))
    · have := apart_pool hg h (hchunked ▸ houtput t ht : Sep s.family s.chunked t _)
      refine (this.symm).within_left (slice_within hg houtputMem (Nat.zero_le _) ?_)
      exact (numRows_tokens hg).2 ▸ hdone
  · exact (apart_routerViews hg h hv (mem_tokens _ _ t (mem_append_right _ ht))).symm

/-- Different rows of one tensor share no address. -/
theorem apart_rows (base : TensorName → ℕ) (name : TensorName) {a b c d : ℕ} (hab : a ≤ b)
    (hbc : b ≤ c) : Apart base (slice g name a b) (slice g name c d) := by
  have hmul : b * rowBytes g name ≤ c * rowBytes g name := Nat.mul_le_mul_right _ hbc
  have hmul' : a * rowBytes g name ≤ b * rowBytes g name := Nat.mul_le_mul_right _ hab
  simp only [Apart, slice, View.addr, Nat.sub_mul]
  omega

/-- Everything the loop keeps misses the rows of the output that are still to come. -/
theorem loopViews_apart_output (hg : IsBlock s g) (h : generateOptimizedReusePlan g = .ok plan)
    (hchunked : s.chunked = true) {numExperts : ℕ} (hlo : lo ≤ hi) (hhi : hi ≤ s.N) :
    ∀ v ∈ loopViews s g numExperts lo,
      Apart (poolBase plan) v (slice g s.config.feedForwardOutput lo hi) := by
  have houtputMem : s.config.feedForwardOutput ∈ (blockOrder s.family s.chunked).map Prod.fst :=
    mem_tokens _ _ _ (by simp [BlockShape.config])
  have hwithin := slice_within hg houtputMem hlo ((numRows_tokens hg).2 ▸ hhi)
  intro v hv
  rcases mem_append.mp hv with hv | hv
  · simp only [mem_cons, not_mem_nil, or_false] at hv
    rcases hv with rfl | rfl | rfl
    · exact (apart_pool hg h (hchunked ▸ (keeps_loop s.family).1 _ mem_cons_self :
        Sep s.family s.chunked _ _)).within_right hwithin
    · exact (apart_pool hg h (keeps_residual _ _ _ mem_cons_self)).within_right hwithin
    · exact apart_rows _ _ (Nat.zero_le _) le_rfl
  · exact (apart_routerViews hg h hv houtputMem).symm.within_right hwithin

/-- The rows so far and the next rows are all the rows up to there. -/
theorem cells_slice_append {name : TensorName} (hlo : lo ≤ hi) {c : TensorName × ℕ}
    (h : (slice g name 0 hi).Has c.1 c.2) :
    (slice g name 0 lo).Has c.1 c.2 ∨ (slice g name lo hi).Has c.1 c.2 := by
  obtain ⟨htensor, -, hhi⟩ := h
  have hmul : lo * rowBytes g name ≤ hi * rowBytes g name := Nat.mul_le_mul_right _ hlo
  simp only [slice, View.Has, Nat.zero_mul, Nat.sub_zero, Nat.sub_mul, Nat.zero_add] at hhi ⊢
  by_cases hlt : c.2 < lo * rowBytes g name
  · exact .inl ⟨htensor, Nat.zero_le _, hlt⟩
  · exact .inr ⟨htensor, by omega, by omega⟩

/-- One round of the chunk loop. -/
theorem loop_round_safe (hg : IsBlock s g) (h : generateOptimizedReusePlan g = .ok plan)
    (hchunked : s.chunked = true) (hlo : lo < s.N) (hhi : hi = min (lo + s.rows) s.N) :
    Safe (poolBase plan) (loopViews s g sem.numExperts lo)
      (feedForwardRows s.family g sem layer chunk lo hi) (loopViews s g sem.numExperts hi) := by
  have hle : lo ≤ hi := by omega
  have hrows : Safe (poolBase plan)
      (slice g .xNormed2 lo hi :: loopViews s g sem.numExperts lo)
      (feedForwardRows s.family g sem layer chunk lo hi)
      (slice g s.config.feedForwardOutput lo hi :: loopViews s g sem.numExperts lo) :=
    feedForwardRows_safe hg h hle (by omega) (by omega) (loopViews_apart hg h hchunked (by omega))
      (loopViews_apart_output hg h hchunked hle (by omega))
      fun v hv => mem_append_right _ hv
  have hinput : (slice g .xNormed2 lo hi).Within (tensorView g .xNormed2) :=
    slice_within hg (mem_tokens _ _ _ (by simp)) hle (by rw [(numRows_tokens hg).1]; omega)
  refine hrows.conseq (cells_subset fun v hv => ?_) ?_
  · rcases mem_cons.mp hv with rfl | hv
    · exact ⟨tensorView g .xNormed2, by simp [loopViews], hinput⟩
    · exact .of_mem hv
  · have hkept : ∀ u ∈ loopViews s g sem.numExperts lo, ∀ c : TensorName × ℕ, u.Has c.1 c.2 →
        c ∈ cells (slice g s.config.feedForwardOutput lo hi :: loopViews s g sem.numExperts lo) :=
      fun u hu c hhas => ⟨u, mem_cons_of_mem _ hu, hhas⟩
    rintro c ⟨v, hv, hhas⟩
    rcases mem_append.mp hv with hv | hv
    · simp only [mem_cons, not_mem_nil, or_false] at hv
      rcases hv with rfl | rfl | rfl
      · exact hkept _ (by simp [loopViews]) c hhas
      · exact hkept _ (by simp [loopViews]) c hhas
      · rcases cells_slice_append hle hhas with hdone | hnext
        · exact hkept _ (by simp [loopViews]) c hdone
        · exact ⟨_, mem_cons_self, hnext⟩
    · exact hkept v (mem_append_right _ hv) c hhas

theorem routerProgram_safe (hg : IsBlock s g) (h : generateOptimizedReusePlan g = .ok plan) :
    Safe (poolBase plan) [tensorView g .xNormed2, tensorView g .residual]
      (routerProgram s.family g sem layer s.N)
      ([tensorView g .xNormed2, tensorView g .residual] ++
        routerViews s.family sem.numExperts s.N) := by
  have hapart : ∀ name ∈ [TensorName.xNormed2, .residual],
      Apart (poolBase plan) (tensorView g name) (routerSlice sem.numExperts 0 s.N) := by
    intro name hname
    refine apart_router hg h (mem_tokens _ _ name ?_) _ _
    simp only [mem_cons, not_mem_nil, or_false] at hname
    rcases hname with rfl | rfl <;> simp
  unfold routerProgram routerViews
  cases s.family with
  | llada => exact Safe.nil _ _
  | dream => exact Safe.nil _ _
  | lladaMoe =>
    refine (Safe.kernel_single (K := [tensorView g .xNormed2, tensorView g .residual]) ?_ ?_).weaken
      (by simp [or_comm, or_left_comm])
    · simpa using ⟨.of_mem (by simp), hapart _ (by simp)⟩
    · simpa using ⟨hapart _ (by simp), hapart _ (by simp)⟩

/-- The shape belongs to the strategy and the number of masked tokens. -/
structure Fits (s : BlockShape) (strategy : Option ChunkStrategy) (M : ℕ) : Prop where
  mlp : match strategy with
    | some ⟨_, true, _, numChunks⟩ => s.chunked = true ∧ s.rows = maxChunkSize s.N numChunks
    | _ => s.rows = s.N
  logits : match strategy with
    | some ⟨true, _, numChunks, _⟩ => s.logitsRows = maxChunkSize M numChunks
    | _ => s.logitsRows = M

theorem fits_shape (family : Family) (strategy : Option ChunkStrategy) (N M : ℕ) (hN : 0 < N)
    (hM : 0 < M) (hmlp : ∀ s ∈ strategy, 0 < s.numChunksMlp)
    (hlog : ∀ s ∈ strategy, 0 < s.numChunksLogits) :
    Fits (family.shape strategy N M hN hM hmlp hlog) strategy M := by
  cases strategy with
  | none => exact ⟨rfl, rfl⟩
  | some strategy =>
    obtain ⟨chunkLogits, chunkMlp, numChunksLogits, numChunksMlp⟩ := strategy
    cases chunkLogits <;> cases chunkMlp <;> exact ⟨by first | exact rfl | exact ⟨rfl, rfl⟩, rfl⟩

/-- The feed-forward part in one piece. -/
theorem feedForwardWhole_safe (hg : IsBlock s g) (h : generateOptimizedReusePlan g = .ok plan)
    (hrows : s.rows = s.N) :
    Safe (poolBase plan) ([tensorView g .xNormed2, tensorView g .residual] ++
        routerViews s.family sem.numExperts s.N)
      (feedForwardRows s.family g sem layer 0 0 s.N)
      [tensorView g s.config.feedForwardOutput, tensorView g .residual] := by
  have houtputMem : s.config.feedForwardOutput ∈ (blockOrder s.family s.chunked).map Prod.fst :=
    mem_tokens _ _ _ (by simp [BlockShape.config])
  have hinput : slice g .xNormed2 0 s.N = tensorView g .xNormed2 := by
    rw [← (numRows_tokens hg).1]
    exact slice_all hg (mem_tokens _ _ _ (by simp))
  have houtput : slice g s.config.feedForwardOutput 0 s.N =
      tensorView g s.config.feedForwardOutput := by
    rw [← (numRows_tokens hg).2]
    exact slice_all hg houtputMem
  have hbuffers : ∀ v ∈ tensorView g .residual :: routerViews s.family sem.numExperts s.N,
      ∀ t ∈ intermediates s.family, Apart (poolBase plan) v (tensorView g t) := by
    intro v hv t ht
    rcases mem_cons.mp hv with rfl | hv
    · exact apart_pool hg h (keeps_residual _ _ t (mem_cons_of_mem _ ht))
    · exact (apart_routerViews hg h hv (mem_tokens _ _ t (mem_append_right _ ht))).symm
  have hkept : ∀ v ∈ tensorView g .residual :: routerViews s.family sem.numExperts s.N,
      Apart (poolBase plan) v (slice g s.config.feedForwardOutput 0 s.N) := by
    intro v hv
    rw [houtput]
    rcases mem_cons.mp hv with rfl | hv
    · exact apart_pool hg h (keeps_residual _ _ _ mem_cons_self)
    · exact (apart_routerViews hg h hv houtputMem).symm
  have hall : Safe (poolBase plan)
      (slice g .xNormed2 0 s.N :: tensorView g .residual ::
        routerViews s.family sem.numExperts s.N)
      (feedForwardRows s.family g sem layer 0 0 s.N)
      (slice g s.config.feedForwardOutput 0 s.N :: tensorView g .residual ::
        routerViews s.family sem.numExperts s.N) :=
    feedForwardRows_safe hg h (Nat.zero_le _) le_rfl (by omega) hbuffers hkept
      fun v hv => mem_cons_of_mem _ hv
  rw [hinput, houtput] at hall
  exact hall.weaken (by simp)

/-- The feed-forward part chunk by chunk. -/
theorem feedForwardLoop_safe (hg : IsBlock s g) (h : generateOptimizedReusePlan g = .ok plan)
    (hchunked : s.chunked = true) :
    Safe (poolBase plan) ([tensorView g .xNormed2, tensorView g .residual] ++
        routerViews s.family sem.numExperts s.N)
      (chunkLoop s.N s.rows (feedForwardRows s.family g sem layer))
      [tensorView g s.config.feedForwardOutput, tensorView g .residual] := by
  have hloop : Safe (poolBase plan) (loopViews s g sem.numExperts 0)
      (chunkLoop s.N s.rows (feedForwardRows s.family g sem layer))
      (loopViews s g sem.numExperts s.N) :=
    chunkLoop_safe s.rows_pos _ _ fun i lo hi hlo hhi => loop_round_safe hg h hchunked hlo hhi
  have houtput : slice g s.config.feedForwardOutput 0 s.N =
      tensorView g s.config.feedForwardOutput := by
    rw [← (numRows_tokens hg).2]
    exact slice_all hg (mem_tokens _ _ _ (by simp [BlockShape.config]))
  refine hloop.conseq ?_ (cells_subset fun v hv => .of_mem ?_)
  · rintro _ ⟨v, hv, hhas⟩
    rcases mem_append.mp hv with hv | hv
    · simp only [mem_cons, not_mem_nil, or_false] at hv
      rcases hv with rfl | rfl | rfl
      · exact ⟨_, by simp, hhas⟩
      · exact ⟨_, by simp, hhas⟩
      · -- no row of the output is there yet
        obtain ⟨-, hlo, hhi⟩ := hhas
        simp [slice] at hhi
    · exact ⟨v, mem_append_right _ hv, hhas⟩
  · simp only [mem_cons, not_mem_nil, or_false] at hv
    rcases hv with rfl | rfl
    · exact houtput ▸ (by simp [loopViews])
    · simp [loopViews]

variable {strategy : Option ChunkStrategy}

theorem feedForwardProgram_safe (hg : IsBlock s g) (h : generateOptimizedReusePlan g = .ok plan)
    {M : ℕ} (fits : Fits s strategy M) :
    Safe (poolBase plan) [tensorView g .xNormed2, tensorView g .residual]
      (feedForwardProgram s.family g sem layer strategy s.N)
      [tensorView g s.config.feedForwardOutput, tensorView g .residual] := by
  refine (routerProgram_safe hg h).append ?_
  have hmlp := fits.mlp
  split
  · obtain ⟨hchunked, hrows⟩ := hmlp
    rw [← hrows]
    exact feedForwardLoop_safe hg h hchunked
  · rename_i hne
    refine feedForwardWhole_safe hg h ?_
    split at hmlp
    · exact absurd rfl (hne _ _ _)
    · exact hmlp

/-! ### The attention part -/

/-- From the live tensors, an operation may read `reads` and write `out` while `keep` survives. -/
def StepOk (family : Family) (chunked : Bool) (live reads : List TensorName) (out : TensorName)
    (keep : List TensorName) : Prop :=
  (∀ a ∈ reads, a ∈ live ∧ Sep family chunked a out) ∧
    ∀ a ∈ keep, a ∈ live ∧ Sep family chunked a out

instance (family : Family) (chunked : Bool) (live reads : List TensorName) (out : TensorName)
    (keep : List TensorName) : Decidable (StepOk family chunked live reads out keep) :=
  inferInstanceAs (Decidable (_ ∧ _))

theorem launch_safe (hg : IsBlock s g) (h : generateOptimizedReusePlan g = .ok plan)
    {live reads keep : List TensorName} {out : TensorName} {op : ModelOp}
    (ok : StepOk s.family s.chunked live reads out keep) :
    Safe (poolBase plan) (live.map (tensorView g))
      [launch sem layer chunk op (reads.map (tensorView g)) [tensorView g out]]
      ((out :: keep).map (tensorView g)) := by
  obtain ⟨hreads, hkeep⟩ := ok
  refine Safe.kernel_single (fun v hv => ?_) fun v hv => ?_
  · obtain ⟨a, ha, rfl⟩ := mem_map.mp hv
    exact ⟨.of_mem (mem_map_of_mem (hreads a ha).1), apart_pool hg h (hreads a ha).2⟩
  · obtain ⟨a, ha, rfl⟩ := mem_map.mp hv
    exact ⟨mem_map_of_mem (hkeep a ha).1, apart_pool hg h (hkeep a ha).2⟩

/-- In-place updates of live tensors that are pairwise apart. -/
theorem updates_safe (hg : IsBlock s g) (h : generateOptimizedReusePlan g = .ok plan)
    {live : List TensorName} (updates : List (ModelOp × TensorName))
    (mem : ∀ entry ∈ updates, entry.2 ∈ live)
    (sep : ∀ a ∈ live, ∀ b ∈ live, a = b ∨ Sep s.family s.chunked a b) :
    Safe (poolBase plan) (live.map (tensorView g))
      (updates.map fun entry => update sem layer chunk entry.1 (tensorView g entry.2))
      (live.map (tensorView g)) := by
  induction updates with
  | nil => exact Safe.nil _ _
  | cons entry rest ih =>
    have hentry := mem entry mem_cons_self
    refine Safe.cons (Safe.inPlace (.of_mem (mem_map_of_mem hentry)) fun v hv => ?_)
      (ih fun e he => mem e (mem_cons_of_mem _ he))
    obtain ⟨a, ha, rfl⟩ := mem_map.mp hv
    rcases sep a ha entry.2 hentry with rfl | hsep
    · exact .inl rfl
    · exact .inr ⟨mem_map_of_mem ha, apart_pool hg h hsep⟩

theorem attention_steps_ok (family : Family) (chunked : Bool) :
    StepOk family chunked [.x] [.x] .xNormed [.x] ∧
    StepOk family chunked [.xNormed, .x] [.xNormed] .q [.xNormed, .x] ∧
    StepOk family chunked [.q, .xNormed, .x] [.xNormed] .k [.q, .xNormed, .x] ∧
    StepOk family chunked [.k, .q, .xNormed, .x] [.xNormed] .v [.k, .q, .x] ∧
    StepOk family chunked [.v, .k, .q, .x] [.q, .k, .v] family.config.attention [.x] ∧
    StepOk family chunked [family.config.attention, .x] [family.config.attention] .attOut [.x] := by
  cases family <;> cases chunked <;> decide

theorem attention_updates_ok (family : Family) (chunked : Bool) :
    (∀ entry ∈ qkvUpdates family, entry.2 ∈ [TensorName.v, .k, .q, .x]) ∧
    ∀ a ∈ [TensorName.v, .k, .q, .x], ∀ b ∈ [TensorName.v, .k, .q, .x],
      a = b ∨ Sep family chunked a b := by
  cases family <;> cases chunked <;> decide

theorem attention_fused_ok (family : Family) (chunked : Bool) :
    (∀ a ∈ [TensorName.x, .attOut], ∀ b ∈ [TensorName.xNormed2, .residual],
      Sep family chunked a b) ∧ Sep family chunked .xNormed2 .residual := by
  cases family <;> cases chunked <;> decide

section

variable (hg : IsBlock s g) (h : generateOptimizedReusePlan g = .ok plan)
include hg h

/-- The fused addition and norm, with its two outputs. -/
theorem fusedAddRmsNorm_safe : Safe (poolBase plan) [tensorView g .attOut, tensorView g .x]
      [launch sem layer chunk .fusedAddRmsNorm [tensorView g .x, tensorView g .attOut]
        [tensorView g .xNormed2, tensorView g .residual]]
      [tensorView g .xNormed2, tensorView g .residual] := by
  obtain ⟨hmiss, houts⟩ := attention_fused_ok s.family s.chunked
  refine Safe.kernel ?_ ?_ ?_ fun v hv => .inl hv
  · simp only [mem_cons, not_mem_nil, or_false, forall_eq_or_imp, forall_eq]
    exact ⟨.of_mem (by simp), .of_mem (by simp)⟩
  · simp only [mem_cons, not_mem_nil, or_false, forall_eq_or_imp, forall_eq]
    exact ⟨⟨apart_pool hg h (hmiss _ (by simp) _ (by simp)),
        apart_pool hg h (hmiss _ (by simp) _ (by simp))⟩,
      apart_pool hg h (hmiss _ (by simp) _ (by simp)),
      apart_pool hg h (hmiss _ (by simp) _ (by simp))⟩
  · have hapart := apart_pool hg h houts
    simp only [mem_cons, not_mem_nil, or_false, forall_eq_or_imp, forall_eq]
    exact ⟨⟨fun hne => absurd rfl hne, fun _ => hapart⟩, fun _ => hapart.symm,
      fun hne => absurd rfl hne⟩

theorem attentionProgram_safe :
    Safe (poolBase plan) [tensorView g .x] (attentionProgram s.family g sem layer)
      [tensorView g .xNormed2, tensorView g .residual] := by
  obtain ⟨hnorm, hq, hk, hv, hatt, hout⟩ := attention_steps_ok s.family s.chunked
  obtain ⟨hmem, hsep⟩ := attention_updates_ok s.family s.chunked
  have step : ∀ {live reads keep : List TensorName} {out : TensorName} (op : ModelOp),
      StepOk s.family s.chunked live reads out keep →
      Safe (poolBase plan) (live.map (tensorView g))
        [launch sem layer 0 op (reads.map (tensorView g)) [tensorView g out]]
        ((out :: keep).map (tensorView g)) :=
    fun op ok => launch_safe hg h ok
  have projections := (step .inputNorm hnorm).cons ((step .qProj hq).cons
    ((step .kProj hk).cons (step .vProj hv)))
  have fused : Safe (poolBase plan) [tensorView g .attOut, tensorView g .x]
      [launch sem layer 0 .fusedAddRmsNorm [tensorView g .x, tensorView g .attOut]
        [tensorView g .xNormed2, tensorView g .residual]]
      [tensorView g .xNormed2, tensorView g .residual] := fusedAddRmsNorm_safe hg h
  have attend := (step .attention hatt).cons ((step .oProj hout).cons fused)
  exact (projections.append (updates_safe hg h (qkvUpdates s.family) hmem hsep)).append attend

/-! ### Layers and the whole pass -/

/-- What the alias needs: the final output lies on the block's input, misses the residual, and
misses the feed-forward output or lies exactly on it. -/
theorem final_overlap : Apart (poolBase plan) (tensorView g .residual) (tensorView g .finalOutput) ∧
    (Apart (poolBase plan) (tensorView g s.config.feedForwardOutput)
        (tensorView g .finalOutput) ∨
      (tensorView g s.config.feedForwardOutput).addr (poolBase plan) =
        (tensorView g .finalOutput).addr (poolBase plan)) := by
  have hne : s.config.feedForwardOutput ≠ .routerLogits := by
    unfold BlockShape.config
    cases s.family <;> decide
  have hfinal := hg.offset_finalOutput h
  have hres := hg.offset_residual h
  have hsize := s.bytes_hidden
  have hA := s.hiddenBytes_pos
  simp only [tensorView, hg.tensorSize_eq, Apart, View.addr,
    poolBase_eq (show TensorName.residual ≠ .routerLogits by decide),
    poolBase_eq (show TensorName.finalOutput ≠ .routerLogits by decide), poolBase_eq hne,
    hfinal, hres, hsize .residual (by simp), hsize .finalOutput (by simp),
    hsize s.config.feedForwardOutput (by simp)]
  rcases hg.offset_output h with hzero | hbehind <;> omega

end

theorem elements_eq (s : BlockShape) : s.hiddenBytes = 2 * (s.N * s.config.hiddenSize) := by
  rw [BlockShape.hiddenBytes, sizeBytes_row, ← mul_assoc, mul_comm]

section

variable (hg : IsBlock s g) (h : generateOptimizedReusePlan g = .ok plan)
include hg h

/-- One layer takes agreement on its input to agreement on the input of the next one. -/
theorem layerProgram_safe {M : ℕ} (fits : Fits s strategy M) :
    Safe (poolBase plan) [tensorView g .x] (layerProgram s.family g sem layer strategy s.N)
      [tensorView g .x] := by
  obtain ⟨hres, houtput⟩ := final_overlap hg h
  have hlen : ∀ name ∈ [TensorName.residual, s.config.feedForwardOutput, .finalOutput],
      (tensorView g name).len = 2 * (s.N * s.config.hiddenSize) := by
    intro name hname
    rw [tensorView, hg.tensorSize_eq, s.bytes_hidden name (by simp at hname ⊢; tauto)]
    exact elements_eq s
  have add : Safe (poolBase plan)
      [tensorView g s.config.feedForwardOutput, tensorView g .residual]
      [.elementwise 2 (s.N * s.config.hiddenSize)
        [tensorView g .residual, tensorView g s.config.feedForwardOutput]
        (tensorView g .finalOutput) (sem.add layer)] [tensorView g .finalOutput] := by
    refine Safe.elementwise ?_ (hlen _ (by simp)) ?_ ?_ fun v hv => .inl (mem_singleton.mp hv)
    all_goals
      simp only [mem_cons, not_mem_nil, or_false, forall_eq_or_imp, forall_eq]
    · exact ⟨hlen _ (by simp), hlen _ (by simp)⟩
    · exact ⟨.of_mem (by simp), .of_mem (by simp)⟩
    · exact ⟨.inl hres, houtput⟩
  have next : Safe (poolBase plan) [tensorView g .finalOutput]
      [(.rebind .x .finalOutput (g.tensorSize .finalOutput) : Arena.Op TensorName α)]
      [tensorView g .x] := by
    refine Safe.rebind ?_ (.of_mem (mem_singleton.mpr rfl)) fun v hv => .inl ?_
    · rw [poolBase_eq (by decide), poolBase_eq (by decide), hg.offset_finalOutput h,
        (hg.attentionOffsets h).x]
    · obtain rfl := mem_singleton.mp hv
      refine ⟨rfl, le_rfl, ?_⟩
      simp only [tensorView, hg.tensorSize_eq, s.bytes_hidden .x (by simp),
        s.bytes_hidden .finalOutput (by simp)]
      exact le_rfl
  exact ((attentionProgram_safe hg h).append (feedForwardProgram_safe hg h fits)).append
    (add.cons next)

/-- The input of a block, which after a layer holds the final output, misses the logits. -/
theorem apart_logits : Apart (poolBase plan) (tensorView g .x) (tensorView g .logits) := by
  refine .inr (.inr (.inl ?_))
  simp only [tensorView, View.addr, hg.tensorSize_eq, s.bytes_hidden .x (by simp),
    poolBase_eq (show TensorName.x ≠ .routerLogits by decide),
    poolBase_eq (show TensorName.logits ≠ .routerLogits by decide), (hg.attentionOffsets h).x]
  have := hg.offset_logits h
  omega

theorem logitsRows_safe {layers : ℕ} (hrows : hi - lo ≤ s.logitsRows) :
    Safe (poolBase plan) [tensorView g .x] (logitsRows g sem chunk layers lo hi)
      [tensorView g .x] := by
  have hwithin : (slice g .logits 0 (hi - lo)).Within (tensorView g .logits) :=
    slice_within hg (mem_tokens _ _ _ (by simp)) (Nat.zero_le _) (by rwa [numRows_logits hg])
  have hapart := (apart_logits hg h).within_right hwithin
  refine Safe.cons (Safe.kernel_single (K := [tensorView g .x]) ?_ ?_)
    (Safe.emit (.of_mem (by simp)) (by simp))
  · simpa using ⟨.of_mem (by simp), hapart⟩
  · simpa using hapart

theorem headProgram_safe {M layers : ℕ} (fits : Fits s strategy M) :
    Safe (poolBase plan) [tensorView g .x] (headProgram g sem layers strategy M)
      [tensorView g .x] := by
  have hx : Covered [tensorView g .x] (tensorView g .x) := .of_mem (mem_singleton.mpr rfl)
  have norm : Safe (poolBase plan) [tensorView g .x]
      [.emit (tensorView g .x), update sem layers 0 .finalNorm (tensorView g .x),
        .emit (tensorView g .x)] [tensorView g .x] :=
    (Safe.emit hx fun u hu => hu).cons
      ((Safe.inPlace hx fun u hu => .inl (mem_singleton.mp hu)).cons
        (Safe.emit hx fun u hu => hu))
  refine norm.append ?_
  have hlog := fits.logits
  split
  · rw [← hlog]
    exact chunkLoop_safe s.logitsRows_pos (fun _ => [tensorView g .x]) _
      fun i lo hi hlo hhi => logitsRows_safe hg h (by omega)
  · rename_i hne
    refine logitsRows_safe hg h ?_
    split at hlog
    · exact absurd rfl (hne _ _ _)
    · omega

/-- The whole forward pass, from any contents of the buffer. -/
theorem forward_safe {M : ℕ} (fits : Fits s strategy M) (layers : ℕ) :
    Safe (poolBase plan) [] (forward s.family g sem strategy s.N M layers) [tensorView g .x] := by
  have embed : Safe (poolBase plan) [] [launch sem 0 0 .embedding [] [tensorView g .x]]
      [tensorView g .x] := Safe.kernel_single (by simp) (by simp)
  have run : Safe (poolBase plan) [tensorView g .x]
      ((List.range layers).flatMap fun layer => layerProgram s.family g sem layer strategy s.N)
      [tensorView g .x] :=
    Safe.flatMap_range (fun _ => [tensorView g .x]) _ layers fun layer _ =>
      layerProgram_safe hg h fits
  exact (embed.append run).append (headProgram_safe hg h fits)

end

end Blocks

end Block
