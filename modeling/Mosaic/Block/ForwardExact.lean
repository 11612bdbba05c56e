import Mosaic.Block.ForwardSafety

/-!
# Forward passes in the activation pool are exact

For every number of tokens, every chunk strategy and every number of layers, running the
forward pass of a model at the planned offsets of one buffer gives the same hidden states and
logits as running it with one buffer for each tensor. Nothing is assumed of the kernels but
what they read and write.
-/

namespace Block

open Graph Arena

/-- Two entries of a plan share no byte. -/
def Disjoint (a b : PlanEntry) : Prop :=
  a.offset + a.size ≤ b.offset ∨ b.offset + b.size ≤ a.offset

/-- The final output lies on the block's input, misses the residual, and misses the feed-forward
output or lies exactly on it. The logits miss the final output. -/
def AliasPlaced (plan : ReusePlan TensorName) (output : TensorName) : Prop :=
  ∃ x final residual out logits, plan.entry? .x = some x ∧ plan.entry? .finalOutput = some final ∧
    plan.entry? .residual = some residual ∧ plan.entry? output = some out ∧
    plan.entry? .logits = some logits ∧
    final.offset = x.offset ∧ final.size = x.size ∧ Disjoint final residual ∧
    (final.offset = out.offset ∧ final.size = out.size ∨ Disjoint final out) ∧
    Disjoint logits final

/-- Whatever the kernels compute and whatever the pool and the separate buffers hold at first:
the forward pass can run in the pool, every operation of such a run reads what it reads with
separate buffers, and the final hidden states are the same. The sampler is one of the readers
of the logits. -/
def ExactForward (family : Family) (g : CustomGraph TensorName) (plan : ReusePlan TensorName)
    (strategy : Option ChunkStrategy) (N M layers : ℕ) : Prop :=
  ∀ (α : Type) (sem : Semantics α) (m : Mem α) (σ : Store TensorName α),
    let program := forward family g sem strategy N M layers
    (∃ outs m', Exec (poolBase plan) program m outs m') ∧
    ∀ outs m', Exec (poolBase plan) program m outs m' →
      outs = (evalAll program σ).2 ∧
      m'.read (poolBase plan) (tensorView g .x) = (evalAll program σ).1.read (tensorView g .x)

section General

variable {s : BlockShape} {g : CustomGraph TensorName} {plan : ReusePlan TensorName}

section

variable (hg : IsBlock s g) (h : generateOptimizedReusePlan g = .ok plan)
include hg h

theorem IsBlock.entry {name : TensorName}
    (hname : name ∈ (blockOrder s.family s.chunked).map Prod.fst) :
    ∃ entry, plan.entry? name = some entry ∧ entry.offset = planOffset plan name ∧
      entry.size = s.bytes name := by
  obtain ⟨_, _, hj, rfl, -⟩ := hg.exists_node hname
  refine ⟨_, entry?_eq h hj (hg.nonempty _ (List.mem_of_getElem? hj)), rfl, ?_⟩
  rw [← hg.tensorSize_eq, CustomGraph.tensorSize_eq hj]

theorem IsBlock.aliasPlaced : AliasPlaced plan s.config.feedForwardOutput := by
  have hmem := mem_tokens s.family s.chunked
  obtain ⟨x, hx, ox, sx⟩ := hg.entry h (hmem .x (by simp))
  obtain ⟨final, hfinal, ofinal, sfinal⟩ := hg.entry h (hmem .finalOutput (by simp))
  obtain ⟨residual, hres, oresidual, sresidual⟩ := hg.entry h (hmem .residual (by simp))
  obtain ⟨out, hout, _, sout⟩ :=
    hg.entry h (hmem s.config.feedForwardOutput (by simp [BlockShape.config]))
  obtain ⟨logits, hlogits, _, -⟩ := hg.entry h (hmem .logits (by simp))
  refine ⟨x, final, residual, out, logits, hx, hfinal, hres, hout, hlogits, ?_⟩
  rw [s.bytes_hidden _ (by simp)] at sx sfinal sresidual sout
  rw [(hg.attentionOffsets h).x] at ox
  rw [hg.offset_finalOutput h] at ofinal
  rw [hg.offset_residual h] at oresidual
  have houtput := hg.offset_output h
  have hbehind := hg.offset_logits h
  simp only [Disjoint]
  omega

theorem IsBlock.exactForward {strategy : Option ChunkStrategy} {M : ℕ} (fits : Fits s strategy M)
    (layers : ℕ) : ExactForward s.family g plan strategy s.N M layers := by
  intro α sem m σ
  refine ⟨exists_exec _ _, fun outs m' hexec => ?_⟩
  -- nothing is assumed of the memory at the start: the embedding stores all of the input
  obtain ⟨hsync, houts⟩ := (forward_safe hg h fits layers).run m σ outs m'
    (nofun) hexec
  exact ⟨houts, (hsync _ (List.mem_singleton.mpr rfl)).read_eq⟩

end

end General

/-- LLaDA. For every number of tokens and of masked tokens, every chunk strategy and every number
of layers, the forward pass at the planned offsets is exact. -/
theorem llada_forward_exact {N M : ℕ} (hN : 1 ≤ N) (hM : 1 ≤ M) (strategy : Option ChunkStrategy)
    (hmlp : ∀ s ∈ strategy, 1 ≤ s.numChunksMlp) (hlogits : ∀ s ∈ strategy, 1 ≤ s.numChunksLogits)
    (layers : ℕ) :
    ∃ g plan, Family.llada.graph strategy N M = .ok g ∧
      generateOptimizedReusePlan g = .ok plan ∧ AliasPlaced plan .mlpOutput ∧
      ExactForward .llada g plan strategy N M layers := by
  obtain ⟨g, hgraph, hg⟩ := Family.llada.exists_graph strategy N M hN hM hmlp hlogits
  obtain ⟨plan, hplan⟩ := hg.exists_plan
  have fits := fits_shape .llada strategy N M hN hM hmlp hlogits
  exact ⟨g, plan, hgraph, hplan, hg.aliasPlaced hplan, hg.exactForward hplan fits layers⟩

theorem llada_forward_exact_two_layers :
    ∃ g plan, Family.llada.graph (some ⟨true, true, 2, 2⟩) 3 2 = .ok g ∧
      generateOptimizedReusePlan g = .ok plan ∧ AliasPlaced plan .mlpOutput ∧
      ExactForward .llada g plan (some ⟨true, true, 2, 2⟩) 3 2 2 :=
  llada_forward_exact (by decide) (by decide) _ (by simp) (by simp) 2

/-- Dream and LLaDA-MoE as well. For every number of tokens and of masked tokens, every chunk
strategy and every number of layers, no operation of the forward pass overwrites what a later
one still reads, where the last addition of a layer may store exactly over one of its inputs,
and the pass is exact. -/
theorem family_forward_exact (family : Family) {N M : ℕ} (hN : 1 ≤ N) (hM : 1 ≤ M)
    (strategy : Option ChunkStrategy)
    (hmlp : ∀ s ∈ strategy, 1 ≤ s.numChunksMlp) (hlogits : ∀ s ∈ strategy, 1 ≤ s.numChunksLogits)
    (layers : ℕ) :
    ∃ g plan, family.graph strategy N M = .ok g ∧ generateOptimizedReusePlan g = .ok plan ∧
      AliasPlaced plan family.config.feedForwardOutput ∧
      (∀ (α : Type) (sem : Semantics α), Undisturbed (poolBase plan)
        (forward family g sem strategy N M layers) (cells [tensorView g .x])) ∧
      ExactForward family g plan strategy N M layers := by
  obtain ⟨g, hgraph, hg⟩ := family.exists_graph strategy N M hN hM hmlp hlogits
  obtain ⟨plan, hplan⟩ := hg.exists_plan
  have fits := fits_shape family strategy N M hN hM hmlp hlogits
  exact ⟨g, plan, hgraph, hplan, hg.aliasPlaced hplan,
    fun α sem => (forward_safe hg hplan fits layers).undisturbed,
    hg.exactForward hplan fits layers⟩

theorem family_forward_exact_two_layers :
    (∃ g plan, Family.dream.graph none 3 2 = .ok g ∧ generateOptimizedReusePlan g = .ok plan ∧
      ExactForward .dream g plan none 3 2 2) ∧
    ∃ g plan, Family.lladaMoe.graph (some ⟨false, true, 1, 2⟩) 3 2 = .ok g ∧
      generateOptimizedReusePlan g = .ok plan ∧
      ExactForward .lladaMoe g plan (some ⟨false, true, 1, 2⟩) 3 2 2 := by
  constructor
  · obtain ⟨g, plan, hgraph, hplan, -, -, hexact⟩ := family_forward_exact .dream
      (N := 3) (M := 2) (by decide) (by decide) none (by simp) (by simp) 2
    exact ⟨g, plan, hgraph, hplan, hexact⟩
  · obtain ⟨g, plan, hgraph, hplan, -, -, hexact⟩ := family_forward_exact .lladaMoe
      (N := 3) (M := 2) (by decide) (by decide) (some ⟨false, true, 1, 2⟩) (by simp) (by simp) 2
    exact ⟨g, plan, hgraph, hplan, hexact⟩

end Block
