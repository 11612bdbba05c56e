import Mosaic.Control.Chunks
import Mosaic.Graph.Conflicts
import Mosaic.Interval.OutOfOrder

/-!
# The hybrid best fit planner

This planner cuts the execution order into windows. Within a window it places the tensors with
more conflicts first, and of those with as many conflicts the larger ones. A tensor goes to the
smallest gap between the blocks of the tensors placed before that die at or after its birth, which
is the test of the planner in execution order. In another order it also meets tensors that are born
later.
-/

namespace Graph

open List

variable {ν : Type} [DecidableEq ν]

/-! ### The planner -/

/-- The number of nodes in a window. -/
def windowSize : ℕ := 5

/-- The sort keys are in order: more conflicts first, and with as many the larger tensor. -/
def keyLe (g : CustomGraph ν) (a b : OpNode ν) : Prop :=
  (conflicts g b.outputName).card < (conflicts g a.outputName).card ∨
    (conflicts g a.outputName).card = (conflicts g b.outputName).card ∧ b.sizeBytes ≤ a.sizeBytes

instance (g : CustomGraph ν) (a b : OpNode ν) : Decidable (keyLe g a b) :=
  inferInstanceAs (Decidable (_ ∨ _))

/-- The nodes, window by window. -/
def orderedTensors (g : CustomGraph ν) : List (OpNode ν) :=
  (Chunks.bounds g.executionOrder.length windowSize).flatMap fun window =>
    (Chunks.piece g.executionOrder window.1 window.2).insertionSort (keyLe g)

/-- The best gap between the blocks that are live at the birth of a node. -/
def liveBestFit (g : CustomGraph ν) (st : PlannerState ν) (node : OpNode ν) : ℕ :=
  BestFit.bestFit Block.start Block.stop node.sizeBytes
    (liveBlocksAtBirth g st.allocatedBlocks (births g node.outputName))

/-- The offset the planner chooses for a node: the offset of its alias target, or else the best
gap between the live blocks. -/
def foundBestOffset (g : CustomGraph ν) (st : PlannerState ν) (node : OpNode ν) :
    Except (GraphError ν) ℕ :=
  match g.aliases.find? fun link => link.1 = node.outputName with
  | some (_, targetName) =>
    match lookupEntry st.reusePlan targetName with
    | some target => .ok target.offset
    | none => .error (.aliasUnallocated targetName)
  | none => .ok (liveBestFit g st node)

/-- One round of the planner. Empty tensors are skipped. -/
def placeBest (g : CustomGraph ν) (st : PlannerState ν) (node : OpNode ν) :
    Except (GraphError ν) (PlannerState ν) :=
  if node.sizeBytes > 0 then do
    let offset ← foundBestOffset g st node
    return st.allocate node offset
  else return st

/-- Give an alias that has no entry the offset of its target. -/
def addMissingAlias (g : CustomGraph ν) (entries : List (ν × PlanEntry)) (node : OpNode ν) :
    Except (GraphError ν) (List (ν × PlanEntry)) :=
  match lookupEntry entries node.outputName with
  | some _ => .ok entries
  | none => addAliasEntry g entries node

/-- Plan every tensor of the graph, window by window. -/
def hybridBestFitPlan (g : CustomGraph ν) : Except (GraphError ν) (ReusePlan ν) := do
  let st ← (orderedTensors g).foldlM (placeBest g) PlannerState.init
  let entries ← g.executionOrder.foldlM (addMissingAlias g) st.reusePlan
  return ⟨entries, st.maxOffset⟩

/-! ### The order -/

/-- The window of a tensor. -/
def windowOf (g : CustomGraph ν) (name : ν) : ℕ :=
  births g name / windowSize

/-- The first tensor is placed before the second: it is in an earlier window, or in the same one
with more conflicts, or with as many and larger, or as large and born earlier. -/
def PlacedBefore (g : CustomGraph ν) (a b : OpNode ν) : Prop :=
  windowOf g a.outputName < windowOf g b.outputName ∨
    windowOf g a.outputName = windowOf g b.outputName ∧
      ((conflicts g b.outputName).card < (conflicts g a.outputName).card ∨
        (conflicts g a.outputName).card = (conflicts g b.outputName).card ∧
          (b.sizeBytes < a.sizeBytes ∨ a.sizeBytes = b.sizeBytes ∧
            births g a.outputName < births g b.outputName))

/-- Insertion keeps what is in front among equals in front. -/
theorem pairwise_orderedInsert {α : Type} {r q : α → α → Prop} [DecidableRel r] [Std.Total r]
    [IsTrans α r] {a : α} {l : List α} (hl : l.Pairwise fun a b => r a b ∧ (r b a → q a b))
    (ha : ∀ b ∈ l, q a b) :
    (l.orderedInsert r a).Pairwise fun a b => r a b ∧ (r b a → q a b) := by
  induction l with
  | nil => simp
  | cons b rest ih =>
    obtain ⟨hb, hrest⟩ := pairwise_cons.mp hl
    by_cases hab : r a b
    · rw [orderedInsert_cons_of_le _ _ hab]
      refine pairwise_cons.mpr ⟨fun c hc => ⟨?_, fun _ => ha c hc⟩, hl⟩
      rcases mem_cons.mp hc with rfl | hc
      · exact hab
      · exact trans_of r hab (hb c hc).1
    · have hba : r b a := (total_of r a b).resolve_left hab
      rw [orderedInsert_of_not_le _ _ hab]
      refine pairwise_cons.mpr ⟨fun c hc => ?_, ih hrest fun c hc => ha c (mem_cons_of_mem _ hc)⟩
      rcases (mem_orderedInsert r).mp hc with rfl | hc
      · exact ⟨hba, fun h => absurd h hab⟩
      · exact hb c hc

/-- Insertion sort is stable. -/
theorem pairwise_insertionSort_stable {α : Type} {r q : α → α → Prop} [DecidableRel r]
    [Std.Total r] [IsTrans α r] {l : List α} (hl : l.Pairwise q) :
    (l.insertionSort r).Pairwise fun a b => r a b ∧ (r b a → q a b) := by
  induction l with
  | nil => exact List.Pairwise.nil
  | cons a rest ih =>
    obtain ⟨ha, hrest⟩ := pairwise_cons.mp hl
    exact pairwise_orderedInsert (ih hrest) fun b hb => ha b ((mem_insertionSort r).mp hb)

instance (g : CustomGraph ν) : Std.Total (keyLe g) :=
  ⟨fun a b => by unfold keyLe; omega⟩

instance (g : CustomGraph ν) : IsTrans (OpNode ν) (keyLe g) :=
  ⟨fun a b c hab hbc => by unfold keyLe at *; omega⟩

/-- Nodes further on in the execution order are born later. -/
theorem pairwise_births (g : CustomGraph ν) :
    g.executionOrder.Pairwise fun a b => births g a.outputName < births g b.outputName := by
  rw [pairwise_iff_getElem]
  intro i j hi hj hlt
  rw [births_eq g (getElem?_eq_getElem hi), births_eq g (getElem?_eq_getElem hj)]
  exact hlt

theorem windowOf_of_mem_piece {g : CustomGraph ν} {i : ℕ} {node : OpNode ν}
    (h : node ∈ Chunks.piece g.executionOrder (i * windowSize)
      (min (i * windowSize + windowSize) g.executionOrder.length)) :
    windowOf g node.outputName = i := by
  obtain ⟨_, hlo, hhi, hk⟩ := Chunks.exists_of_mem_piece h
  rw [windowOf, births_eq g hk]
  have hwindow : 0 < windowSize := by decide
  exact Nat.div_eq_of_lt_le (by omega) (by rw [Nat.succ_mul]; omega)

/-- The order of the placements. -/
theorem orderedTensors_pairwise (g : CustomGraph ν) :
    (orderedTensors g).Pairwise (PlacedBefore g) := by
  rw [orderedTensors, pairwise_flatMap]
  constructor
  · -- within a window: the keys, and for equal keys the births
    intro window hwindow
    obtain ⟨i, -, rfl⟩ := mem_map.mp hwindow
    have hpiece : (Chunks.piece g.executionOrder (i * windowSize)
        (min (i * windowSize + windowSize) g.executionOrder.length)).Pairwise
          fun a b => births g a.outputName < births g b.outputName :=
      (pairwise_births g).sublist ((take_sublist _ _).trans (drop_sublist _ _))
    refine (pairwise_insertionSort_stable (r := keyLe g) hpiece).imp_of_mem ?_
    rintro a b ha hb ⟨hkey, htie⟩
    rw [mem_insertionSort] at ha hb
    refine .inr ⟨(windowOf_of_mem_piece ha).trans (windowOf_of_mem_piece hb).symm, ?_⟩
    unfold keyLe at hkey htie
    omega
  · -- between windows: the positions
    rw [Chunks.bounds, pairwise_map]
    refine pairwise_lt_range.imp fun {i j} hlt a ha b hb => .inl ?_
    rw [mem_insertionSort] at ha hb
    rw [windowOf_of_mem_piece ha, windowOf_of_mem_piece hb]
    exact hlt

/-- The placements are of all nodes, each once. -/
theorem orderedTensors_perm (g : CustomGraph ν) : (orderedTensors g).Perm g.executionOrder := by
  have hpieces := Chunks.flatMap_piece g.executionOrder (show 0 < windowSize by decide)
  refine List.Perm.trans ?_ (List.Perm.of_eq hpieces)
  exact List.Perm.flatMap_left _ fun window _ => perm_insertionSort _ _

theorem PlacedBefore.asymm {g : CustomGraph ν} {a b : OpNode ν} (h : PlacedBefore g a b) :
    ¬ PlacedBefore g b a := by
  unfold PlacedBefore at *
  omega

/-! ### The placements -/

section Placements

variable {g : CustomGraph ν} {plan : ReusePlan ν} {node : OpNode ν}

/-- One round of the planner in a graph without aliases. -/
def placeFree (g : CustomGraph ν) (st : PlannerState ν) (node : OpNode ν) : PlannerState ν :=
  if node.sizeBytes > 0 then st.allocate node (liveBestFit g st node) else st

theorem placeBest_eq_ok (halias : g.aliases = []) (st : PlannerState ν) (node : OpNode ν) :
    placeBest g st node = .ok (placeFree g st node) := by
  rw [placeBest, placeFree, foundBestOffset, halias]
  split <;> rfl

theorem addMissingAlias_eq_ok (halias : g.aliases = []) (entries : List (ν × PlanEntry))
    (node : OpNode ν) : addMissingAlias g entries node = .ok entries := by
  rw [addMissingAlias, addAliasEntry, halias]
  split <;> rfl

omit [DecidableEq ν] in
theorem prefix_allocate (st : PlannerState ν) (node : OpNode ν) (offset : ℕ) :
    st.reusePlan <+: (st.allocate node offset).reusePlan :=
  prefix_append _ _

section

variable {placed : List (OpNode ν)} {st : PlannerState ν} (inv : PlannerInv placed st)
include inv

theorem PlannerInv.placeFree (node : OpNode ν) :
    PlannerInv (placed ++ [node]) (placeFree g st node) ∧
      st.reusePlan <+: (Graph.placeFree g st node).reusePlan := by
  rw [Graph.placeFree]
  split
  · rename_i hpos
    exact ⟨inv.allocate hpos _, prefix_allocate st node _⟩
  · rename_i hzero
    exact ⟨inv.skip hzero, prefix_rfl⟩

/-- The rounds keep the invariant and only append to the plan. -/
theorem PlannerInv.foldl_placeFree (nodes : List (OpNode ν)) :
    PlannerInv (placed ++ nodes) (nodes.foldl (Graph.placeFree g) st) ∧
      st.reusePlan <+: (nodes.foldl (Graph.placeFree g) st).reusePlan := by
  induction nodes generalizing placed st with
  | nil => exact ⟨by simpa using inv, prefix_rfl⟩
  | cons node rest ih =>
    obtain ⟨hplaced, hpre⟩ := inv.placeFree (g := g) node
    obtain ⟨hrest, hpre'⟩ := ih hplaced
    exact ⟨by simpa using hrest, hpre.trans hpre'⟩

end

/-- Without aliases the planner cannot fail. -/
theorem exists_hybrid (halias : g.aliases = []) :
    ∃ st, st = (orderedTensors g).foldl (placeFree g) PlannerState.init ∧
      PlannerInv (orderedTensors g) st ∧
      hybridBestFitPlan g = .ok ⟨st.reusePlan, st.maxOffset⟩ := by
  have inv : PlannerInv (orderedTensors g)
      ((orderedTensors g).foldl (placeFree g) PlannerState.init) := by
    simpa using ((plannerInv_init (ν := ν)).foldl_placeFree (g := g) (orderedTensors g)).1
  refine ⟨_, rfl, inv, ?_⟩
  have hrounds : (orderedTensors g).foldlM (placeBest g) PlannerState.init =
      .ok ((orderedTensors g).foldl (placeFree g) PlannerState.init) :=
    Fallible.foldlM_eq_ok _ (fun node _ st => placeBest_eq_ok halias st node) _
  have haliases (entries : List (ν × PlanEntry)) :
      g.executionOrder.foldlM (addMissingAlias g) entries = .ok entries := by
    have hsteps : g.executionOrder.foldlM (addMissingAlias g) entries =
        .ok (g.executionOrder.foldl (fun entries _ => entries) entries) :=
      Fallible.foldlM_eq_ok _ (fun node _ entries => addMissingAlias_eq_ok halias entries node) _
    rw [hsteps]
    congr 1
    exact foldl_fixed' (fun _ => rfl) _
  rw [hybridBestFitPlan, hrounds]
  change ((g.executionOrder.foldlM (addMissingAlias g) _) >>= _) = _
  rw [haliases]
  rfl

theorem nodup_orderedTensors (g : CustomGraph ν) :
    ((orderedTensors g).map OpNode.outputName).Nodup :=
  ((orderedTensors_perm g).map OpNode.outputName).nodup_iff.mpr g.nodup

/-- The entry of a tensor, and its offset in terms of the offsets of those placed before. -/
theorem hybridOffset_eq (halias : g.aliases = []) (h : hybridBestFitPlan g = .ok plan)
    {before after : List (OpNode ν)} (horder : orderedTensors g = before ++ node :: after)
    (hpos : 0 < node.sizeBytes) :
    plan.entry? node.outputName = some ⟨planOffset plan node.outputName, node.sizeBytes,
      node.outputSpec.shape, node.outputSpec.dtype⟩ ∧
    planOffset plan node.outputName + node.sizeBytes ≤ plan.totalBufferSizeBytes ∧
    planOffset plan node.outputName = BestFit.bestFit (fun b => planOffset plan b.outputName)
      (fun b => planOffset plan b.outputName + b.sizeBytes) node.sizeBytes
      ((before.filter fun b => 0 < b.sizeBytes).filter fun b =>
        (births g node.outputName : ℤ) ≤ deathOf g b.outputName) := by
  obtain ⟨final, hfinal, inv, hplan⟩ := exists_hybrid halias
  cases hplan.symm.trans h
  have distinct := inv.nodup (nodup_orderedTensors g)
  -- the state before the node is placed, and the one after
  obtain ⟨invBefore, -⟩ := plannerInv_init.foldl_placeFree (g := g) before
  rw [nil_append] at invBefore
  set st := before.foldl (placeFree g) PlannerState.init with hst
  rw [horder, foldl_append, foldl_cons, ← hst] at hfinal
  obtain ⟨invNode, hpre⟩ := invBefore.placeFree (g := g) node
  obtain ⟨-, hpre'⟩ := invNode.foldl_placeFree (g := g) after
  rw [← hfinal] at hpre'
  have hplaced : placeFree g st node = st.allocate node (liveBestFit g st node) := if_pos hpos
  have hentry : (node.outputName, (⟨liveBestFit g st node, node.sizeBytes, node.outputSpec.shape,
      node.outputSpec.dtype⟩ : PlanEntry)) ∈ final.reusePlan := by
    refine hpre'.subset ?_
    rw [hplaced]
    simp [PlannerState.allocate]
  have hget := lookupEntry_of_mem distinct hentry
  have hoff : planOffset ⟨final.reusePlan, final.maxOffset⟩ node.outputName =
      liveBestFit g st node := by
    simp [planOffset, ReusePlan.entry?, hget]
  rw [hoff]
  refine ⟨hget, ?_, ?_⟩
  · refine inv.bounded (PlanEntry.block node.outputName ⟨liveBestFit g st node, node.sizeBytes,
      node.outputSpec.shape, node.outputSpec.dtype⟩) ?_
    rw [inv.blocks]
    exact mem_map_of_mem hentry
  · have hblocks : st.allocatedBlocks = (before.filter fun b => 0 < b.sizeBytes).map
        (nodeBlock ⟨final.reusePlan, final.maxOffset⟩) :=
      invBefore.blocks_eq_of_prefix (hpre.trans hpre') distinct
    rw [liveBestFit, liveBlocksAtBirth, hblocks, filter_map, BestFit.bestFit_map]
    rfl

end Placements

end Graph
