import Mosaic.Block.BlockPlans

/-!
# How much memory the plan of a block takes

Behind the attention part, the plan of a block depends on how large the intermediate tensors of
the feed-forward part are against the hidden states. In chunks they all stay until the barrier
behind the loop, and go one after the other into the room in front of the normed input, into the
gap before the residual, or behind the residual. A plan in chunks therefore takes the more memory
the more rows a chunk has.
-/

namespace Block

open List Graph FirstFit

/-! ### Sizes -/

/-- An intermediate tensor of a feed-forward part, with the number of elements of a row. -/
structure Stage where
  name : TensorName
  width : ℕ

/-- The tensor that reads the normed input. -/
def Family.firstStage : Family → Stage
  | .llada => ⟨.mlpX, 12288⟩
  | .dream => ⟨.xGate, 18944⟩
  | .lladaMoe => ⟨.moeCache1, 8 * (1024 * 2)⟩

/-- The second intermediate tensor. -/
def Family.secondStage : Family → Stage
  | .llada => ⟨.mlpXUp, 12288⟩
  | .dream => ⟨.xUp, 18944⟩
  | .lladaMoe => ⟨.moeCache2, 8 * 1024⟩

/-- The tensor that the output is made from. -/
def Family.thirdStage : Family → Stage
  | .llada => ⟨.mlpGated, 12288⟩
  | .dream => ⟨.xMlp, 18944⟩
  | .lladaMoe => ⟨.moeCache3, 8 * 2048⟩

namespace BlockShape

variable (s : BlockShape)

/-- The number of bytes of an intermediate tensor. -/
def stageBytes (stage : Stage) : ℕ :=
  s.rows * (stage.width * 2)

theorem hiddenBytes_eq : s.hiddenBytes = s.N * (s.config.hiddenSize * 2) :=
  sizeBytes_row _ _

theorem kvBytes_eq : s.kvBytes = s.N * (s.config.kvWidth * 2) :=
  sizeBytes_row _ _

/-- A tensor has the size of the call that makes it. -/
theorem bytes_of_mem {call : Call} (h : call ∈ s.calls ++ [s.logitsCall]) :
    s.bytes call.outputName = call.node.sizeBytes := by
  obtain ⟨g, -, hg⟩ := s.exists_graph
  have hnode : call.node ∈ g.executionOrder := hg.order ▸ mem_map_of_mem h
  obtain ⟨_, hi⟩ := mem_iff_getElem?.mp hnode
  rw [← CustomGraph.tensorSize_eq hi, hg.tensorSize_eq]
  rfl

theorem bytes_stages : ∀ stage ∈ [s.family.firstStage, s.family.secondStage, s.family.thirdStage],
    s.bytes stage.name = s.stageBytes stage := by
  -- without chunks there is a row for each token
  have hmem : ∀ call ∈ s.family.config.feedForward s.rows s.N,
      call ∈ s.calls ++ [s.logitsCall] := by
    intro call hcall
    rw [calls, mem_append, mem_append, mem_append]
    refine .inl (.inl (.inr ?_))
    cases hchunked : s.chunked with
    | true => exact mem_append_left _ hcall
    | false =>
      rw [s.rows_eq hchunked] at hcall
      exact hcall
  simp only [mem_cons, not_mem_nil, or_false, forall_eq_or_imp, forall_eq]
  cases hfamily : s.family
  all_goals
    rw [hfamily] at hmem
    simp only [Family.config, llada, dream, lladaMoe, denseFeedForward, moeFeedForward,
      mem_cons, not_mem_nil, or_false, forall_eq_or_imp, forall_eq] at hmem
    obtain ⟨hfirst, hsecond, hthird, -⟩ := hmem
  case llada | dream =>
    exact ⟨(s.bytes_of_mem hfirst).trans (sizeBytes_row _ _),
      (s.bytes_of_mem hsecond).trans (sizeBytes_row _ _),
      (s.bytes_of_mem hthird).trans (sizeBytes_row _ _)⟩
  case lladaMoe =>
    exact ⟨(s.bytes_of_mem hfirst).trans (sizeBytes_row3 _ _ _),
      ((s.bytes_of_mem hsecond).trans (sizeBytes_row _ _)).trans (mul_assoc s.rows 8 (1024 * 2)),
      (s.bytes_of_mem hthird).trans (sizeBytes_row3 _ _ _)⟩

theorem bytes_logits : s.bytes .logits = s.logitsRows * (s.config.vocabSize * 2) :=
  (s.bytes_of_mem (mem_append_right _ mem_cons_self)).trans (sizeBytes_row _ _)

theorem bytes_barriers (hchunked : s.chunked = true) :
    ∀ name ∈ [s.config.loopHazardBarrier, .xnorm2Barrier], s.bytes name = 1 := by
  have hsize : TensorSpec.sizeBytes ⟨[1], .int8⟩ = 1 := by decide
  have hmem : ∀ call ∈ barrierCalls s.config, call ∈ s.calls ++ [s.logitsCall] := by
    intro call hcall
    rw [calls, hchunked, mem_append, mem_append, mem_append]
    exact .inl (.inl (.inr (mem_append_right _ hcall)))
  simp only [barrierCalls, mem_cons, not_mem_nil, or_false, forall_eq_or_imp, forall_eq] at hmem ⊢
  exact ⟨(s.bytes_of_mem hmem.1).trans hsize, (s.bytes_of_mem hmem.2).trans hsize⟩

end BlockShape

/-- The names of the feed-forward part in chunks, and what is live when each of them is placed. -/
theorem chunked_order (family : Family) :
    (List.range' 9 6).map (fun j => (((blockOrder family true).map Prod.fst)[j]?,
      liveNames (blockOrder family true) j)) =
      [(some family.firstStage.name, [.xNormed2, .residual]),
        (some family.secondStage.name, [.xNormed2, .residual, family.firstStage.name]),
        (some family.thirdStage.name,
          [.xNormed2, .residual, family.firstStage.name, family.secondStage.name]),
        (some family.config.feedForwardOutput, [.xNormed2, .residual, family.firstStage.name,
          family.secondStage.name, family.thirdStage.name]),
        (some family.config.loopHazardBarrier, [.xNormed2, .residual, family.firstStage.name,
          family.secondStage.name, family.thirdStage.name, family.config.feedForwardOutput]),
        (some .xnorm2Barrier, [.xNormed2, .residual, family.config.feedForwardOutput])] := by
  cases family <;> rfl

/-! ### Where the parts of a plan end -/

/-- The end of the attention part: of the values, or of the residual. -/
def BlockShape.attentionEnd (s : BlockShape) : ℕ :=
  max (3 * s.hiddenBytes + 2 * s.kvBytes) (4 * s.hiddenBytes)

/-- The end of the second intermediate tensor when the feed-forward part runs in one piece. -/
def BlockShape.plainEnd (s : BlockShape) : ℕ :=
  4 * s.hiddenBytes + s.stageBytes s.family.firstStage + s.stageBytes s.family.secondStage

/-- The end of the logits, which lie behind the final output. -/
def BlockShape.logitsEnd (s : BlockShape) : ℕ :=
  s.hiddenBytes + s.logitsRows * (s.config.vocabSize * 2)

/-- The end of a dense feed-forward part in chunks. -/
def denseEnd (hidden gate : ℕ) : ℕ :=
  -- all three tensors in front of the normed input
  if 3 * gate < hidden then 4 * hidden
  else if 3 * gate = hidden then 4 * hidden + 1
  -- one tensor in the gap before the residual, and the output behind it
  else if 2 * gate ≤ hidden then 5 * hidden
  else if gate < hidden then 5 * hidden + gate
  else if gate = hidden then 6 * hidden + 1
  -- all three tensors behind the residual
  else 4 * hidden + 3 * gate

/-- The end of a feed-forward part with experts in chunks. The outer two tensors are twice as large
as the one between them. -/
def moeEnd (hidden cache : ℕ) : ℕ :=
  if 5 * cache < hidden then 4 * hidden
  else if 5 * cache = hidden then 4 * hidden + 1
  else if 3 * cache ≤ hidden then 5 * hidden
  else if 2 * cache ≤ hidden then 5 * hidden + 2 * cache
  else if cache < hidden then 4 * hidden + 4 * cache
  else if cache = hidden then 4 * hidden + 4 * cache + 1
  else 4 * hidden + 5 * cache

section Rooms

variable {H g u first second third output barrier inputBarrier : ℕ}

/-- Where a dense feed-forward part in chunks is placed, and that it ends at `denseEnd`. -/
theorem dense_rooms (hH : 0 < H) (hg : 0 < g) (hfirst : Room g [(H, 2 * H), (3 * H, 4 * H)] first)
    (hsecond : Room g [(H, 2 * H), (3 * H, 4 * H), (first, first + g)] second)
    (hthird : Room g [(H, 2 * H), (3 * H, 4 * H), (first, first + g), (second, second + g)] third)
    (houtput : Room H [(H, 2 * H), (3 * H, 4 * H), (first, first + g), (second, second + g),
      (third, third + g)] output)
    (hbarrier : Room 1 [(H, 2 * H), (3 * H, 4 * H), (first, first + g), (second, second + g),
      (third, third + g), (output, output + H)] barrier)
    (hinput : Room 1 [(H, 2 * H), (3 * H, 4 * H), (output, output + H)] inputBarrier) :
    (first + g ≤ denseEnd H g ∧ second + g ≤ denseEnd H g ∧ third + g ≤ denseEnd H g ∧
        output + H ≤ denseEnd H g ∧ barrier + 1 ≤ denseEnd H g ∧
        inputBarrier + 1 ≤ denseEnd H g) ∧
      (denseEnd H g = 4 * H ∨ denseEnd H g = third + g ∨ denseEnd H g = output + H ∨
        denseEnd H g = barrier + 1) := by
  have hregimes : 3 * g ≤ H ∨ H < 3 * g ∧ 2 * g ≤ H ∨ H < 2 * g ∧ g ≤ H ∨ H < g := by omega
  unfold denseEnd
  -- where a tensor is placed: nothing that is live is there, and there is no room before it
  have pfirst := hfirst.eq
  have psecond := hsecond.eq
  have pthird := hthird.eq
  have poutput := houtput.eq
  have pbarrier := hbarrier.le
  have pinput := hinput.le
  simp only [Misses, and_true] at pfirst psecond pthird poutput pbarrier pinput
  rcases hregimes with hsmall | ⟨hlow, hhigh⟩ | ⟨hlow, hhigh⟩ | hlarge
  · -- all three tensors in front of the normed input
    obtain rfl := pfirst 0 (by omega) fun _ _ => Nat.zero_le _
    have osecond := psecond g (by omega) (by omega)
    obtain rfl := pthird (2 * g) (by omega) (by omega)
    obtain rfl := poutput (2 * H) (by omega) (by omega)
    have linput := pinput 0 (by omega)
    have hin := hbarrier.misses
    simp only [Misses, and_true] at hin
    rcases hsmall.lt_or_eq with hlt | heq
    · have lbarrier := pbarrier (3 * g) (by omega)
      split_ifs <;> omega
    · have lbarrier := pbarrier (4 * H) (by omega)
      split_ifs <;> omega
  · -- the third tensor goes into the gap before the residual
    obtain rfl := pfirst 0 (by omega) fun _ _ => Nat.zero_le _
    have osecond := psecond g (by omega) (by omega)
    subst second
    obtain rfl := pthird (2 * H) (by omega) (by omega)
    obtain rfl := poutput (4 * H) (by omega) (by omega)
    have linput := pinput 0 (by omega)
    have lbarrier := pbarrier (2 * H + g) (by omega)
    split_ifs <;> omega
  · -- the second tensor goes into the gap
    obtain rfl := pfirst 0 (by omega) fun _ _ => Nat.zero_le _
    obtain rfl := psecond (2 * H) (by omega) (by omega)
    obtain rfl := pthird (4 * H) (by omega) (by omega)
    obtain rfl := poutput (4 * H + g) (by omega) (by omega)
    have linput := pinput 0 (by omega)
    have hin := hbarrier.misses
    simp only [Misses, and_true] at hin
    rcases hhigh.lt_or_eq with hlt | heq
    · have lbarrier := pbarrier g (by omega)
      split_ifs <;> omega
    · have lbarrier := pbarrier (6 * H) (by omega)
      split_ifs <;> omega
  · -- all three tensors behind the residual, and the output in front
    obtain rfl := pfirst (4 * H) (by omega) (by omega)
    obtain rfl := psecond (4 * H + g) (by omega) (by omega)
    obtain rfl := pthird (4 * H + 2 * g) (by omega) (by omega)
    obtain rfl := poutput 0 (by omega) fun _ _ => Nat.zero_le _
    have linput := pinput (2 * H) (by omega)
    have lbarrier := pbarrier (2 * H) (by omega)
    split_ifs <;> omega

/-- Where a feed-forward part with experts in chunks is placed, and that it ends at `moeEnd`. -/
theorem moe_rooms (hH : 0 < H) (hu : 0 < u)
    (hfirst : Room (2 * u) [(H, 2 * H), (3 * H, 4 * H)] first)
    (hsecond : Room u [(H, 2 * H), (3 * H, 4 * H), (first, first + 2 * u)] second)
    (hthird : Room (2 * u) [(H, 2 * H), (3 * H, 4 * H), (first, first + 2 * u),
      (second, second + u)] third)
    (houtput : Room H [(H, 2 * H), (3 * H, 4 * H), (first, first + 2 * u), (second, second + u),
      (third, third + 2 * u)] output)
    (hbarrier : Room 1 [(H, 2 * H), (3 * H, 4 * H), (first, first + 2 * u), (second, second + u),
      (third, third + 2 * u), (output, output + H)] barrier)
    (hinput : Room 1 [(H, 2 * H), (3 * H, 4 * H), (output, output + H)] inputBarrier) :
    (first + 2 * u ≤ moeEnd H u ∧ second + u ≤ moeEnd H u ∧ third + 2 * u ≤ moeEnd H u ∧
        output + H ≤ moeEnd H u ∧ barrier + 1 ≤ moeEnd H u ∧ inputBarrier + 1 ≤ moeEnd H u) ∧
      (moeEnd H u = 4 * H ∨ moeEnd H u = third + 2 * u ∨ moeEnd H u = output + H ∨
        moeEnd H u = barrier + 1) := by
  have hregimes : 5 * u ≤ H ∨ H < 5 * u ∧ 3 * u ≤ H ∨ H < 3 * u ∧ 2 * u ≤ H ∨
    H < 2 * u ∧ u ≤ H ∨ H < u := by omega
  unfold moeEnd
  -- where a tensor is placed: nothing that is live is there, and there is no room before it
  have pfirst := hfirst.eq
  have psecond := hsecond.eq
  have pthird := hthird.eq
  have poutput := houtput.eq
  have pbarrier := hbarrier.le
  have pinput := hinput.le
  simp only [Misses, and_true] at pfirst psecond pthird poutput pbarrier pinput
  rcases hregimes with hsmall | ⟨hlow, hhigh⟩ | ⟨hlow, hhigh⟩ | ⟨hlow, hhigh⟩ | hlarge
  · -- all three tensors in front of the normed input
    obtain rfl := pfirst 0 (by omega) fun _ _ => Nat.zero_le _
    obtain rfl := psecond (2 * u) (by omega) (by omega)
    obtain rfl := pthird (3 * u) (by omega) (by omega)
    obtain rfl := poutput (2 * H) (by omega) (by omega)
    have linput := pinput 0 (by omega)
    have hin := hbarrier.misses
    simp only [Misses, and_true] at hin
    rcases hsmall.lt_or_eq with hlt | heq
    · have lbarrier := pbarrier (5 * u) (by omega)
      split_ifs <;> omega
    · have lbarrier := pbarrier (4 * H) (by omega)
      split_ifs <;> omega
  · -- the third tensor goes into the gap before the residual
    obtain rfl := pfirst 0 (by omega) fun _ _ => Nat.zero_le _
    obtain rfl := psecond (2 * u) (by omega) (by omega)
    obtain rfl := pthird (2 * H) (by omega) (by omega)
    obtain rfl := poutput (4 * H) (by omega) (by omega)
    have linput := pinput 0 (by omega)
    have lbarrier := pbarrier (2 * H + 2 * u) (by omega)
    split_ifs <;> omega
  · -- the second tensor goes into the gap
    obtain rfl := pfirst 0 (by omega) fun _ _ => Nat.zero_le _
    obtain rfl := psecond (2 * H) (by omega) (by omega)
    obtain rfl := pthird (4 * H) (by omega) (by omega)
    obtain rfl := poutput (4 * H + 2 * u) (by omega) (by omega)
    have linput := pinput 0 (by omega)
    have lbarrier := pbarrier (2 * H + u) (by omega)
    split_ifs <;> omega
  · -- only the second tensor still fits in front of the normed input
    obtain rfl := pfirst (4 * H) (by omega) (by omega)
    obtain rfl := psecond 0 (by omega) fun _ _ => Nat.zero_le _
    obtain rfl := pthird (4 * H + 2 * u) (by omega) (by omega)
    obtain rfl := poutput (2 * H) (by omega) (by omega)
    have linput := pinput 0 (by omega)
    have hin := hbarrier.misses
    simp only [Misses, and_true] at hin
    rcases hhigh.lt_or_eq with hlt | heq
    · have lbarrier := pbarrier u (by omega)
      split_ifs <;> omega
    · have lbarrier := pbarrier (4 * H + 4 * u) (by omega)
      split_ifs <;> omega
  · -- all three tensors behind the residual, and the output in front
    obtain rfl := pfirst (4 * H) (by omega) (by omega)
    obtain rfl := psecond (4 * H + 2 * u) (by omega) (by omega)
    obtain rfl := pthird (4 * H + 3 * u) (by omega) (by omega)
    obtain rfl := poutput 0 (by omega) fun _ _ => Nat.zero_le _
    have linput := pinput (2 * H) (by omega)
    have lbarrier := pbarrier (2 * H) (by omega)
    split_ifs <;> omega

end Rooms

theorem denseEnd_mono {hidden gate gate' : ℕ} (h : gate ≤ gate') :
    denseEnd hidden gate ≤ denseEnd hidden gate' := by
  unfold denseEnd
  split_ifs <;> omega

theorem moeEnd_mono {hidden cache cache' : ℕ} (h : cache ≤ cache') :
    moeEnd hidden cache ≤ moeEnd hidden cache' := by
  unfold moeEnd
  split_ifs <;> omega

/-- The end of the feed-forward part in chunks. -/
def BlockShape.chunkedEnd (s : BlockShape) : ℕ :=
  match s.family with
  | .lladaMoe => moeEnd s.hiddenBytes (s.stageBytes s.family.secondStage)
  | _ => denseEnd s.hiddenBytes (s.stageBytes s.family.secondStage)

namespace IsBlock

variable {s : BlockShape} {g : CustomGraph TensorName} {plan : ReusePlan TensorName}

/-- Where the planner may put the tensors of the feed-forward part in chunks. -/
theorem room_chunked (hg : IsBlock s g) (h : generateOptimizedReusePlan g = .ok plan)
    (hchunked : s.chunked = true) {i : ℕ} {name : TensorName} {live : List TensorName}
    (hi : ((List.range' 9 6).map fun j => (((blockOrder s.family true).map Prod.fst)[j]?,
      liveNames (blockOrder s.family true) j))[i]? = some (some name, live)) :
    Room (s.bytes name) (live.map fun other => (planOffset plan other, planStop g plan other))
      (planOffset plan name) := by
  have hfinal : ∀ family,
      ((blockOrder family true).map Prod.fst).idxOf TensorName.finalOutput = 15 := by
    rintro (_ | _ | _) <;> decide
  rw [getElem?_map] at hi
  obtain ⟨j, hj, heq⟩ := Option.map_eq_some_iff.mp hi
  obtain ⟨hname, hlive⟩ := Prod.mk.inj heq
  obtain ⟨hlt, hget⟩ := List.getElem?_eq_some_iff.mp hj
  rw [getElem_range'] at hget
  rw [length_range'] at hlt
  rw [← hchunked] at hname hlive
  exact room_of_isLeast
    (hg.isLeast_before h j (by rw [hchunked, hfinal]; omega) name live hname hlive)

/-- The tensors behind the attention part of a block in chunks, up to the final output. -/
def chunkedNames (family : Family) : List TensorName :=
  [family.firstStage.name, family.secondStage.name, family.thirdStage.name,
    family.config.feedForwardOutput, family.config.loopHazardBarrier, .xnorm2Barrier]

section

variable (hg : IsBlock s g) (h : generateOptimizedReusePlan g = .ok plan)
include hg h

/-- The feed-forward part in chunks ends at `chunkedEnd`. -/
theorem chunked_stops (hchunked : s.chunked = true) :
    (∀ name ∈ chunkedNames s.family, planOffset plan name + s.bytes name ≤ s.chunkedEnd) ∧
      (s.chunkedEnd = 4 * s.hiddenBytes ∨
        ∃ name ∈ chunkedNames s.family, s.chunkedEnd = planOffset plan name + s.bytes name) := by
  have hH := s.hiddenBytes_pos
  have hhidden := s.bytes_hidden
  have hstages := s.bytes_stages
  have hbarriers := s.bytes_barriers hchunked
  have horder := chunked_order s.family
  have hoffsets := hg.attentionOffsets h
  have hpos : 0 < s.stageBytes s.family.secondStage := by
    have := s.rows_pos
    cases s.family <;> exact Nat.mul_pos this (by decide)
  simp only [mem_cons, not_mem_nil, or_false, forall_eq_or_imp, forall_eq,
    BlockShape.config] at hhidden hstages hbarriers
  obtain ⟨-, -, -, -, -, sxNormed2, sresidual, soutput, -⟩ := hhidden
  obtain ⟨sfirst, ssecond, sthird⟩ := hstages
  obtain ⟨sbarrier, sinput⟩ := hbarriers
  have hxNormed2 : planStop g plan .xNormed2 = 2 * s.hiddenBytes := by
    rw [hg.planStop_eq, sxNormed2, hoffsets.xNormed2]
    omega
  have hresidual : planStop g plan .residual = 4 * s.hiddenBytes := by
    rw [hg.planStop_eq, sresidual, hoffsets.residual]
    omega
  have hfirst := hg.room_chunked h hchunked (congrArg (·[0]?) horder)
  have hsecond := hg.room_chunked h hchunked (congrArg (·[1]?) horder)
  have hthird := hg.room_chunked h hchunked (congrArg (·[2]?) horder)
  have houtput := hg.room_chunked h hchunked (congrArg (·[3]?) horder)
  have hbarrier := hg.room_chunked h hchunked (congrArg (·[4]?) horder)
  have hinput := hg.room_chunked h hchunked (congrArg (·[5]?) horder)
  simp only [map_cons, map_nil, hxNormed2, hresidual, hoffsets.xNormed2,
    hoffsets.residual] at hfirst hsecond hthird houtput hbarrier hinput
  simp only [hg.planStop_eq plan, sfirst, ssecond, sthird, soutput, sbarrier, sinput]
    at hfirst hsecond hthird houtput hbarrier hinput
  simp only [chunkedNames, mem_cons, not_mem_nil, or_false, forall_eq_or_imp, forall_eq,
    exists_eq_or_imp, exists_eq_left, sfirst, ssecond, sthird, soutput, sbarrier, sinput]
  -- the outer tensors are as large as the one between them, or twice as large
  have hsizes : s.stageBytes s.family.firstStage = s.stageBytes s.family.secondStage ∧
        s.stageBytes s.family.thirdStage = s.stageBytes s.family.secondStage ∧
        s.chunkedEnd = denseEnd s.hiddenBytes (s.stageBytes s.family.secondStage) ∨
      s.stageBytes s.family.firstStage = 2 * s.stageBytes s.family.secondStage ∧
        s.stageBytes s.family.thirdStage = 2 * s.stageBytes s.family.secondStage ∧
        s.chunkedEnd = moeEnd s.hiddenBytes (s.stageBytes s.family.secondStage) := by
    unfold BlockShape.chunkedEnd
    cases s.family with
    | llada => exact .inl ⟨rfl, rfl, rfl⟩
    | dream => exact .inl ⟨rfl, rfl, rfl⟩
    | lladaMoe =>
      have htwice : s.rows * (8 * 2048 * 2) = 2 * (s.rows * (8 * 1024 * 2)) := by omega
      exact .inr ⟨htwice, htwice, rfl⟩
  rcases hsizes with ⟨hone, hthree, hend⟩ | ⟨hone, hthree, hend⟩
  · rw [hone] at hfirst hsecond hthird houtput hbarrier
    rw [hthree] at hthird houtput hbarrier
    rw [hone, hthree, hend]
    obtain ⟨hle, hattained⟩ :=
      dense_rooms hH hpos hfirst hsecond hthird houtput hbarrier hinput
    refine ⟨hle, ?_⟩
    omega
  · rw [hone] at hfirst hsecond hthird houtput hbarrier
    rw [hthree] at hthird houtput hbarrier
    rw [hone, hthree, hend]
    obtain ⟨hle, hattained⟩ :=
      moe_rooms hH hpos hfirst hsecond hthird houtput hbarrier hinput
    refine ⟨hle, ?_⟩
    omega

/-! ### The size of a plan -/

theorem stop_le {name : TensorName} (hname : name ∈ (blockOrder s.family s.chunked).map Prod.fst) :
    planOffset plan name + s.bytes name ≤ plan.totalBufferSizeBytes := by
  obtain ⟨_, node, hj, rfl, -⟩ := hg.exists_node hname
  rw [← hg.tensorSize_eq, CustomGraph.tensorSize_eq hj]
  exact stop_le_total h hj (hg.nonempty node (mem_of_getElem? hj))

theorem offset_logits_eq : planOffset plan .logits = s.hiddenBytes := by
  refine le_antisymm ((hg.isLeast_logits h).2 ?_) (hg.offset_logits h)
  rw [FirstFit.mem_feasible_cons, hg.planStop_eq, hg.offset_finalOutput h,
    s.bytes_hidden .finalOutput (by simp)]
  exact ⟨.inr (by omega), FirstFit.mem_feasible_nil _ _⟩

theorem logitsEnd_le_total : s.logitsEnd ≤ plan.totalBufferSizeBytes := by
  have hstop := hg.stop_le h (logits_mem _ _)
  rwa [hg.offset_logits_eq h, s.bytes_logits] at hstop

theorem attentionEnd_le_total : s.attentionEnd ≤ plan.totalBufferSizeBytes := by
  have hmem : ∀ family chunked, TensorName.v ∈ (blockOrder family chunked).map Prod.fst ∧
      TensorName.residual ∈ (blockOrder family chunked).map Prod.fst := by
    rintro (_ | _ | _) (_ | _) <;> decide
  have hoffs := hg.attentionOffsets h
  have hv := hg.stop_le h (hmem _ _).1
  have hres := hg.stop_le h (hmem _ _).2
  rw [hoffs.v, s.bytes_kv .v (by simp)] at hv
  rw [hoffs.residual, s.bytes_hidden .residual (by simp)] at hres
  unfold BlockShape.attentionEnd
  omega

theorem chunkedEnd_le_total (hchunked : s.chunked = true) :
    s.chunkedEnd ≤ plan.totalBufferSizeBytes := by
  have hmem : ∀ family, ∀ name ∈ chunkedNames family,
      name ∈ (blockOrder family true).map Prod.fst := by
    rintro (_ | _ | _) <;> decide
  rcases (hg.chunked_stops h hchunked).2 with hend | ⟨name, hname, hend⟩
  · have hattn := hg.attentionEnd_le_total h
    unfold BlockShape.attentionEnd at hattn
    omega
  · rw [hend]
    exact hg.stop_le h (hchunked ▸ hmem _ name hname)

/-- In one piece, the first two intermediate tensors lie behind the residual. -/
theorem plainEnd_le_total (hchunked : s.chunked = false) :
    s.plainEnd ≤ plan.totalBufferSizeBytes := by
  have horder : ∀ family,
      ((blockOrder family false).map Prod.fst)[9]? = some family.firstStage.name ∧
      liveNames (blockOrder family false) 9 = [.xNormed2, .residual] ∧
      ((blockOrder family false).map Prod.fst)[10]? = some family.secondStage.name ∧
      TensorName.residual ∈ liveNames (blockOrder family false) 10 ∧
      family.firstStage.name ∈ liveNames (blockOrder family false) 10 ∧
      (family = .lladaMoe ∨ TensorName.xNormed2 ∈ liveNames (blockOrder family false) 10) := by
    rintro (_ | _ | _) <;> decide
  obtain ⟨hfirst, hfirstLive, hsecond, hresidualLive, hsecondLive, hxNormed2Live⟩ :=
    horder s.family
  rw [← hchunked] at hfirst hfirstLive hsecond hresidualLive hsecondLive hxNormed2Live
  have hfirstLeast := hg.isLeast h 9 (by decide) _ _ hfirst hfirstLive
  have hsecondMem := (hg.isLeast h 10 (by decide) _ _ hsecond rfl).1
  have hresidualClear := hsecondMem _ hresidualLive
  have hfirstClear := hsecondMem _ hsecondLive
  have hstop := hg.stop_le h (mem_of_getElem? hsecond)
  have hoffs := hg.attentionOffsets h
  have hhidden := s.bytes_hidden
  have hstages := s.bytes_stages
  simp only [mem_cons, not_mem_nil, or_false, forall_eq_or_imp, forall_eq]
    at hhidden hstages
  obtain ⟨sfirst, ssecond, -⟩ := hstages
  obtain ⟨-, -, -, -, -, sxNormed2, sresidual, -, -⟩ := hhidden
  have hpos := s.tokens_pos
  have hlarge : s.hiddenBytes < s.stageBytes s.family.firstStage ∧
      s.hiddenBytes < s.stageBytes s.family.secondStage := by
    rw [s.hiddenBytes_eq, BlockShape.stageBytes, BlockShape.stageBytes, s.rows_eq hchunked,
      BlockShape.config]
    cases s.family <;> exact ⟨Nat.mul_lt_mul_of_pos_left (by decide) hpos,
      Nat.mul_lt_mul_of_pos_left (by decide) hpos⟩
  -- the first goes behind the residual
  have hfirstOffset : planOffset plan s.family.firstStage.name = 4 * s.hiddenBytes := by
    have pfirst := (room_of_isLeast hfirstLeast).eq
    simp only [map_cons, map_nil, Misses, and_true, hg.planStop_eq, hoffs.xNormed2,
      hoffs.residual, sfirst, sxNormed2, sresidual] at pfirst
    exact pfirst _ (by omega) (by omega)
  rw [FirstFit.Clear, hg.planStop_eq, hoffs.residual, ssecond, sresidual] at hresidualClear
  rw [FirstFit.Clear, hg.planStop_eq, hfirstOffset, ssecond, sfirst] at hfirstClear
  rw [ssecond] at hstop
  -- the second is too large for the room before the residual, or finds the input there
  have hbehind : 4 * s.hiddenBytes ≤ planOffset plan s.family.secondStage.name := by
    rcases hxNormed2Live with hmoe | hlive
    · have hthree : 3 * s.hiddenBytes < s.stageBytes s.family.secondStage := by
        rw [s.hiddenBytes_eq, BlockShape.stageBytes, s.rows_eq hchunked, BlockShape.config, hmoe]
        change 3 * (s.N * (2048 * 2)) < s.N * (8 * 1024 * 2)
        omega
      omega
    · have hclear := hsecondMem _ hlive
      rw [FirstFit.Clear, hg.planStop_eq, hoffs.xNormed2, ssecond, sxNormed2] at hclear
      omega
  unfold BlockShape.plainEnd
  omega

/-- A plan in chunks takes no more than its parts. -/
theorem total_le (hchunked : s.chunked = true) :
    plan.totalBufferSizeBytes ≤ max (max s.attentionEnd s.chunkedEnd) s.logitsEnd := by
  have hnames : ∀ family, ∀ name ∈ (blockOrder family true).map Prod.fst,
      name ∈ [.x, .xNormed, .q, .k, .v, family.config.attention, .attOut, .xNormed2, .residual,
        .finalOutput] ∨ name ∈ chunkedNames family ∨ name = .logits := by
    rintro (_ | _ | _) <;> decide
  -- The part without chunks lies below the end of the attention.
  have hattn : ∀ name ∈ [.x, .xNormed, .q, .k, .v, s.config.attention, .attOut, .xNormed2,
      .residual, .finalOutput], planOffset plan name + s.bytes name ≤ s.attentionEnd := by
    have hhidden := s.bytes_hidden
    have hkv := s.bytes_kv
    obtain ⟨ox, oxNormed, oq, ok, ov, oattention, oattOut, oxNormed2, oresidual⟩ :=
      hg.attentionOffsets h
    have ofinal := hg.offset_finalOutput h
    simp only [mem_cons, not_mem_nil, or_false, forall_eq_or_imp, forall_eq]
      at hhidden hkv ⊢
    obtain ⟨sx, sxNormed, sq, sattention, sattOut, sxNormed2, sresidual, -, sfinal⟩ := hhidden
    obtain ⟨sk, sv⟩ := hkv
    have hvalues : 3 * s.hiddenBytes + 2 * s.kvBytes ≤ s.attentionEnd := le_max_left _ _
    have hres : 4 * s.hiddenBytes ≤ s.attentionEnd := le_max_right _ _
    rw [ox, oxNormed, oq, ok, ov, oattention, oattOut, oxNormed2, oresidual, ofinal, sx, sxNormed,
      sq, sk, sv, sattention, sattOut, sxNormed2, sresidual, sfinal]
    refine ⟨?_, ?_, ?_, ?_, ?_, ?_, ?_, ?_, ?_, ?_⟩ <;> omega
  -- The size of the buffer is where some tensor ends.
  rcases total_eq_zero_or_stop h with hzero | ⟨j, node, hj, -, hstop⟩
  · omega
  · rw [hstop, ← CustomGraph.tensorSize_eq hj, hg.tensorSize_eq]
    have hname : node.outputName ∈ (blockOrder s.family true).map Prod.fst := by
      rw [← hchunked, ← hg.names_eq]
      exact mem_map_of_mem (mem_of_getElem? hj)
    rcases hnames _ _ hname with hfixed | hmlp | hlog
    · exact (hattn _ hfixed).trans ((le_max_left _ _).trans (le_max_left _ _))
    · exact ((hg.chunked_stops h hchunked).1 _ hmlp).trans
        ((le_max_right _ _).trans (le_max_left _ _))
    · rw [hlog, hg.offset_logits_eq h, s.bytes_logits]
      exact le_max_right _ _

/-! ### Other numbers of rows of the logits -/

end

section LogitsRows

variable {logitsRows : ℕ} (hpos : 0 < logitsRows) {g' : CustomGraph TensorName}
  {plan' : ReusePlan TensorName}

theorem bytes_logitsRows {name : TensorName}
    (hname : name ∈ (blockOrder s.family s.chunked).map Prod.fst) (hne : name ≠ .logits) :
    ({ s with logitsRows := logitsRows, logitsRows_pos := hpos } : BlockShape).bytes name =
      s.bytes name := by
  obtain ⟨call, hcall, rfl⟩ : ∃ call ∈ s.calls, call.outputName = name := by
    rw [← s.order_eq, BlockShape.order, List.map_map] at hname
    obtain ⟨call, hcall, rfl⟩ := mem_map.mp hname
    rcases mem_append.mp hcall with hcall | hlast
    · exact ⟨call, hcall, rfl⟩
    · rw [mem_singleton.mp hlast] at hne
      exact absurd rfl hne
  rw [s.bytes_of_mem (mem_append_left _ hcall)]
  exact BlockShape.bytes_of_mem _ (mem_append_left _ hcall)

section

variable (hg : IsBlock s g) (h : generateOptimizedReusePlan g = .ok plan)
  (hg' : IsBlock { s with logitsRows := logitsRows, logitsRows_pos := hpos } g')
  (h' : generateOptimizedReusePlan g' = .ok plan')
include hg h hg' h'

/-- The number of rows of the logits does not matter for what is placed before them. -/
theorem planOffset_logitsRows {j : ℕ}
    (hj : j < ((blockOrder s.family s.chunked).map Prod.fst).idxOf .finalOutput) {name : TensorName}
    (hname : ((blockOrder s.family s.chunked).map Prod.fst)[j]? = some name) :
    planOffset plan' name = planOffset plan name := by
  have hlast : ∀ family chunked, ∀ name ∈ ((blockOrder family chunked).map Prod.fst).take
      (((blockOrder family chunked).map Prod.fst).idxOf TensorName.finalOutput),
      name ≠ .logits := by
    rintro (_ | _ | _) (_ | _) <;> decide
  have hsize : ∀ (i : ℕ) (name : TensorName), i ≤ j →
      ((blockOrder s.family s.chunked).map Prod.fst)[i]? = some name →
      ({ s with logitsRows := logitsRows, logitsRows_pos := hpos } : BlockShape).bytes name =
        s.bytes name := by
    intro i name hi hget
    exact bytes_logitsRows hpos (mem_of_getElem? hget)
      (hlast _ _ name (mem_take_iff.mpr ⟨i, by omega, hget⟩))
  induction j using Nat.strong_induction_on generalizing name with
  | h j ih =>
    have hleast := hg.isLeast_before h j hj name _ hname rfl
    have hleast' := hg'.isLeast_before h' j hj name _ hname rfl
    rw [hsize j name le_rfl hname] at hleast'
    -- the tensors that are live were placed before, at the same offsets
    have hfeasible : FirstFit.Feasible (planOffset plan') (planStop g' plan') (s.bytes name)
        (liveNames (blockOrder s.family s.chunked) j) =
      FirstFit.Feasible (planOffset plan) (planStop g plan) (s.bytes name)
        (liveNames (blockOrder s.family s.chunked) j) := by
      ext o
      refine forall₂_congr fun earlier hearlier => ?_
      have htake := (mem_filter.mp hearlier).1
      rw [List.map_take] at htake
      obtain ⟨i, hi, hget⟩ := mem_take_iff.mp htake
      have hoff := ih i hi (hi.trans hj) hget fun k name hk => hsize k name (by omega)
      rw [FirstFit.Clear, FirstFit.Clear, hg.planStop_eq, hg'.planStop_eq, hoff,
        hsize i earlier hi.le hget]
    exact (hfeasible ▸ hleast').unique hleast

/-- With another number of rows of the logits, a plan grows at most as far as the logits do. -/
theorem total_le_logitsRows : plan'.totalBufferSizeBytes ≤ max plan.totalBufferSizeBytes
      (s.hiddenBytes + logitsRows * (s.config.vocabSize * 2)) := by
  have hnames : ∀ family chunked, ∀ name ∈ (blockOrder family chunked).map Prod.fst,
      name ∈ ((blockOrder family chunked).map Prod.fst).take
        (((blockOrder family chunked).map Prod.fst).idxOf TensorName.finalOutput) ∨
      name = .finalOutput ∨ name = .logits := by
    rintro (_ | _ | _) (_ | _) <;> decide
  rcases total_eq_zero_or_stop h' with hzero | ⟨j, node, hj, -, hstop⟩
  · omega
  · rw [hstop, ← CustomGraph.tensorSize_eq hj, hg'.tensorSize_eq]
    have hname : node.outputName ∈ (blockOrder s.family s.chunked).map Prod.fst := by
      have hmem := mem_map_of_mem (f := OpNode.outputName) (mem_of_getElem? hj)
      exact hg'.names_eq ▸ hmem
    by_cases hlog : node.outputName = .logits
    · rw [hlog, hg'.offset_logits_eq h', BlockShape.bytes_logits]
      exact le_max_right _ _
    · refine le_trans ?_ (le_max_left _ _)
      rw [bytes_logitsRows hpos hname hlog]
      have hoff : planOffset plan' node.outputName = planOffset plan node.outputName := by
        rcases hnames _ _ _ hname with hbefore | hfinal | hlast
        · obtain ⟨_, hi, hget⟩ := mem_take_iff.mp hbefore
          exact planOffset_logitsRows hpos hg h hg' h' hi hget
        · rw [hfinal, hg.offset_finalOutput h, hg'.offset_finalOutput h']
        · exact absurd hlast hlog
      rw [hoff]
      exact hg.stop_le h hname

end

end LogitsRows

end IsBlock

end Block
