import Mosaic.Search.Termination

/-!
# Does the search give up too early?

The search gives up when the live memory is highest in the fixed part. Whether a configuration
fits is decided by its plan, and there the logits lie behind the final output, which the live memory
counts neither at the logits nor at the peak of the fixed part. Where the attention part reserves
so much that the output and the logits stay below its end, nothing is lost by giving up. For Dream,
whose keys and values are small, it is not so: the logits may set the size of the plan although the
fixed part has the higher peak, and more chunks of the logits would help.
-/

namespace Search

open Graph Block Cutting

section Raises

variable {F : Type} [LinearOrder F] [Zero F] {mb : ℕ → F} {family : Family} {P O : ℕ}
  {budget : ℤ} {counts : ℕ × ℕ} {n : ℕ}

/-- The search raises the error that the fixed part is the bottleneck. -/
def Raises (mb : ℕ → F) (P O : ℕ) (poolSize : ℤ) (modelName : String) : Prop :=
  ∃ rounds totalBytes components, searchOptimalConfigOnline mb P O poolSize modelName rounds =
    some (.error (.fixedBottleneck P O totalBytes (poolSize - safetyMarginBytes) components))

/-- No setting of the chunk flags and of the numbers of chunks has a plan that fits. -/
def NothingFits (P O : ℕ) (poolSize : ℤ) (modelName : String) : Prop :=
  ∀ strategy plan, Chunked strategy →
    analyzedPlan ((modelFamily modelName).graph (some strategy) P O) = .ok plan →
    accepts (modelFamily modelName) (poolSize - safetyMarginBytes) plan.totalBufferSizeBytes = false

/-- An exception of the loop ends the path, and nothing on it has been accepted. -/
theorem searchLoop_error (mono : Monotone mb) (zero : mb 0 = 0) (hP : 1 ≤ P) (hO : 1 ≤ O)
    {rounds : ℕ} {error : SearchError F} (hpath : (mbCosts mb family P O).path n = some counts)
    (h : searchLoop mb family P O budget rounds (countConfig counts) = some (.error error)) :
    ∃ m, (mbCosts mb family P O).path (m + 1) = none ∧
      ∀ k counts, n ≤ k → k ≤ m → (mbCosts mb family P O).path k = some counts →
        accepts family budget (planBytes family P O counts) = false := by
  -- by induction on the rounds, each of which is a cut
  induction rounds generalizing n counts with
  | zero => cases h
  | succ rounds ih =>
    obtain ⟨ha, hb, -⟩ := Costs.path_counts hpath
    obtain ⟨_, hround⟩ := exists_round budget mono zero hP hO ⟨ha, hb⟩
    rw [searchLoop, hround] at h
    have hhere : ∀ counts', (mbCosts mb family P O).path n = some counts' → counts' = counts := by
      intro counts' hcounts'
      rw [hpath] at hcounts'
      exact (Option.some.inj hcounts').symm
    cases haccepts : accepts family budget (planBytes family P O counts) with
    | true =>
      rw [haccepts, if_pos rfl] at h
      cases h
    | false =>
      rw [haccepts, if_neg Bool.false_ne_true] at h
      cases hcut : (mbCosts mb family P O).cut counts with
      | none =>
        refine ⟨n, by rw [Costs.path_succ, hpath, Option.bind_some, hcut], ?_⟩
        intro k counts' hnk hkn hk
        obtain rfl := le_antisymm hkn hnk
        rw [hhere counts' hk, haccepts]
      | some next =>
        rw [hcut] at h
        obtain ⟨m, hnone, hrejects⟩ :=
          ih (n := n + 1) (by rw [Costs.path_succ, hpath, Option.bind_some, hcut]) h
        refine ⟨m, hnone, fun k counts' hnk hkm hk => ?_⟩
        rcases hnk.lt_or_eq with hlater | rfl
        · exact hrejects k counts' hlater hkm hk
        · rw [hhere counts' hk, haccepts]

/-- The search gives up where the cutting ends and nothing has fitted on the way. -/
theorem raises_iff_path (mono : Monotone mb) (zero : mb 0 = 0) (modelName : String) (hP : 1 ≤ P)
    (hO : 1 ≤ O) (poolSize : ℤ) :
    Raises mb P O poolSize modelName ↔
      (∃ n, (mbCosts mb (modelFamily modelName) P O).path n = none) ∧
      ∀ n counts, (mbCosts mb (modelFamily modelName) P O).path n = some counts →
        accepts (modelFamily modelName) (poolSize - safetyMarginBytes)
          (planBytes (modelFamily modelName) P O counts) = false := by
  unfold Raises searchOptimalConfigOnline
  generalize modelFamily modelName = family
  generalize poolSize - safetyMarginBytes = budget
  constructor
  · rintro ⟨rounds, totalBytes, components, h⟩
    obtain ⟨m, hnone, hrejects⟩ := searchLoop_error mono zero hP hO
      (show (mbCosts mb family P O).path 0 = some (1, 1) from rfl) h
    refine ⟨⟨m + 1, hnone⟩, fun k counts hk => hrejects k counts (Nat.zero_le k) ?_ hk⟩
    by_contra hbeyond
    rw [Costs.path_eq_none_of_le (by omega) hnone] at hk
    cases hk
  · rintro ⟨⟨n, hnone⟩, hrejects⟩
    obtain ⟨m, counts, hm, hcut⟩ := Costs.exists_last hnone
    obtain ⟨ha, hb, -⟩ := Costs.path_counts hm
    obtain ⟨components, hround⟩ := exists_round budget mono zero hP hO ⟨ha, hb⟩
    refine ⟨m + 1, planBytes family P O counts, components, ?_⟩
    rw [searchLoop_path budget mono zero hP hO hm (fun k counts _ => hrejects k counts) 1,
      searchLoop, hround, hrejects m counts hm, if_neg Bool.false_ne_true, hcut]

end Raises

/-! ### The sizes of plans for long inputs -/

section Long

variable {family : Family} {P O : ℕ}

/-- The logits of one row end before the attention part, and so does the feed-forward part with
one row for each chunk. -/
theorem row_le_attentionOf (hlong : leastTokens family ≤ P) :
    chunkedOf family P 1 ≤ attentionOf family P ∧ logitsOf family P 1 ≤ attentionOf family P := by
  cases family with
  | llada =>
    change 9 ≤ P at hlong
    change denseEnd (P * 8192) (1 * 24576) ≤
        max (3 * (P * 8192) + 2 * (P * 8192)) (4 * (P * 8192)) ∧
      P * 8192 + 1 * 252928 ≤ max (3 * (P * 8192) + 2 * (P * 8192)) (4 * (P * 8192))
    unfold denseEnd
    refine ⟨?_, by omega⟩
    split_ifs <;> omega
  | dream =>
    change 111 ≤ P at hlong
    change denseEnd (P * 7168) (1 * 37888) ≤
        max (3 * (P * 7168) + 2 * (P * 1024)) (4 * (P * 7168)) ∧
      P * 7168 + 1 * 304128 ≤ max (3 * (P * 7168) + 2 * (P * 1024)) (4 * (P * 7168))
    unfold denseEnd
    refine ⟨?_, by omega⟩
    split_ifs <;> omega
  | lladaMoe =>
    change 20 ≤ P at hlong
    change moeEnd (P * 4096) (1 * 16384) ≤
        max (3 * (P * 4096) + 2 * (P * 4096)) (4 * (P * 4096)) ∧
      P * 4096 + 1 * 314368 ≤ max (3 * (P * 4096) + 2 * (P * 4096)) (4 * (P * 4096))
    unfold moeEnd
    refine ⟨?_, by omega⟩
    split_ifs <;> omega

/-- A feed-forward part that weighs hardly more than the fixed part runs in chunks, and ends before
the attention part. -/
theorem chunkedOf_le_attentionOf (hP : 1 ≤ P) {chunks : ℕ}
    (hlight : (peakCosts family P O).first chunks ≤
      (peakCosts family P O).fixed + (peakCosts family P O).fixed / 2 ^ 50) :
    2 ≤ chunks ∧ chunkedOf family P (maxChunkSize P chunks) ≤ attentionOf family P := by
  dsimp only [peakCosts] at hlight
  unfold mlpPeak at hlight
  generalize maxChunkSize P chunks = rows at hlight ⊢
  -- The sizes of the three families, each in its own numbers.
  cases family with
  | llada =>
    change (if 2 ≤ chunks then 24576 * P + 73728 * rows else 57344 * P) ≤
      32768 * P + 32768 * P / 2 ^ 50 at hlight
    change 2 ≤ chunks ∧ denseEnd (P * 8192) (rows * 24576) ≤
      max (3 * (P * 8192) + 2 * (P * 8192)) (4 * (P * 8192))
    split at hlight
    · refine ⟨by omega, ?_⟩
      unfold denseEnd
      split_ifs <;> omega
    · omega
  | dream =>
    change (if 2 ≤ chunks then 21504 * P + 113664 * rows else 82944 * P) ≤
      22528 * P + 22528 * P / 2 ^ 50 at hlight
    change 2 ≤ chunks ∧ denseEnd (P * 7168) (rows * 37888) ≤
      max (3 * (P * 7168) + 2 * (P * 1024)) (4 * (P * 7168))
    split at hlight
    · refine ⟨by omega, ?_⟩
      unfold denseEnd
      split_ifs <;> omega
    · omega
  | lladaMoe =>
    change (if 2 ≤ chunks then 12288 * P + 81920 * rows else 36864 * P) ≤
      16384 * P + 16384 * P / 2 ^ 50 at hlight
    change 2 ≤ chunks ∧ moeEnd (P * 4096) (rows * 16384) ≤
      max (3 * (P * 4096) + 2 * (P * 4096)) (4 * (P * 4096))
    split at hlight
    · refine ⟨by omega, ?_⟩
      unfold moeEnd
      split_ifs <;> omega
    · omega

/-- The plan with given numbers of chunks is that of the configuration. -/
theorem exists_analyzedPlan (family : Family) (hP : 1 ≤ P) (hO : 1 ≤ O) {counts : ℕ × ℕ}
    (h : 1 ≤ counts.1 ∧ 1 ≤ counts.2) :
    ∃ plan, analyzedPlan (family.graph (some (countConfig counts)) P O) = .ok plan ∧
      planBytes family P O counts = plan.totalBufferSizeBytes := by
  obtain ⟨g, hgraph, hg⟩ := family.exists_graph (some (countConfig counts)) P O hP hO
    (fun _ hs => Option.some.inj hs ▸ h.1) (fun _ hs => Option.some.inj hs ▸ h.2)
  obtain ⟨analysis, hanalysis⟩ := exists_analysis_block hg
  have hplan : analyzedPlan (family.graph (some (countConfig counts)) P O) =
      .ok analysis.reusePlan := by
    rw [hgraph]
    exact analyzedPlan_eq_ok (show (Except.ok g >>= analyze) = .ok analysis from hanalysis)
  refine ⟨analysis.reusePlan, hplan, ?_⟩
  rw [planBytes, searchGraph_eq, hplan]

end Long

/-! ### Completeness -/

section Complete

variable {F : Type} [LinearOrder F] [Zero F] {mb : ℕ → F} {family : Family} {P O : ℕ}
  {budget : ℤ}

/-- The least number of chunks in which the logits weigh no more than the fixed part. -/
def lastCount (mb : ℕ → F) (family : Family) (P O : ℕ) : ℕ :=
  leastCount O fun chunks =>
    mb ((peakCosts family P O).second chunks) ≤ mb (peakCosts family P O).fixed

/-- The rows of the logits with which the search gives up. -/
def lastRows (mb : ℕ → F) (family : Family) (P O : ℕ) : ℕ :=
  chunkRows O (lastCount mb family P O)

omit [Zero F] in
theorem lastCount_spec (mono : Monotone mb) (hO : 1 ≤ O) (hlong : leastTokens family ≤ P) :
    1 ≤ lastCount mb family P O ∧
      (mbCosts mb family P O).second (lastCount mb family P O) ≤ (mbCosts mb family P O).fixed ∧
      ∀ b, 1 ≤ b → b < lastCount mb family P O →
        (mbCosts mb family P O).fixed < (mbCosts mb family P O).second b := by
  have hlast : decide (mb ((peakCosts family P O).second O) ≤ mb (peakCosts family P O).fixed) =
      true := by
    refine decide_eq_true (mono ?_)
    rw [second_eq_row family P hO O le_rfl]
    exact (row_le_fixed hlong).2
  obtain ⟨hone, -, hcheap, hdear⟩ := leastCount_spec (p := fun chunks =>
    mb ((peakCosts family P O).second chunks) ≤ mb (peakCosts family P O).fixed) hO hlast
  exact ⟨hone, of_decide_eq_true hcheap,
    fun b hb hlt => not_le.mp (of_decide_eq_false (hdear b hb hlt))⟩

omit [Zero F] in
/-- The logits are never cut further than with the last number of chunks. -/
theorem le_lastCount (mono : Monotone mb) (hO : 1 ≤ O) (hlong : leastTokens family ≤ P)
    {n a b : ℕ} (h : (mbCosts mb family P O).path n = some (a, b)) :
    b ≤ lastCount mb family P O := by
  obtain ⟨hone, hcheap, -⟩ := lastCount_spec mono hO hlong
  by_contra hbeyond
  exact hcheap.not_gt ((Costs.path_history h).2 _ hone (by omega))

omit [Zero F] in
theorem exists_path_eq_none (mono : Monotone mb) (hP : 1 ≤ P) (hO : 1 ≤ O)
    (hlong : leastTokens family ≤ P) : ∃ n, (mbCosts mb family P O).path n = none := by
  obtain ⟨hmlp, hlogits⟩ := row_le_fixed hlong
  refine ⟨P + 1 + O, Costs.path_eq_none (by omega) hO (mono ?_) (mono ?_)⟩
  · rw [first_eq_row family O hP _ le_rfl]
    exact hmlp
  · rw [second_eq_row family P hO O le_rfl]
    exact hlogits

/-- A plan takes at least what its attention part takes. -/
theorem accepts_attentionOf (hP : 1 ≤ P) (hO : 1 ≤ O) {strategy : ChunkStrategy}
    {plan : ReusePlan TensorName} (hchunked : Chunked strategy)
    (hplan : analyzedPlan (family.graph (some strategy) P O) = .ok plan)
    (h : accepts family budget plan.totalBufferSizeBytes = true) :
    accepts family budget (attentionOf family P) = true := by
  obtain ⟨g, hgraph, hg⟩ := family.exists_graph (some strategy) P O hP hO
    (fun _ hs => Option.some.inj hs ▸ hchunked.mlp_pos)
    (fun _ hs => Option.some.inj hs ▸ hchunked.logits_pos)
  obtain ⟨analysis, hanalysis⟩ := exists_analysis_block hg
  rw [hgraph, analyzedPlan_eq_ok (show (Except.ok g >>= analyze) = .ok analysis from hanalysis)]
    at hplan
  cases hplan
  have hle := hg.attentionEnd_le_total (generateOptimizedReusePlan_of_analyze hanalysis)
  rw [BlockShape.attentionEnd, BlockShape.hiddenBytes_eq, BlockShape.kvBytes_eq] at hle
  exact accepts_mono hle h

/-- Where the attention part fits but not the logits with which the search gives up, it gives up
although one row for each chunk would fit. -/
theorem gives_up_early (mono : Monotone mb) (zero : mb 0 = 0) (modelName : String) (hP : 1 ≤ P)
    (hO : 1 ≤ O) (poolSize : ℤ) (hlong : leastTokens (modelFamily modelName) ≤ P)
    (hattention : accepts (modelFamily modelName) (poolSize - safetyMarginBytes)
      (attentionOf (modelFamily modelName) P) = true)
    (hlogits : accepts (modelFamily modelName) (poolSize - safetyMarginBytes)
      (logitsOf (modelFamily modelName) P (lastRows mb (modelFamily modelName) P O)) = false) :
    Raises mb P O poolSize modelName ∧ ¬ NothingFits P O poolSize modelName := by
  constructor
  · refine (raises_iff_path mono zero modelName hP hO poolSize).mpr
      ⟨exists_path_eq_none mono hP hO hlong, ?_⟩
    rintro n ⟨a, b⟩ hpath
    obtain ⟨ha, hb, -⟩ := Costs.path_counts hpath
    refine eq_false_of_ne_true fun haccepts => ?_
    -- at no time are there fewer rows of the logits
    have hle : logitsOf (modelFamily modelName) P (lastRows mb (modelFamily modelName) P O) ≤
        planBytes (modelFamily modelName) P O (a, b) := by
      refine le_trans (Nat.add_le_add_left (Nat.mul_le_mul_right _ ?_) _)
        (logitsOf_le hP hO (show 1 ≤ (a, b).1 ∧ 1 ≤ (a, b).2 from ⟨ha, hb⟩))
      exact chunkRows_anti hO (le_lastCount mono hO hlong hpath)
    rw [accepts_mono hle haccepts] at hlogits
    cases hlogits
  · intro hnothing
    -- with one row for each chunk, nothing ends behind the attention part
    have hcounts : 1 ≤ (P + 1, O).1 ∧ 1 ≤ (P + 1, O).2 := ⟨Nat.le_add_left 1 P, hO⟩
    obtain ⟨plan, hplan, htotal⟩ := exists_analyzedPlan (modelFamily modelName) hP hO hcounts
    have hrejects := hnothing _ plan
      (show Chunked (countConfig (P + 1, O)) from ⟨hO, Nat.succ_pos P⟩) hplan
    obtain ⟨hmlp, hrow⟩ := row_le_attentionOf hlong
    have hle : plan.totalBufferSizeBytes ≤ attentionOf (modelFamily modelName) P := by
      rw [← htotal]
      refine (planBytes_le hP hO hcounts (Nat.succ_le_succ hP)).trans
        (max_le (max_le le_rfl ?_) ?_)
      · rwa [maxChunkSize_eq_one hP (Nat.le_succ P)]
      · rwa [chunkRows_eq_one hO le_rfl]
    rw [accepts_mono hle hattention] at hrejects
    cases hrejects

/-- If the attention part does not fit, nothing does. If it fits, and the logits fit with which the
search gives up, then the search does not give up. -/
theorem nothingFits_of_raises (mono : Monotone mb) (zero : mb 0 = 0)
    (close : ∀ x y, mb x ≤ mb y → x ≤ y + y / 2 ^ 50) (modelName : String) (hP : 1 ≤ P)
    (hO : 1 ≤ O) {poolSize : ℤ} (hlogits : leastTokens (modelFamily modelName) ≤ P →
      accepts (modelFamily modelName) (poolSize - safetyMarginBytes)
        (attentionOf (modelFamily modelName) P) = true →
      accepts (modelFamily modelName) (poolSize - safetyMarginBytes)
        (logitsOf (modelFamily modelName) P (lastRows mb (modelFamily modelName) P O)) = true)
    (hraises : Raises mb P O poolSize modelName) : NothingFits P O poolSize modelName := by
  intro strategy plan hchunked hplan
  refine eq_false_of_ne_true fun haccepts => ?_
  have hattention := accepts_attentionOf hP hO hchunked hplan haccepts
  obtain ⟨⟨_, hnone⟩, hrejects⟩ := (raises_iff_path mono zero modelName hP hO poolSize).mp hraises
  generalize modelFamily modelName = family at *
  -- the search gives up with both other parts no heavier than the fixed part
  obtain ⟨m, ⟨a, b⟩, hlast, hcut⟩ := Costs.exists_last hnone
  obtain ⟨ha, hb, -⟩ := Costs.path_counts hlast
  obtain ⟨hfirst, hsecond⟩ := Costs.cut_eq_none_iff.mp hcut
  have hfirst : (peakCosts family P O).first a ≤
      (peakCosts family P O).fixed + (peakCosts family P O).fixed / 2 ^ 50 :=
    close _ _ hfirst
  obtain ⟨hchunks, hmlp⟩ := chunkedOf_le_attentionOf hP hfirst
  have hlong : leastTokens family ≤ P := by
    by_contra hshort
    have hheavy := fixed_lt_first (O := O) hP (not_le.mp hshort) a
    have hsmall := (peaks_small (O := O) hP (not_le.mp hshort)).1
    rw [Nat.div_eq_of_lt hsmall, add_zero] at hfirst
    exact hfirst.not_gt hheavy
  have hb' : b = lastCount mb family P O := by
    obtain ⟨-, -, hdear⟩ := lastCount_spec mono hO hlong
    refine le_antisymm (le_lastCount mono hO hlong hlast) (not_lt.mp fun hlt => ?_)
    exact (hdear b hb hlt).not_ge hsecond
  have hreject := hrejects m (a, b) hlast
  have hfits := hlogits hlong hattention
  rw [lastRows, ← hb'] at hfits
  -- the larger of the attention part and the logits fits
  have haccepts : accepts family (poolSize - safetyMarginBytes)
      (max (attentionOf family P) (logitsOf family P (chunkRows O b))) = true := by
    rcases max_choice (attentionOf family P) (logitsOf family P (chunkRows O b)) with h | h
    · rw [h]
      exact hattention
    · rw [h]
      exact hfits
  have hle : planBytes family P O (a, b) ≤
      max (attentionOf family P) (logitsOf family P (chunkRows O b)) :=
    (planBytes_le hP hO (show 1 ≤ (a, b).1 ∧ 1 ≤ (a, b).2 from ⟨ha, hb⟩) hchunks).trans
      (max_le_max_right _ (max_le le_rfl hmlp))
  rw [accepts_mono hle haccepts] at hreject
  cases hreject

/-- For LLaDA and LLaDA-MoE the output and the logits end before the attention part as soon as the
logits weigh no more than the fixed part, so the search gives up only if nothing fits. -/
theorem nothingFits_of_ne_dream (mono : Monotone mb) (zero : mb 0 = 0)
    (close : ∀ x y, mb x ≤ mb y → x ≤ y + y / 2 ^ 50) (modelName : String) (hP : 1 ≤ P)
    (hO : 1 ≤ O) {poolSize : ℤ} (hdream : modelFamily modelName ≠ .dream)
    (hsmall : fixedPerToken (modelFamily modelName) * P < 2 ^ 50)
    (hraises : Raises mb P O poolSize modelName) : NothingFits P O poolSize modelName := by
  refine nothingFits_of_raises mono zero close modelName hP hO (fun hlong hattention => ?_) hraises
  obtain ⟨-, hcheap, -⟩ := lastCount_spec mono hO hlong
  generalize modelFamily modelName = family at *
  refine accepts_mono ?_ hattention
  have hle := close _ _ hcheap
  rw [show (peakCosts family P O).fixed = fixedPerToken family * P from rfl,
    Nat.div_eq_of_lt hsmall, add_zero] at hle
  have hrows : logitsPerRow family * lastRows mb family P O ≤ fixedPerToken family * P := hle
  cases family with
  | llada =>
    change 252928 * lastRows mb .llada P O ≤ 32768 * P at hrows
    change P * 8192 + lastRows mb .llada P O * 252928 ≤
      max (3 * (P * 8192) + 2 * (P * 8192)) (4 * (P * 8192))
    omega
  | dream => exact absurd rfl hdream
  | lladaMoe =>
    change 314368 * lastRows mb .lladaMoe P O ≤ 16384 * P at hrows
    change P * 4096 + lastRows mb .lladaMoe P O * 314368 ≤
      max (3 * (P * 4096) + 2 * (P * 4096)) (4 * (P * 4096))
    omega

/-- The search gives up only if nothing fits, unless it gives up early: the input is long, the
attention part fits, and the logits do not fit that weigh no more than the fixed part. -/
theorem search_complete_iff (mono : Monotone mb) (zero : mb 0 = 0)
    (close : ∀ x y, mb x ≤ mb y → x ≤ y + y / 2 ^ 50) (modelName : String) (hP : 1 ≤ P)
    (hO : 1 ≤ O) (poolSize : ℤ) :
    (Raises mb P O poolSize modelName → NothingFits P O poolSize modelName) ↔
      (leastTokens (modelFamily modelName) ≤ P →
        accepts (modelFamily modelName) (poolSize - safetyMarginBytes)
          (attentionOf (modelFamily modelName) P) = true →
        accepts (modelFamily modelName) (poolSize - safetyMarginBytes)
          (logitsOf (modelFamily modelName) P (lastRows mb (modelFamily modelName) P O)) =
            true) := by
  refine ⟨fun hcomplete hlong hattention => ?_,
    nothingFits_of_raises mono zero close modelName hP hO⟩
  by_contra hlogits
  obtain ⟨hraises, hfits⟩ := gives_up_early mono zero modelName hP hO poolSize hlong hattention
    (eq_false_of_ne_true hlogits)
  exact hfits (hcomplete hraises)

theorem toMb_close (x y : ℕ) (h : toMb x ≤ toMb y) : x ≤ y + y / 2 ^ 50 :=
  (toMb_strictMono.le_iff_le.mp h).trans (Nat.le_add_right _ _)

/-- The search gives up where the attention part does not fit. -/
theorem raises_of_attention {modelName : String} (hP : 1 ≤ P) (hO : 1 ≤ O) {poolSize : ℤ}
    (hlong : leastTokens (modelFamily modelName) ≤ P)
    (hbudget : poolSize - safetyMarginBytes < attentionOf (modelFamily modelName) P) :
    Raises toMb P O poolSize modelName := by
  refine (raises_iff_path toMb_strictMono.monotone toMb_zero modelName hP hO poolSize).mpr
    ⟨exists_path_eq_none toMb_strictMono.monotone hP hO hlong, fun n counts hpath => ?_⟩
  obtain ⟨ha, hb, -⟩ := Costs.path_counts hpath
  have hattention : attentionOf (modelFamily modelName) P ≤
      planBytes (modelFamily modelName) P O counts := attentionOf_le hP hO ⟨ha, hb⟩
  refine eq_false_of_ne_true fun haccepts => ?_
  have hfits := le_of_accepts haccepts
  omega

/-- In one GiB, the attention part for 8192 tokens of Dream does not fit. -/
theorem search_complete_long_prompt :
    Raises toMb 8192 256 1073741824 "dream" ∧ NothingFits 8192 256 1073741824 "dream" := by
  have hraises : Raises toMb 8192 256 1073741824 "dream" :=
    raises_of_attention (by decide) (by decide) (by decide) (by decide)
  have hiff := search_complete_iff toMb_strictMono.monotone toMb_zero toMb_close "dream"
    (show 1 ≤ 8192 by decide) (show 1 ≤ 256 by decide) 1073741824
  exact ⟨hraises, hiff.mpr (fun _ hattention => absurd hattention (by decide)) hraises⟩

/-- In one GiB, that for 4096 tokens of LLaDA does not fit. -/
theorem nothingFits_of_ne_dream_long_prompt :
    Raises toMb 4096 256 1073741824 "llada" ∧ NothingFits 4096 256 1073741824 "llada" := by
  have hraises : Raises toMb 4096 256 1073741824 "llada" :=
    raises_of_attention (by decide) (by decide) (by decide) (by decide)
  exact ⟨hraises, nothingFits_of_ne_dream toMb_strictMono.monotone toMb_zero toMb_close "llada"
    (by decide) (by decide) (by decide) (by decide) hraises⟩

/-- For 111 tokens of Dream the attention part takes 3182592 bytes. The logits of eight rows weigh
less than the fixed part, but end at 3228672 bytes. -/
theorem search_gives_up_early :
    ¬ (Raises toMb 111 8 946918400 "dream" → NothingFits 111 8 946918400 "dream") := by
  have hfamily : modelFamily "dream" = .dream := by decide
  have hcount : lastCount toMb .dream 111 8 = 1 := by
    have hle : toMb ((peakCosts .dream 111 8).second 1) ≤ toMb (peakCosts .dream 111 8).fixed :=
      toMb_strictMono.monotone (by decide)
    simp [lastCount, leastCount, List.range', hle]
  intro hcomplete
  obtain ⟨hraises, hfits⟩ := gives_up_early toMb_strictMono.monotone toMb_zero "dream"
    (by decide : 1 ≤ 111) (by decide : 1 ≤ 8) 946918400 (by rw [hfamily]; decide)
    (by rw [hfamily]; decide) (by rw [hfamily, lastRows, hcount]; decide)
  exact hfits (hcomplete hraises)

end Complete

end Search
