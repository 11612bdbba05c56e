import Mosaic.FlashSample.Normaliser
import Mathlib.Analysis.SpecialFunctions.Log.ENNRealLog
import Mathlib.Analysis.SpecialFunctions.Log.ERealExp

/-!
# Temperature zero

The kernel with a temperature adds noise to the logits at every temperature, also at zero, where it
does not scale the logits. The random numbers are in `(0, 1]`, and `1` gives infinite noise. So the
index that it returns at temperature zero is that of the other kernel for rows of one logit only.
-/

namespace FlashSample

open List Threads

/-- Exact arithmetic with infinities. -/
noncomputable def extendedOps : FloatOps EReal where
  lowest := ((-fltMax : ℝ) : EReal)
  zero := 0
  one := 1
  minUniform := ((realOps.minUniform : ℝ) : EReal)
  neg x := -x
  add x y := x + y
  sub x y := x - y
  mul x y := x * y
  div x y := x / y
  expf x := (EReal.exp x : EReal)
  logf x := ENNReal.log x.toENNReal

/-- The random numbers that each thread draws, in `(0, 1]`. -/
structure Stream where
  uniform : ℕ → ℕ → ℝ
  pos : ∀ tid draw, 0 < uniform tid draw
  le_one : ∀ tid draw, uniform tid draw ≤ 1

/-- A row of finite logits in the arithmetic with infinities. -/
noncomputable def extendedRow (row : Row ℝ) : Row EReal :=
  ⟨row.N, fun j => (row.logit j : EReal)⟩

noncomputable def extendedUniform (s : Stream) (tid draw : ℕ) : EReal :=
  (s.uniform tid draw : EReal)

/-! ### The noise -/

section Noise

variable {u : ℝ}

theorem max_minUniform (u : ℝ) :
    max (u : EReal) extendedOps.minUniform = ((max u (10 ^ (-10 : ℤ)) : ℝ) : EReal) :=
  (EReal.coe_strictMono.monotone.map_max).symm

theorem logf_coe {x : ℝ} (hx : 0 < x) : extendedOps.logf (x : EReal) = (Real.log x : ℝ) := by
  change ENNReal.log (x : EReal).toENNReal = _
  rw [EReal.real_coe_toENNReal, ENNReal.log_ofReal_of_pos hx]

/-- The random number `1` gives infinite noise. -/
theorem gumbel_one : gumbel extendedOps ((1 : ℝ) : EReal) = ⊤ := by
  have hmax : max (1 : ℝ) (10 ^ (-10 : ℤ)) = 1 := max_eq_left (by norm_num)
  rw [gumbel, max_minUniform, hmax, logf_coe one_pos, Real.log_one]
  change -ENNReal.log (-((0 : ℝ) : EReal)).toENNReal = ⊤
  rw [EReal.coe_zero, neg_zero, EReal.toENNReal_zero, ENNReal.log_zero, EReal.neg_bot]

/-- Other random numbers give finite noise, which is bounded below. -/
theorem gumbel_of_lt_one (h : u < 1) :
    ∃ g : ℝ, -10 ^ 10 ≤ g ∧ gumbel extendedOps (u : EReal) = g := by
  have hpos : (0 : ℝ) < max u (10 ^ (-10 : ℤ)) := lt_max_of_lt_right (by norm_num)
  have hlt : max u (10 ^ (-10 : ℤ)) < 1 := max_lt h (by norm_num)
  have hinv : (max u (10 ^ (-10 : ℤ)))⁻¹ ≤ 10 ^ 10 := by
    have hle := inv_anti₀ (by norm_num) (le_max_right u (10 ^ (-10 : ℤ)))
    exact hle.trans (by norm_num)
  rw [gumbel, max_minUniform]
  generalize max u (10 ^ (-10 : ℤ)) = v at hpos hlt hinv ⊢
  have hneg : 0 < -Real.log v := neg_pos.mpr (Real.log_neg hpos hlt)
  have hlog : -Real.log v ≤ 10 ^ 10 := by
    have hle := Real.log_le_sub_one_of_pos (inv_pos.mpr hpos)
    rw [Real.log_inv] at hle
    linarith
  have hloglog := Real.log_le_sub_one_of_pos hneg
  refine ⟨-Real.log (-Real.log v), by linarith, ?_⟩
  rw [logf_coe hpos]
  change -extendedOps.logf (-((Real.log v : ℝ) : EReal)) = _
  rw [← EReal.coe_neg, logf_coe hneg, EReal.coe_neg]

end Noise

/-! ### The index -/

section Index

variable {R : Type} [LinearOrder R] {ops : FloatOps R} {blockSize m best : ℕ} {row : Row R}
  {temperature : R} {uniform : ℕ → ℕ → R} {schedule : List ℕ} {schedules : List (List ℕ)}
  {b b' : Block (Word R) (Regs R)}

/-- A logit with the noise from the draw for its column. -/
def noisyLogit (ops : FloatOps R) (blockSize : ℕ) (row : Row R) (temperature : R)
    (uniform : ℕ → ℕ → R) (j : ℕ) : R :=
  ops.add ((scaledRow ops row temperature).logit j)
    (gumbel ops (uniform (j % blockSize) (j / blockSize)))

/-- A thread draws for its columns one after the other. -/
theorem noisyValues_eq {t : ℕ} (ht : t < blockSize) :
    noisyValues ops blockSize row temperature uniform t =
      (columns blockSize row t).map fun j =>
        (j, noisyLogit ops blockSize row temperature uniform j) := by
  refine ext_getElem ?_ fun i hi hi' => ?_
  · rw [noisyValues, length_map, length_map, length_zipIdx]
  · have hdiv : (t + blockSize * i) / blockSize = i := by
      rw [Nat.add_mul_div_left _ _ (Nat.zero_lt_of_lt ht), Nat.div_eq_of_lt ht, zero_add]
    have hmod : (t + blockSize * i) % blockSize = t := by
      rw [Nat.add_mul_mod_self_left, Nat.mod_eq_of_lt ht]
    simp only [noisyValues, noisyLogit, columns, getElem_map, getElem_zipIdx,
      getElem_range', zero_add, hdiv, hmod]

/-- All threads read the index that the search has left. -/
theorem logitMaxPhase_spec
    (h : runPhase blockSize (logitMaxPhase ops blockSize row) schedule b = some b') :
    ∀ t < blockSize, (b'.regs t).finalArgmaxIdx = b.mem (.idxs (blockSize - 1)) := by
  have hfree : RaceFree (start blockSize (logitMaxPhase ops blockSize row) b).code
      (fun t => {.idxs (blockSize - 1), .vals t}) fun t => {.vals t} := by
    refine .of_phase (fun t _ => ⟨.inl rfl, fun idx => ⟨rfl, trivial⟩⟩) ?_
    rintro t _ hne _ rfl (hu | hu)
    · cases hu
    · exact hne (Cell.vals.inj hu)
  intro t ht
  rw [((hfree.runPhase h).1 t ht).1]
  rfl

/-- The index is that of the first of the largest noisy logits, in whatever order the threads
run. -/
theorem gumbelKernel_index
    (finite : ∀ j < row.N, ops.lowest < noisyLogit ops (2 ^ m) row temperature uniform j)
    (hbest : LeastArgmax ⟨row.N, noisyLogit ops (2 ^ m) row temperature uniform⟩ best)
    (h : runPhases (2 ^ m) (gumbelMaxEntropyKernel ops (2 ^ m) row temperature uniform) schedules
      b = some b') :
    ∃ v, (b'.regs 0).out = some ((best : ℤ), v) := by
  have hpos : 0 < 2 ^ m := Nat.two_pow_pos m
  obtain ⟨b₄, hbefore, htail⟩ := runPhases_append h
  rw [append_assoc, append_assoc] at hbefore
  obtain ⟨_, hargmax, hmore⟩ := runPhases_append hbefore
  obtain ⟨_, _, b₂, -, hlogitMax, hkeep⟩ := runPhases_cons hmore
  have hwin := argmaxPhases_spec (fun t ht => noisyValues_eq ht) finite hargmax
  have hleast : Winner ops.lowest (noisyLogit ops (2 ^ m) row temperature uniform)
      { j | j < row.N } (noisyLogit ops (2 ^ m) row temperature uniform best, (best : ℤ)) :=
    .inr ⟨best, hbest.1, rfl, hbest.2⟩
  have hidx := (Prod.mk.inj (hwin.unique hleast)).2
  have hkept : (b₄.regs 0).finalArgmaxIdx = (b₂.regs 0).finalArgmaxIdx := by
    refine runPhases_keeps Regs.finalArgmaxIdx (fun phase hphase t regs => ?_) hkeep 0 hpos
    rcases mem_append.mp hphase with hphase | hphase
    · obtain ⟨offset, -, rfl⟩ := mem_map.mp hphase
      exact combineRound_returns max Regs.finalArgmaxIdx offset t regs
    · rcases mem_append.mp hphase with hphase | hphase
      · simp only [mem_cons, not_mem_nil, or_false] at hphase
        rcases hphase with rfl | rfl
        · exact fun _ => rfl
        · exact rfl
      · obtain ⟨offset, -, rfl⟩ := mem_map.mp hphase
        exact combineRound_returns ops.add Regs.finalArgmaxIdx offset t regs
  obtain ⟨v, hv⟩ := (finishes_entropy hpos _ _ _ htail).2
  rw [hkept, logitMaxPhase_spec hlogitMax 0 hpos, hidx] at hv
  exact ⟨v, hv⟩

end Index

/-! ### Temperature zero -/

section Zero

variable {row : Row ℝ} {dtype : ScalarType} {m best other : ℕ}

/-- At temperature zero the logits are not scaled, but the noise is added. -/
theorem noisyLogit_zero (blockSize : ℕ) (row : Row ℝ) (s : Stream) (j : ℕ) :
    noisyLogit extendedOps blockSize (extendedRow row) 0 (extendedUniform s) j =
      (row.logit j : EReal) +
        gumbel extendedOps (s.uniform (j % blockSize) (j / blockSize) : EReal) := by
  have hinv : invTemp extendedOps 0 = 1 := if_neg (lt_irrefl _)
  change (row.logit j : EReal) * invTemp extendedOps 0 + _ = _
  rw [hinv, mul_one]
  rfl

theorem lowest_lt_noisyLogit (finite : row.Finite dtype) (s : Stream) {j : ℕ} (hj : j < row.N) :
    extendedOps.lowest <
      noisyLogit extendedOps (2 ^ m) (extendedRow row) 0 (extendedUniform s) j := by
  rw [noisyLogit_zero]
  change ((-fltMax : ℝ) : EReal) < _
  rcases (s.le_one (j % 2 ^ m) (j / 2 ^ m)).lt_or_eq with hlt | hone
  · obtain ⟨_, hg, hgumbel⟩ := gumbel_of_lt_one hlt
    rw [hgumbel, ← EReal.coe_add, EReal.coe_lt_coe_iff]
    have hlogit := (neg_le_abs (row.logit j)).trans (finite j hj)
    have hroom : dtype.largest + 10 ^ 10 < fltMax := by
      cases dtype <;> norm_num [ScalarType.largest, fltMax]
    linarith
  · rw [hone, gumbel_one, EReal.coe_add_top]
    exact EReal.coe_lt_top _

theorem leastArgmax_extendedRow (h : LeastArgmax row best) :
    LeastArgmax (extendedRow row) best := by
  refine ⟨h.1, fun j hj => ?_⟩
  rcases h.2 j hj with hlt | ⟨heq, hle⟩
  · exact .inl (EReal.coe_lt_coe_iff.mpr hlt)
  · exact .inr ⟨congrArg Real.toEReal heq, hle⟩

/-- The index of the kernel without temperature. -/
theorem entropyKernel_index (finite : row.Finite dtype) (hbest : LeastArgmax row best)
    {schedules : List (List ℕ)} {b b' : Block (Word EReal) (Regs EReal)}
    (h : runPhases (2 ^ m) (entropyKernel extendedOps (2 ^ m) (extendedRow row)) schedules b =
      some b') :
    ∃ v, (b'.regs 0).out = some ((best : ℤ), v) := by
  refine kernelWith_index (finishes_entropy (Nat.two_pow_pos m)) (fun j hj => ?_)
    (leastArgmax_extendedRow hbest) h
  exact EReal.coe_lt_coe_iff.mpr (finite.lowest_lt hj)

/-- The random number `1` for one column and `1 / 2` for the others. -/
noncomputable def favour (blockSize other : ℕ) : Stream where
  uniform tid draw := if tid + draw * blockSize = other then 1 else ((2 : ℕ) : ℝ)⁻¹
  pos tid draw := by split <;> norm_num
  le_one tid draw := by split <;> norm_num

theorem favour_uniform (blockSize other j : ℕ) :
    (favour blockSize other).uniform (j % blockSize) (j / blockSize) =
      if j = other then 1 else 1 / 2 := by
  change (if j % blockSize + j / blockSize * blockSize = other then (1 : ℝ) else _) = _
  rw [Nat.mod_add_div', Nat.cast_ofNat, one_div]

/-- Every column wins for some random numbers. -/
theorem leastArgmax_favour (hother : other < row.N) :
    LeastArgmax ⟨row.N, noisyLogit extendedOps (2 ^ m) (extendedRow row) 0
      (extendedUniform (favour (2 ^ m) other))⟩ other := by
  have htop : noisyLogit extendedOps (2 ^ m) (extendedRow row) 0
      (extendedUniform (favour (2 ^ m) other)) other = ⊤ := by
    rw [noisyLogit_zero, favour_uniform, if_pos rfl, gumbel_one, EReal.coe_add_top]
  refine ⟨hother, fun j hj => ?_⟩
  by_cases hj : j = other
  · exact .inr ⟨by rw [hj], hj.ge⟩
  · refine .inl ?_
    dsimp only
    obtain ⟨_, -, hgumbel⟩ := gumbel_of_lt_one (show (1 / 2 : ℝ) < 1 by norm_num)
    rw [htop, noisyLogit_zero, favour_uniform, if_neg hj, hgumbel]
    exact EReal.add_lt_top (EReal.coe_ne_top _) (EReal.coe_ne_top _)

/-- The two kernels return different columns for some random numbers. -/
theorem exists_other_index (finite : row.Finite dtype) (hbest : LeastArgmax row best)
    (hother : other < row.N) (b b₀ : Block (Word EReal) (Regs EReal)) :
    ∃ schedules b' schedules₀ b₀',
      runPhases (2 ^ m) (gumbelMaxEntropyKernel extendedOps (2 ^ m) (extendedRow row) 0
        (extendedUniform (favour (2 ^ m) other))) schedules b = some b' ∧
      runPhases (2 ^ m) (entropyKernel extendedOps (2 ^ m) (extendedRow row)) schedules₀ b₀ =
        some b₀' ∧
      (b'.regs 0).out.map Prod.fst = some (other : ℤ) ∧
      (b₀'.regs 0).out.map Prod.fst = some (best : ℤ) := by
  obtain ⟨schedules, b', h⟩ := exists_runPhases (2 ^ m) (gumbelMaxEntropyKernel extendedOps
    (2 ^ m) (extendedRow row) 0 (extendedUniform (favour (2 ^ m) other))) b
  obtain ⟨schedules₀, b₀', h₀⟩ := exists_runPhases (2 ^ m)
    (entropyKernel extendedOps (2 ^ m) (extendedRow row)) b₀
  obtain ⟨_, hv⟩ := gumbelKernel_index (fun j hj => lowest_lt_noisyLogit finite _ hj)
    (leastArgmax_favour hother) h
  obtain ⟨_, hv₀⟩ := entropyKernel_index finite hbest h₀
  exact ⟨schedules, b', schedules₀, b₀', h, h₀, by rw [hv]; rfl, by rw [hv₀]; rfl⟩

/-- With temperature zero, the kernel with noise returns the index of the kernel without for all
random numbers if and only if the row has one logit only. -/
theorem zero_temperature_iff (row : Row ℝ) (dtype : ScalarType) (finite : row.Finite dtype)
    (hN : 1 ≤ row.N) (m : ℕ) (b b₀ : Block (Word EReal) (Regs EReal)) :
    (∀ (s : Stream) (schedules schedules₀ : List (List ℕ))
        (b' b₀' : Block (Word EReal) (Regs EReal)),
      runPhases (2 ^ m) (gumbelMaxEntropyKernel extendedOps (2 ^ m) (extendedRow row) 0
        (extendedUniform s)) schedules b = some b' →
      runPhases (2 ^ m) (entropyKernel extendedOps (2 ^ m) (extendedRow row)) schedules₀ b₀ =
        some b₀' →
      (b'.regs 0).out.map Prod.fst = (b₀'.regs 0).out.map Prod.fst) ↔ row.N = 1 := by
  obtain ⟨best, hbest⟩ := exists_leastArgmax finite hN
  constructor
  · intro hall
    by_contra hne
    -- With a second column some draws choose that one: the noise is not scaled by the temperature.
    obtain ⟨other, hother, hdiff⟩ : ∃ other < row.N, other ≠ best := by
      by_cases hzero : best = 0
      · exact ⟨1, by omega, by omega⟩
      · exact ⟨0, hN, fun h => hzero h.symm⟩
    obtain ⟨schedules, b', schedules₀, b₀', h, h₀, hout, hout₀⟩ :=
      exists_other_index (m := m) finite hbest hother b b₀
    have hsame := hall _ schedules schedules₀ b' b₀' h h₀
    rw [hout, hout₀] at hsame
    exact hdiff (Int.natCast_inj.mp (Option.some.inj hsame))
  · intro hone s schedules schedules₀ b' b₀' h h₀
    have hzero : best = 0 := by
      have := hbest.1
      omega
    -- With one column both kernels choose it.
    have hleast : LeastArgmax ⟨row.N, noisyLogit extendedOps (2 ^ m) (extendedRow row) 0
        (extendedUniform s)⟩ 0 := by
      refine ⟨hN, fun j (hj : j < row.N) => ?_⟩
      obtain rfl : j = 0 := by omega
      exact .inr ⟨rfl, le_rfl⟩
    obtain ⟨_, hv⟩ := gumbelKernel_index (fun j hj => lowest_lt_noisyLogit finite s hj) hleast h
    obtain ⟨_, hv₀⟩ := entropyKernel_index finite hbest h₀
    rw [hv, hv₀, hzero]
    rfl

/-- A row of one logit. -/
theorem zero_temperature_iff_one : ∃ schedules b' schedules₀ b₀',
    runPhases (2 ^ 0) (gumbelMaxEntropyKernel extendedOps (2 ^ 0)
      (extendedRow ⟨1, fun _ => 1⟩) 0 (extendedUniform (favour (2 ^ 0) 0))) schedules
        ⟨fun | .vals _ => (0 : EReal) | .idxs _ => (0 : ℤ), fun _ => ⟨0, 0, 0, none⟩⟩ = some b' ∧
    runPhases (2 ^ 0) (entropyKernel extendedOps (2 ^ 0) (extendedRow ⟨1, fun _ => 1⟩)) schedules₀
        ⟨fun | .vals _ => (0 : EReal) | .idxs _ => (0 : ℤ), fun _ => ⟨0, 0, 0, none⟩⟩ = some b₀' ∧
    (b'.regs 0).out.map Prod.fst = (b₀'.regs 0).out.map Prod.fst := by
  obtain ⟨schedules, b', h⟩ := exists_runPhases (2 ^ 0)
    (gumbelMaxEntropyKernel extendedOps (2 ^ 0) (extendedRow ⟨1, fun _ => 1⟩) 0
      (extendedUniform (favour (2 ^ 0) 0)))
    ⟨fun | .vals _ => (0 : EReal) | .idxs _ => (0 : ℤ), fun _ => ⟨0, 0, 0, none⟩⟩
  obtain ⟨schedules₀, b₀', h₀⟩ := exists_runPhases (2 ^ 0)
    (entropyKernel extendedOps (2 ^ 0) (extendedRow ⟨1, fun _ => 1⟩))
    ⟨fun | .vals _ => (0 : EReal) | .idxs _ => (0 : ℤ), fun _ => ⟨0, 0, 0, none⟩⟩
  have finite : (⟨1, fun _ => 1⟩ : Row ℝ).Finite .half := fun j _ => by
    norm_num [ScalarType.largest]
  exact ⟨schedules, b', schedules₀, b₀', h, h₀, (zero_temperature_iff ⟨1, fun _ => 1⟩ .half finite
    le_rfl 0 _ _).mpr rfl _ schedules schedules₀ b' b₀' h h₀⟩

/-- The logits `8` and `-8` and `1024` threads: the second column is returned for the random
numbers `1 / 2` and `1`. -/
theorem zero_temperature_not_greedy : ∃ (s : Stream) (schedules schedules₀ : List (List ℕ))
    (b' b₀' : Block (Word EReal) (Regs EReal)),
    runPhases (2 ^ 10) (gumbelMaxEntropyKernel extendedOps (2 ^ 10)
      (extendedRow ⟨2, fun j => if j = 0 then 8 else -8⟩) 0 (extendedUniform s)) schedules
        ⟨fun | .vals _ => (0 : EReal) | .idxs _ => (0 : ℤ), fun _ => ⟨0, 0, 0, none⟩⟩ = some b' ∧
    runPhases (2 ^ 10) (entropyKernel extendedOps (2 ^ 10)
      (extendedRow ⟨2, fun j => if j = 0 then 8 else -8⟩)) schedules₀
        ⟨fun | .vals _ => (0 : EReal) | .idxs _ => (0 : ℤ), fun _ => ⟨0, 0, 0, none⟩⟩ = some b₀' ∧
    (b'.regs 0).out.map Prod.fst ≠ (b₀'.regs 0).out.map Prod.fst := by
  have finite : (⟨2, fun j => if j = 0 then 8 else -8⟩ : Row ℝ).Finite .half := by
    intro j _
    dsimp only
    split <;> norm_num [ScalarType.largest]
  have hbest : LeastArgmax (⟨2, fun j => if j = 0 then 8 else -8⟩ : Row ℝ) 0 := by
    refine ⟨Nat.zero_lt_two, fun j _ => ?_⟩
    by_cases hj : j = 0
    · exact .inr ⟨by rw [hj], Nat.zero_le j⟩
    · refine .inl ?_
      dsimp only
      rw [if_neg hj, if_pos rfl]
      norm_num
  obtain ⟨schedules, b', schedules₀, b₀', h, h₀, hout, hout₀⟩ :=
    exists_other_index (m := 10) finite hbest Nat.one_lt_two
      ⟨fun | .vals _ => (0 : EReal) | .idxs _ => (0 : ℤ), fun _ => ⟨0, 0, 0, none⟩⟩
      ⟨fun | .vals _ => (0 : EReal) | .idxs _ => (0 : ℤ), fun _ => ⟨0, 0, 0, none⟩⟩
  refine ⟨favour (2 ^ 10) 1, schedules, schedules₀, b', b₀', h, h₀, ?_⟩
  rw [hout, hout₀]
  decide

end Zero

end FlashSample
