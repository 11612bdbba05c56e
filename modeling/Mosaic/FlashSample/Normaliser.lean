import Mosaic.FlashSample.Denominator
import Mathlib.Algebra.BigOperators.Group.Finset.Sigma
import Mathlib.Algebra.Order.BigOperators.Group.Finset
import Mathlib.Analysis.SpecialFunctions.Log.Basic

/-!
# The results of the kernels

The index that a kernel returns is that of the first of the largest logits, in whatever order the
threads run. With exact arithmetic, the normaliser is the sum over the row as long as no thread that
has columns is late.
-/

namespace FlashSample

open Threads Finset Option

/-! ### After the denominator -/

section Tail

variable {R : Type} {ops : FloatOps R} {blockSize m : ℕ} {row : Row R} {schedule : List ℕ}
  {schedules : List (List ℕ)} {b b' : Block (Word R) (Regs R)}

/-- A phase that loads one cell only. -/
theorem runPhase_readOnly {phase : Phase (Word R) (Regs R)} {touched : Set Cell}
    (hphase : ∀ t regs, (phase t regs).Within touched ∅)
    (h : runPhase blockSize phase schedule b = some b') :
    ∀ t < blockSize, b'.regs t = ((phase t (b.regs t)).run b.mem).1 := by
  have hfree : RaceFree (start blockSize phase b).code (fun _ => touched) fun _ => ∅ :=
    .of_phase (fun t _ => hphase t _) fun _ _ _ _ ha => absurd ha (Set.notMem_empty _)
  exact fun t ht => ((hfree.runPhase h).1 t ht).1

theorem combineRound_returns (combine : R → R → R) {β : Type} (f : Regs R → β) (offset t : ℕ)
    (regs : Regs R) : (combineRound combine offset t regs).Returns fun r => f r = f regs := by
  rw [combineRound]
  split
  · exact fun _ _ => rfl
  · exact rfl

/-- The rounds do not change what the threads keep. -/
theorem combineRounds_keep (combine : R → R → R) {β : Type} (f : Regs R → β) {offs : List ℕ}
    (h : runPhases blockSize (offs.map (combineRound combine)) schedules b = some b') :
    ∀ t < blockSize, f (b'.regs t) = f (b.regs t) := by
  refine runPhases_keeps f (fun phase hphase t regs => ?_) h
  obtain ⟨offset, -, rfl⟩ := List.mem_map.mp hphase
  exact combineRound_returns combine f offset t regs

/-- What the phases after the denominator make of its sum. -/
def Finishes (blockSize : ℕ) (tail : List (Phase (Word R) (Regs R))) : Prop :=
  ∀ schedules b b', runPhases blockSize tail schedules b = some b' →
    (b'.regs 0).finalDenominator = b.mem (.vals 0) ∧
      ∃ v, (b'.regs 0).out = some ((b.regs 0).finalArgmaxIdx, v)

/-- The result is the index and the inverse of the denominator. -/
theorem writeProb_out (hpos : 0 < blockSize)
    (h : runPhases blockSize [writeProbPhase ops] schedules b = some b') :
    (b'.regs 0).finalDenominator = b.mem (.vals 0) ∧ (b'.regs 0).out =
      some ((b.regs 0).finalArgmaxIdx, ops.div ops.one (b'.regs 0).finalDenominator) := by
  obtain ⟨schedule, rest, _, rfl, hwrite, hend⟩ := runPhases_cons h
  have hwithin (t : ℕ) (regs : Regs R) : (writeProbPhase ops t regs).Within {.vals 0} ∅ := by
    rw [writeProbPhase]
    split
    · exact ⟨rfl, fun _ => trivial⟩
    · trivial
  have hregs := runPhase_readOnly hwithin hwrite 0 hpos
  rw [writeProbPhase, if_pos rfl] at hregs
  cases rest with
  | nil =>
    rw [← some.inj hend, hregs]
    exact ⟨rfl, rfl⟩
  | cons schedule rest => cases hend

theorem finishes_writeProb (ops : FloatOps R) (hpos : 0 < blockSize) :
    Finishes blockSize [writeProbPhase ops] := by
  intro schedules b b' h
  obtain ⟨hfinal, hout⟩ := writeProb_out hpos h
  exact ⟨hfinal, _, hout⟩

theorem finishes_entropy (hpos : 0 < blockSize) :
    Finishes blockSize (entropyPhases ops blockSize row) := by
  intro schedules b b' h
  obtain ⟨b₂, hsum, hwrite⟩ := runPhases_append h
  obtain ⟨schedule, rest, b₁, -, hread, hkeep⟩ := runPhases_cons hsum
  obtain ⟨_, rest', _, -, hlast, hend⟩ := runPhases_cons hwrite
  have hwithin (t : ℕ) (regs : Regs R) :
      (readDenominatorPhase t regs).Within {Cell.vals 0} ∅ := ⟨rfl, fun _ => trivial⟩
  have hregs := runPhase_readOnly hwithin hread 0 hpos
  have hkept {β : Type} (f : Regs R → β) : f (b₂.regs 0) = f (b₁.regs 0) := by
    refine runPhases_keeps f (fun phase hphase t regs => ?_) hkeep 0 hpos
    rcases List.mem_append.mp hphase with hphase | hphase
    · rw [List.mem_singleton.mp hphase]
      exact rfl
    · obtain ⟨offset, -, rfl⟩ := List.mem_map.mp hphase
      exact combineRound_returns ops.add f offset t regs
  have hout := runPhase_returns (Q := fun t r => t = 0 →
      r.finalDenominator = (b₂.regs 0).finalDenominator ∧
        ∃ v, r.out = some ((b₂.regs 0).finalArgmaxIdx, v)) (fun t _ => by
    rw [writeEntropyPhase]
    split
    · rename_i ht
      subst ht
      exact fun v _ => ⟨rfl, v, rfl⟩
    · rename_i ht
      exact fun hzero => absurd hzero ht) hlast 0 hpos rfl
  cases rest' with
  | nil =>
    rw [← some.inj hend, hout.1, hkept Regs.finalDenominator, hregs]
    obtain ⟨v, hv⟩ := hout.2
    rw [hkept Regs.finalArgmaxIdx, hregs] at hv
    exact ⟨rfl, v, hv⟩
  | cons schedule rest => cases hend

end Tail

/-- The column of the first of the largest logits. -/
def LeastArgmax {R : Type} [LinearOrder R] (row : Row R) (best : ℕ) : Prop :=
  best < row.N ∧ ∀ j < row.N, row.logit j < row.logit best ∨
    row.logit j = row.logit best ∧ best ≤ j

section Index

variable {R : Type} [LinearOrder R] {ops : FloatOps R} {m best : ℕ} {row : Row R}
  {schedules : List (List ℕ)} {tail : List (Phase (Word R) (Regs R))}
  {b b' : Block (Word R) (Regs R)}

/-- A kernel up to the sum of the denominator, and the phases that follow. -/
def kernelWith (ops : FloatOps R) (blockSize : ℕ) (row : Row R)
    (tail : List (Phase (Word R) (Regs R))) : List (Phase (Word R) (Regs R)) :=
  argmaxPhases ops blockSize (logitValues blockSize row) ++
    denominatorPhase ops blockSize row :: (offsets (blockSize / 2)).map (sumRound ops) ++ tail

theorem length_argmaxPhases (ops : FloatOps R) (m : ℕ) (values : ℕ → List (ℕ × R)) :
    (argmaxPhases ops (2 ^ m) values).length = m + 2 := by
  rw [argmaxPhases, List.length_append, List.length_cons, List.length_map, length_offsets,
    List.length_singleton]

/-- The states of the block on the way. -/
theorem kernelWith_split
    (h : runPhases (2 ^ m) (kernelWith ops (2 ^ m) row tail) schedules b = some b') :
    ∃ b₁ b₂ b₃ rest rest',
      runPhases (2 ^ m) (argmaxPhases ops (2 ^ m) (logitValues (2 ^ m) row))
        (schedules.take (m + 2)) b = some b₁ ∧
      runPhase (2 ^ m) (denominatorPhase ops (2 ^ m) row) (schedules.getD (m + 2) []) b₁ =
        some b₂ ∧
      runPhases (2 ^ m) ((offsets (2 ^ m / 2)).map (sumRound ops)) rest b₂ = some b₃ ∧
      runPhases (2 ^ m) tail rest' b₃ = some b' := by
  rw [kernelWith, List.append_assoc] at h
  obtain ⟨b₁, hargmax, hmore⟩ := runPhases_append h
  obtain ⟨b₃, hsum, htail⟩ := runPhases_append hmore
  rw [length_argmaxPhases] at hargmax hsum
  obtain ⟨_, rest, b₂, hsplit, hden, hrounds⟩ := runPhases_cons hsum
  refine ⟨b₁, b₂, b₃, rest, _, hargmax, ?_, hrounds, htail⟩
  have hfirst := congrArg (·[0]?) hsplit
  rw [List.getElem?_take_of_lt (by rw [List.length_cons]; omega), List.getElem?_drop,
    List.getElem?_cons_zero, add_zero] at hfirst
  rw [List.getD_eq_getElem?_getD, hfirst, getD_some]
  exact hden

theorem argmaxPhases_least (finite : ∀ j < row.N, ops.lowest < row.logit j)
    (hbest : LeastArgmax row best)
    (h : runPhases (2 ^ m) (argmaxPhases ops (2 ^ m) (logitValues (2 ^ m) row)) schedules b =
      some b') :
    b'.mem (.vals (2 ^ m - 1)) = row.logit best ∧ b'.mem (.idxs (2 ^ m - 1)) = (best : ℤ) := by
  have hwin := argmaxPhases_spec (fun t _ => rfl) finite h
  have hleast : Winner ops.lowest row.logit { j | j < row.N } (row.logit best, (best : ℤ)) :=
    .inr ⟨best, hbest.1, rfl, hbest.2⟩
  exact Prod.mk.inj (hwin.unique hleast)

/-- The index is that of the first of the largest logits, in whatever order the threads run. -/
theorem kernelWith_index (htail : Finishes (2 ^ m) tail)
    (finite : ∀ j < row.N, ops.lowest < row.logit j) (hbest : LeastArgmax row best)
    (h : runPhases (2 ^ m) (kernelWith ops (2 ^ m) row tail) schedules b = some b') :
    ∃ v, (b'.regs 0).out = some ((best : ℤ), v) := by
  have hpos : 0 < 2 ^ m := Nat.two_pow_pos m
  obtain ⟨_, _, _, _, _, hargmax, hden, hrounds, hend⟩ := kernelWith_split h
  obtain ⟨v, hv⟩ := (htail _ _ _ hend).2
  rw [combineRounds_keep ops.add Regs.finalArgmaxIdx hrounds 0 hpos,
    (denominatorPhase_spec hpos hden 0 hpos).2,
    (argmaxPhases_least finite hbest hargmax).2] at hv
  exact ⟨v, hv⟩

end Index

/-! ### The sum of the cells -/

section Sum

variable {R : Type} [AddCommMonoid R] {ops : FloatOps R} {m : ℕ} {schedules : List (List ℕ)}
  {b b' : Block (Word R) (Regs R)}

theorem sum_residue {count offset t : ℕ} (hoff : 0 < offset) (ht : t < offset) (f : ℕ → R) :
    ∑ u ∈ range count with u % offset = t, f u =
      ∑ u ∈ range count with u % (2 * offset) = t, f u +
        ∑ u ∈ range count with u % (2 * offset) = t + offset, f u := by
  rw [← Finset.sum_union]
  · refine Finset.sum_congr ?_ fun _ _ => rfl
    rw [← Finset.filter_or]
    exact Finset.filter_congr fun u _ => mod_two_mul hoff u ht
  · refine Finset.disjoint_filter.mpr fun u _ hu => ?_
    omega

/-- The cells below an offset hold the sums of the cells that are congruent modulo the offset. -/
def Summed (count : ℕ) (b : Block (Word R) (Regs R)) (offset : ℕ)
    (b' : Block (Word R) (Regs R)) : Prop :=
  ∀ t < offset, b'.mem (.vals t) = ∑ u ∈ range count with u % offset = t, b.mem (.vals u)

/-- The rounds leave the sum of all cells in cell `0`. -/
theorem sumRounds_spec (hadd : ∀ x y, ops.add x y = x + y)
    (h : runPhases (2 ^ m) ((offsets (2 ^ m / 2)).map (sumRound ops)) schedules b = some b') :
    b'.mem (.vals 0) = ∑ t ∈ range (2 ^ m), b.mem (.vals t) := by
  have hstart : Summed (2 ^ m) b (2 ^ m) b := by
    intro t ht
    have hself : {u ∈ range (2 ^ m) | u % 2 ^ m = t} = {t} := by
      ext u
      rw [mem_filter, mem_range, mem_singleton]
      constructor
      · rintro ⟨hu, rfl⟩
        exact (Nat.mod_eq_of_lt hu).symm
      · rintro rfl
        exact ⟨ht, Nat.mod_eq_of_lt ht⟩
    rw [hself, Finset.sum_singleton]
  have hend : Summed (2 ^ m) b 1 b' := by
    refine rounds_induction (Summed (2 ^ m) b) (fun k hk schedule b₁ b₂ hsum hrun => ?_) hstart h
    intro t ht
    have hpos : 0 < 2 ^ k := Nat.two_pow_pos k
    have hround := (combineRound_spec (Nat.pow_le_pow_right Nat.zero_lt_two hk.le) hrun).1 t ht
    rw [pow_succ, mul_comm] at hsum
    rw [hround, hadd, hsum t (by omega), hsum (t + 2 ^ k) (by omega), sum_residue hpos ht]
  have hzero := hend 0 Nat.zero_lt_one
  rw [hzero]
  refine Finset.sum_congr ?_ fun _ _ => rfl
  exact Finset.filter_true_of_mem fun u _ => Nat.mod_one u

end Sum

/-! ### Exact arithmetic -/

/-- The types of the logits. -/
inductive ScalarType where
  | half
  | bfloat16
  deriving DecidableEq, Repr

/-- The largest finite value. -/
noncomputable def ScalarType.largest : ScalarType → ℝ
  | .half => 65504
  | .bfloat16 => 2 ^ 128 - 2 ^ 120

/-- The largest finite value of 32 bits. -/
noncomputable def fltMax : ℝ :=
  2 ^ 128 - 2 ^ 104

theorem ScalarType.largest_lt (dtype : ScalarType) : dtype.largest < fltMax := by
  cases dtype <;> norm_num [largest, fltMax]

/-- Exact arithmetic. -/
noncomputable def realOps : FloatOps ℝ where
  lowest := -fltMax
  zero := 0
  one := 1
  minUniform := 10 ^ (-10 : ℤ)
  neg x := -x
  add x y := x + y
  sub x y := x - y
  mul x y := x * y
  div x y := x / y
  expf := Real.exp
  logf := Real.log

/-- Exact arithmetic with another exponential. -/
noncomputable def exactOps (e : ℝ → ℝ) : FloatOps ℝ :=
  { realOps with expf := e }

/-- All logits are finite numbers of their type. -/
def Row.Finite (row : Row ℝ) (dtype : ScalarType) : Prop :=
  ∀ j < row.N, |row.logit j| ≤ dtype.largest

theorem Row.Finite.lowest_lt {row : Row ℝ} {dtype : ScalarType} (h : row.Finite dtype) {j : ℕ}
    (hj : j < row.N) : -fltMax < row.logit j :=
  neg_lt.mp (((neg_le_abs _).trans (h j hj)).trans_lt dtype.largest_lt)

section Exact

variable {row : Row ℝ} {blockSize m t : ℕ}

/-- The sum over the columns of a thread. -/
noncomputable def partialSum (e : ℝ → ℝ) (row : Row ℝ) (blockSize t : ℕ) (top : ℝ) : ℝ :=
  ∑ j ∈ range row.N with j % blockSize = t, e (row.logit j - top)

theorem threadDenominator_eq (e : ℝ → ℝ) (ht : t < blockSize) (row : Row ℝ) (top : ℝ) :
    threadDenominator (exactOps e) blockSize row top t = partialSum e row blockSize t top := by
  have hnodup := (pairwise_columns (Nat.zero_lt_of_lt ht) row t).imp fun h => h.ne
  have hcols : (columns blockSize row t).toFinset = {j ∈ range row.N | j % blockSize = t} := by
    ext j
    rw [List.mem_toFinset, mem_columns ht, mem_filter, mem_range]
    rfl
  rw [partialSum, ← hcols, List.sum_toFinset _ hnodup, List.sum_eq_foldl, List.foldl_map]
  rfl

/-- The sum over the threads is one over the row. -/
theorem sum_threads (hpos : 0 < blockSize) (row : Row ℝ) (f : ℕ → ℕ → ℝ) :
    ∑ t ∈ range blockSize, ∑ j ∈ range row.N with j % blockSize = t, f t j =
      ∑ j ∈ range row.N, f (j % blockSize) j :=
  calc ∑ t ∈ range blockSize, ∑ j ∈ range row.N with j % blockSize = t, f t j
      = ∑ t ∈ range blockSize, ∑ j ∈ range row.N with j % blockSize = t, f (j % blockSize) j :=
        Finset.sum_congr rfl fun t _ => Finset.sum_congr rfl fun j hj => by
          rw [(mem_filter.mp hj).2]
    _ = ∑ j ∈ range row.N, f (j % blockSize) j :=
        Finset.sum_fiberwise_of_maps_to
          (fun j _ => mem_range.mpr (Nat.mod_lt j hpos)) fun j => f (j % blockSize) j

/-- The terms of a row with the maximum `top`, when the threads use other maxima. -/
theorem sum_exp_eq_iff {e : ℝ → ℝ} (he : StrictMono e) (N : ℕ) (x : ℕ → ℝ) (late : ℕ → Prop)
    [DecidablePred late] (top other : ℝ) :
    ∑ j ∈ range N, e (x j - if late j then other else top) = ∑ j ∈ range N, e (x j - top) ↔
      ∀ j < N, late j → other = top := by
  constructor
  · intro hsame j hj hlate
    rcases lt_trichotomy other top with hlt | heq | hgt
    · -- every late term is larger, no term is smaller
      refine absurd hsame (ne_of_gt (Finset.sum_lt_sum (fun k _ => ?_) ⟨j, mem_range.mpr hj, ?_⟩))
      · split
        · exact he.monotone (by linarith)
        · exact le_rfl
      · rw [if_pos hlate]
        exact he (by linarith)
    · exact heq
    · refine absurd hsame (ne_of_lt (Finset.sum_lt_sum (fun k _ => ?_) ⟨j, mem_range.mpr hj, ?_⟩))
      · split
        · exact he.monotone (by linarith)
        · exact le_rfl
      · rw [if_pos hlate]
        exact he (by linarith)
  · intro hall
    refine Finset.sum_congr rfl fun j hj => ?_
    split
    · rename_i hlate
      rw [hall j (mem_range.mp hj) hlate]
    · rfl

/-- The partial sum of the last thread. -/
noncomputable def lastPartial (row : Row ℝ) (blockSize best : ℕ) : ℝ :=
  ∑ j ∈ range row.N with j % blockSize = blockSize - 1, Real.exp (row.logit j - row.logit best)

/-- The normaliser that a run sums up is right unless a thread with columns is late. -/
theorem normaliser_iff {e : ℝ → ℝ} (he : StrictMono e) {best : ℕ} {schedules : List (List ℕ)}
    {tail : List (Phase (Word ℝ) (Regs ℝ))} {b b' : Block (Word ℝ) (Regs ℝ)}
    (htail : Finishes (2 ^ m) tail) (finite : ∀ j < row.N, -fltMax < row.logit j)
    (hbest : LeastArgmax row best)
    (h : runPhases (2 ^ m) (kernelWith (exactOps e) (2 ^ m) row tail) schedules b = some b') :
    (b'.regs 0).finalDenominator = ∑ j ∈ range row.N, e (row.logit j - row.logit best) ↔
      ∀ j < row.N, LateRead (2 ^ m - 1) (schedules.getD (m + 2) []) (j % 2 ^ m) →
        partialSum e row (2 ^ m) (2 ^ m - 1) (row.logit best) = row.logit best := by
  have hpos : 0 < 2 ^ m := Nat.two_pow_pos m
  obtain ⟨_, _, _, _, _, hargmax, hden, hrounds, hend⟩ := kernelWith_split h
  have hcells := denominatorPhase_spec hpos hden
  rw [(argmaxPhases_least finite hbest hargmax).1] at hcells
  have hlast := threadDenominator_eq e (Nat.sub_lt hpos Nat.zero_lt_one) row (row.logit best)
  rw [← sum_exp_eq_iff he row.N row.logit
      (fun j => LateRead (2 ^ m - 1) (schedules.getD (m + 2) []) (j % 2 ^ m)) (row.logit best)
      (partialSum e row (2 ^ m) (2 ^ m - 1) (row.logit best)),
    (htail _ _ _ hend).1, sumRounds_spec (fun _ _ => rfl) hrounds,
    ← sum_threads hpos row fun t j => e (row.logit j -
      if LateRead (2 ^ m - 1) (schedules.getD (m + 2) []) t then
        partialSum e row (2 ^ m) (2 ^ m - 1) (row.logit best) else row.logit best)]
  refine Eq.congr (Finset.sum_congr rfl fun t ht => ?_) rfl
  rw [(hcells t (mem_range.mp ht)).1, threadDenominator_eq e (mem_range.mp ht), seen, hlast]
  rfl

end Exact

/-! ### Runs -/

section Runs

variable {row : Row ℝ} {m best : ℕ} {dtype : ScalarType}

theorem exists_leastArgmax (finite : row.Finite dtype) (hN : 1 ≤ row.N) :
    ∃ best, LeastArgmax row best := by
  have hwin : Winner (-fltMax) row.logit { j | j ∈ List.range row.N }
      (threadArgmax realOps ((List.range row.N).map fun j => (j, row.logit j))) :=
    threadArgmax_winner _ List.pairwise_lt_range
      fun j hj => finite.lowest_lt (List.mem_range.mp hj)
  rcases hwin with ⟨hnone, -⟩ | ⟨best, hbest, -, hall⟩
  · have hmem : 0 ∈ { j | j ∈ List.range row.N } := List.mem_range.mpr hN
    exact absurd hmem (hnone ▸ Set.notMem_empty 0)
  · exact ⟨best, List.mem_range.mp hbest, fun j hj => hall j (List.mem_range.mpr hj)⟩

/-- With more than one thread, the first thread can be late. -/
theorem exists_late_run (hm : m ≠ 0) (ops : FloatOps ℝ) (row : Row ℝ)
    (tail : List (Phase (Word ℝ) (Regs ℝ))) (b : Block (Word ℝ) (Regs ℝ)) :
    ∃ schedules b', runPhases (2 ^ m) (kernelWith ops (2 ^ m) row tail) schedules b = some b' ∧
      LateRead (2 ^ m - 1) (schedules.getD (m + 2) []) 0 := by
  have htwo : 2 ≤ 2 ^ m := Nat.le_self_pow hm 2
  have hne : 2 ^ m - 1 ≠ 0 := by omega
  obtain ⟨first, b₁, hargmax⟩ := exists_runPhases (2 ^ m)
    (argmaxPhases ops (2 ^ m) (logitValues (2 ^ m) row)) b
  -- the last thread stores before the others load
  obtain ⟨rest, b₂, hdenominator⟩ := exists_runPhase (2 ^ m) (denominatorPhase ops (2 ^ m) row)
    (List.replicate 3 (2 ^ m - 1)) b₁
  obtain ⟨second, b', hmore⟩ := exists_runPhases (2 ^ m)
    ((offsets (2 ^ m / 2)).map (sumRound ops) ++ tail) b₂
  refine ⟨first ++ (List.replicate 3 (2 ^ m - 1) ++ rest) :: second, b', ?_, ?_⟩
  · rw [kernelWith, List.append_assoc]
    exact runPhases_of_append hargmax ((congrArg (Option.bind · _) hdenominator).trans hmore)
  · have hlength := length_of_runPhases hargmax
    rw [length_argmaxPhases] at hlength
    rw [List.getD_eq_getElem?_getD, List.getElem?_append_right hlength.le, hlength, Nat.sub_self,
      List.getElem?_cons_zero, getD_some, LateRead]
    simp [List.replicate_succ, hne]

/-- The kernel finds the first of the largest logits, and its normaliser is the sum over the whole
row. -/
structure Correct (m : ℕ) (kernel : List (Phase (Word ℝ) (Regs ℝ))) (row : Row ℝ)
    (b : Block (Word ℝ) (Regs ℝ)) (schedules : List (List ℕ)) (b' : Block (Word ℝ) (Regs ℝ))
    (best : ℕ) : Prop where
  /-- The search leaves the maximum and its column in the last cells. -/
  reduction : ∀ b₁, runPhases (2 ^ m) (kernel.take (m + 2)) (schedules.take (m + 2)) b = some b₁ →
    b₁.mem (.vals (2 ^ m - 1)) = row.logit best ∧ b₁.mem (.idxs (2 ^ m - 1)) = (best : ℤ)
  index : ∃ v, (b'.regs 0).out = some ((best : ℤ), v)
  normaliser : (b'.regs 0).finalDenominator =
    ∑ j ∈ range row.N, Real.exp (row.logit j - row.logit best)

variable {tail : List (Phase (Word ℝ) (Regs ℝ))}

section

variable {b b' : Block (Word ℝ) (Regs ℝ)} {schedules : List (List ℕ)}
  (htail : Finishes (2 ^ m) tail) (finite : row.Finite dtype) (hbest : LeastArgmax row best)
  (h : runPhases (2 ^ m) (kernelWith realOps (2 ^ m) row tail) schedules b = some b')
include htail finite hbest h

theorem correct_iff_normaliser :
    Correct m (kernelWith realOps (2 ^ m) row tail) row b schedules b' best ↔
      (b'.regs 0).finalDenominator =
        ∑ j ∈ range row.N, Real.exp (row.logit j - row.logit best) := by
  have hlowest : ∀ j < row.N, -fltMax < row.logit j := fun j hj => finite.lowest_lt hj
  refine ⟨Correct.normaliser, fun hnormaliser => ⟨fun b₁ hrun => ?_,
    kernelWith_index htail hlowest hbest h, hnormaliser⟩⟩
  rw [kernelWith, List.append_assoc, ← length_argmaxPhases realOps m (logitValues (2 ^ m) row),
    List.take_left] at hrun
  exact argmaxPhases_least hlowest hbest hrun

theorem correct_iff : Correct m (kernelWith realOps (2 ^ m) row tail) row b schedules b' best ↔
      ∀ j < row.N, LateRead (2 ^ m - 1) (schedules.getD (m + 2) []) (j % 2 ^ m) →
        lastPartial row (2 ^ m) best = row.logit best :=
  (correct_iff_normaliser htail finite hbest h).trans
    (normaliser_iff Real.exp_strictMono htail (fun _ hj => finite.lowest_lt hj) hbest h)

end

/-- All runs sum up the right normaliser if and only if there is one thread only or the partial sum
of the last one is the maximum. -/
theorem forall_normaliser_iff {e : ℝ → ℝ} (he : StrictMono e) (hN : 1 ≤ row.N)
    (b : Block (Word ℝ) (Regs ℝ))
    (htail : Finishes (2 ^ m) tail) (finite : ∀ j < row.N, -fltMax < row.logit j)
    (hbest : LeastArgmax row best) :
    (∀ schedules b',
        runPhases (2 ^ m) (kernelWith (exactOps e) (2 ^ m) row tail) schedules b = some b' →
          (b'.regs 0).finalDenominator = ∑ j ∈ range row.N, e (row.logit j - row.logit best)) ↔
      m = 0 ∨ partialSum e row (2 ^ m) (2 ^ m - 1) (row.logit best) = row.logit best := by
  constructor
  · intro hall
    by_cases hm : m = 0
    · exact .inl hm
    · obtain ⟨schedules, b', h, hlate⟩ := exists_late_run hm (exactOps e) row tail b
      refine .inr ((normaliser_iff he htail finite hbest h).mp (hall _ _ h) 0 hN ?_)
      rw [Nat.zero_mod]
      exact hlate
  · rintro hcond schedules b' h
    refine (normaliser_iff he htail finite hbest h).mpr fun j _ hlate => ?_
    rcases hcond with rfl | hsame
    · -- the only thread is the last one
      rw [Nat.pow_zero, Nat.mod_one] at hlate
      exact absurd hlate not_lateRead_self
    · exact hsame

/-- The first threads have columns, as many as the row has. -/
theorem forall_column_iff (hpos : 0 < 2 ^ m) (P : ℕ → Prop) :
    (∀ j < row.N, P (j % 2 ^ m)) ↔ ∀ t < 2 ^ m, t < row.N → P t := by
  constructor
  · intro h t ht hN
    have hj := h t hN
    rw [Nat.mod_eq_of_lt ht] at hj
    exact hj
  · intro h j hj
    exact h _ (Nat.mod_lt j hpos) ((Nat.mod_le j _).trans_lt hj)

/-- For every row and every power of two, the search of both kernels finds the first of the largest
logits and the index is right. A run is correct if and only if no thread with columns loads the
maximum after the last thread has stored its partial sum, unless that is the maximum. All runs are
correct if and only if there is one thread only or the partial sum is the maximum. -/
theorem kernel_correct_iff (row : Row ℝ) (dtype : ScalarType) (finite : row.Finite dtype)
    (hN : 1 ≤ row.N) (m : ℕ) (b : Block (Word ℝ) (Regs ℝ))
    (kernel : List (Phase (Word ℝ) (Regs ℝ)))
    (hkernel : kernel ∈ [lowConfidenceKernel realOps (2 ^ m) row,
      entropyKernel realOps (2 ^ m) row]) :
    ∃ best, LeastArgmax row best ∧
      (∃ schedules b', runPhases (2 ^ m) kernel schedules b = some b') ∧
      (∀ schedules b', runPhases (2 ^ m) kernel schedules b = some b' →
        (∃ v, (b'.regs 0).out = some ((best : ℤ), v)) ∧
        (Correct m kernel row b schedules b' best ↔
          ∀ t < 2 ^ m, t < row.N → LateRead (2 ^ m - 1) (schedules.getD (m + 2) []) t →
            lastPartial row (2 ^ m) best = row.logit best)) ∧
      ((∀ schedules b', runPhases (2 ^ m) kernel schedules b = some b' →
          Correct m kernel row b schedules b' best) ↔
        m = 0 ∨ lastPartial row (2 ^ m) best = row.logit best) := by
  have hpos : 0 < 2 ^ m := Nat.two_pow_pos m
  obtain ⟨best, hbest⟩ := exists_leastArgmax finite hN
  -- The two kernels differ in what the first thread computes at the end.
  obtain ⟨tail, htail, rfl⟩ : ∃ tail, Finishes (2 ^ m) tail ∧
      kernel = kernelWith realOps (2 ^ m) row tail := by
    simp only [List.mem_cons, List.not_mem_nil, or_false] at hkernel
    rcases hkernel with rfl | rfl
    · exact ⟨_, finishes_writeProb realOps hpos, rfl⟩
    · exact ⟨_, finishes_entropy hpos, rfl⟩
  refine ⟨best, hbest, exists_runPhases _ _ b, fun schedules b' h => ⟨?_, ?_⟩, ?_⟩
  · exact kernelWith_index htail (fun j hj => finite.lowest_lt hj) hbest h
  · rw [correct_iff htail finite hbest h]
    exact forall_column_iff hpos fun t => LateRead (2 ^ m - 1) (schedules.getD (m + 2) []) t →
      lastPartial row (2 ^ m) best = row.logit best
  · refine Iff.trans (forall₃_congr fun schedules b' h => ?_) (forall_normaliser_iff
      Real.exp_strictMono hN b htail (fun _ hj => finite.lowest_lt hj) hbest)
    exact correct_iff_normaliser htail finite hbest h

/-- A block whose memory and registers hold zeros. -/
def zeroed : Block (Word ℝ) (Regs ℝ) :=
  ⟨fun | .vals _ => (0 : ℝ) | .idxs _ => (0 : ℤ), fun _ => ⟨0, 0, 0, none⟩⟩

theorem LeastArgmax.unique {row : Row ℝ} {best other : ℕ} (h : LeastArgmax row best)
    (h' : LeastArgmax row other) : best = other := by
  rcases h.2 other h'.1 with hlt | ⟨heq, hle⟩
  · rcases h'.2 best h.1 with hlt' | ⟨heq', -⟩
    · exact absurd hlt' hlt.not_gt
    · exact absurd heq' hlt.ne'
  · rcases h'.2 best h.1 with hlt' | ⟨-, hle'⟩
    · exact absurd heq hlt'.ne'
    · exact le_antisymm hle hle'

/-- Two equal logits `2`: every order of one thread is correct, and of two threads some order is
not, though the index is right in every order. -/
theorem kernel_correct_iff_two :
    (∀ schedules b', runPhases (2 ^ 0) (lowConfidenceKernel realOps (2 ^ 0) ⟨2, fun _ => 2⟩)
        schedules zeroed = some b' →
      Correct 0 (lowConfidenceKernel realOps (2 ^ 0) ⟨2, fun _ => 2⟩) ⟨2, fun _ => 2⟩ zeroed
        schedules b' 0) ∧
    (∀ schedules b', runPhases (2 ^ 1) (lowConfidenceKernel realOps (2 ^ 1) ⟨2, fun _ => 2⟩)
        schedules zeroed = some b' → ∃ v, (b'.regs 0).out = some ((0 : ℤ), v)) ∧
    ∃ schedules b', runPhases (2 ^ 1) (lowConfidenceKernel realOps (2 ^ 1) ⟨2, fun _ => 2⟩)
        schedules zeroed = some b' ∧
      ¬Correct 1 (lowConfidenceKernel realOps (2 ^ 1) ⟨2, fun _ => 2⟩) ⟨2, fun _ => 2⟩ zeroed
        schedules b' 0 := by
  have finite : (⟨2, fun _ => 2⟩ : Row ℝ).Finite .half := fun j _ => by
    norm_num [ScalarType.largest]
  have hfirst : LeastArgmax (⟨2, fun _ => 2⟩ : Row ℝ) 0 :=
    ⟨Nat.two_pos, fun j _ => .inr ⟨rfl, Nat.zero_le j⟩⟩
  obtain ⟨best, hbest, -, -, hone⟩ := kernel_correct_iff _ .half finite one_le_two 0
    zeroed _ List.mem_cons_self
  obtain ⟨best', hbest', -, hruns, htwo⟩ := kernel_correct_iff _ .half finite one_le_two 1
    zeroed _ List.mem_cons_self
  cases hfirst.unique hbest
  cases hfirst.unique hbest'
  refine ⟨hone.mpr (.inl rfl), fun schedules b' h => (hruns schedules b' h).1, ?_⟩
  by_contra hall
  push Not at hall
  rcases htwo.mp hall with hzero | hsame
  · cases hzero
  · -- the last thread has the second column, so its partial sum is `exp 0`
    have hcols : {j ∈ range 2 | j % 2 = 1} = ({1} : Finset ℕ) := by decide
    rw [lastPartial, show 2 ^ 1 = 2 from rfl, hcols, Finset.sum_singleton] at hsame
    norm_num at hsame

/-- A row of one logit `1` and `1024` threads: a late first thread subtracts `0` instead of `1`. -/
theorem late_thread_wrong : ∃ schedules b',
    runPhases (2 ^ 10) (lowConfidenceKernel realOps (2 ^ 10) ⟨1, fun _ => 1⟩) schedules
      zeroed = some b' ∧
    ¬∃ best, LeastArgmax (⟨1, fun _ => 1⟩ : Row ℝ) best ∧
      Correct 10 (lowConfidenceKernel realOps (2 ^ 10) ⟨1, fun _ => 1⟩) ⟨1, fun _ => 1⟩ zeroed
        schedules b' best := by
  have finite : (⟨1, fun _ => 1⟩ : Row ℝ).Finite .half := fun j _ => by
    norm_num [ScalarType.largest]
  obtain ⟨schedules, b', h, hlate⟩ := exists_late_run (m := 10) (by decide) realOps
    ⟨1, fun _ => 1⟩ [writeProbPhase realOps] zeroed
  refine ⟨schedules, b', h, ?_⟩
  rintro ⟨best, hbest, hcorrect⟩
  have hsame := (correct_iff (finishes_writeProb realOps (Nat.two_pow_pos 10)) finite hbest h).mp
    hcorrect 0 Nat.zero_lt_one hlate
  -- the last thread has no columns
  rw [lastPartial, Finset.sum_eq_zero] at hsame
  · norm_num at hsame
  · intro j hj
    obtain ⟨hj, hmod⟩ := mem_filter.mp hj
    have hzero : j = 0 := Nat.lt_one_iff.mp (mem_range.mp hj)
    rw [hzero] at hmod
    norm_num at hmod

end Runs

end FlashSample
