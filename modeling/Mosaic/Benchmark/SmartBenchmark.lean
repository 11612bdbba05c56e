import Mosaic.Control.Loop
import Mathlib.Algebra.Order.Ring.Int

/-!
# The search for the longest length that runs

The benchmark tries lengths in steps until one fails, and then bisects between the last length
that succeeded and the first that failed, with every midpoint rounded down to the precision. A
test of a length starts a server, so the report of the tests is part of the state.

Both variables of the first phase hold 0 while there is no length to hold, so a tested length 0
is taken for none.
-/

namespace Benchmark

open List Option

inductive Stage where
  | linear
  | binary
  deriving DecidableEq, Repr

/-- An entry of `report["results"]`. -/
structure TestResult where
  length : ℤ
  stage : Stage
  success : Bool
  deriving DecidableEq, Repr

def TestResult.Succeeded (r : TestResult) : Prop := r.success = true

def TestResult.Failed (r : TestResult) : Prop := r.success = false

section Model

variable (success : ℤ → Bool)

/-- A test appends its entry to the report. -/
def runTestCycle (length : ℤ) (stage : Stage) (results : List TestResult) :
    Bool × List TestResult :=
  (success length, results ++ [⟨length, stage, success length⟩])

structure LinearState where
  lastSuccessLen : ℤ
  firstFailLen : ℤ
  currentLen : ℤ
  results : List TestResult
  deriving DecidableEq, Repr

def linearBody (stepLen maxLen : ℤ) (s : LinearState) : LinearState ⊕ LinearState :=
  if s.currentLen ≤ maxLen then
    let (ok, results) := runTestCycle success s.currentLen .linear s.results
    if ok then
      .inl { s with
        lastSuccessLen := s.currentLen
        currentLen := s.currentLen + stepLen
        results }
    else
      .inr { s with firstFailLen := s.currentLen, results }
  else
    .inr s

structure BisectState where
  low : ℤ
  high : ℤ
  bestLen : ℤ
  results : List TestResult
  deriving DecidableEq, Repr

/-- The length a round of the bisection tries. -/
def midpoint (precision low high : ℤ) : ℤ :=
  let mid := (low + high) / 2
  let mid := if precision > 1 then mid / precision * precision else mid
  if mid ≤ low then low + precision else mid

def bisectBody (precision : ℤ) (s : BisectState) : BisectState ⊕ (ℤ × List TestResult) :=
  if s.high - s.low > precision then
    let mid := midpoint precision s.low s.high
    if mid ≥ s.high then
      .inr (s.bestLen, s.results)
    else
      let (ok, results) := runTestCycle success mid .binary s.results
      if ok then
        .inl { s with bestLen := mid, low := mid, results }
      else
        .inl { s with high := mid, results }
  else
    .inr (s.bestLen, s.results)

/-- The search with the report it writes, each of its loops followed for a number of rounds. -/
def runSmartBenchmark (startLen stepLen maxLen precision : ℤ) (rounds : ℕ) :
    Option (ℤ × List TestResult) := do
  let s ← Loop.run (linearBody success stepLen maxLen) rounds
    { lastSuccessLen := 0, firstFailLen := 0, currentLen := startLen, results := [] }
  if s.firstFailLen = 0 then
    return (s.lastSuccessLen, s.results)
  if s.lastSuccessLen = 0 then
    return (0, s.results)
  Loop.run (bisectBody success precision) rounds
    { low := s.lastSuccessLen, high := s.firstFailLen, bestLen := s.lastSuccessLen
      results := s.results }

end Model

variable {success : ℤ → Bool} {startLen stepLen maxLen precision low high : ℤ}

/-! ### The first phase -/

/-- A round of the first phase: all tests so far succeeded, the latest of them at the length
that is held, a step below the next one. -/
structure LinearPhase (stepLen : ℤ) (s : LinearState) : Prop where
  succeeded : ∀ r ∈ s.results, r.Succeeded
  noFailure : s.firstFailLen = 0
  latest : s.results = [] ∧ s.lastSuccessLen = 0 ∨
    (⟨s.lastSuccessLen, .linear, true⟩ ∈ s.results ∧ s.currentLen = s.lastSuccessLen + stepLen)

/-- Where the first phase is left: at the end of the lengths, or at a failed test. -/
inductive LinearEnd (stepLen : ℤ) (s : LinearState) : Prop where
  | exhausted (phase : LinearPhase stepLen s)
  | failed (before : LinearState) (phase : LinearPhase stepLen before)
      (left : s = { before with
        firstFailLen := before.currentLen
        results := before.results ++ [⟨before.currentLen, .linear, false⟩] })

/-- What a round of the first phase does. -/
theorem linearBody_cases (success : ℤ → Bool) (stepLen maxLen : ℤ) (s : LinearState) :
    (linearBody success stepLen maxLen s = .inl { s with
        lastSuccessLen := s.currentLen
        currentLen := s.currentLen + stepLen
        results := s.results ++ [⟨s.currentLen, .linear, true⟩] } ∧ s.currentLen ≤ maxLen) ∨
      linearBody success stepLen maxLen s = .inr { s with
        firstFailLen := s.currentLen
        results := s.results ++ [⟨s.currentLen, .linear, false⟩] } ∨
      linearBody success stepLen maxLen s = .inr s := by
  rcases lt_or_ge maxLen s.currentLen with outside | inRange
  · exact .inr (.inr (if_neg (Int.not_le.mpr outside)))
  · rw [linearBody, if_pos inRange, runTestCycle]
    cases success s.currentLen with
    | true => exact .inl ⟨rfl, inRange⟩
    | false => exact .inr (.inl rfl)

theorem linearBody_inl {s next : LinearState} (hstep : 1 ≤ stepLen)
    (h : linearBody success stepLen maxLen s = .inl next) (phase : LinearPhase stepLen s) :
    LinearPhase stepLen next ∧
      (maxLen + 1 - next.currentLen).toNat < (maxLen + 1 - s.currentLen).toNat := by
  rcases linearBody_cases success stepLen maxLen s with ⟨hbody, inRange⟩ | hbody | hbody
  · rw [hbody] at h
    obtain rfl := Sum.inl.inj h
    refine ⟨⟨?_, phase.noFailure, .inr ⟨?_, rfl⟩⟩, ?_⟩
    · intro r hr
      rcases mem_append.mp hr with earlier | last
      · exact phase.succeeded r earlier
      · rw [mem_singleton.mp last]
        rfl
    · exact mem_append_right _ (mem_singleton.mpr rfl)
    · dsimp only
      omega
  · rw [hbody] at h
    cases h
  · rw [hbody] at h
    cases h

theorem linearBody_inr {s last : LinearState}
    (h : linearBody success stepLen maxLen s = .inr last) (phase : LinearPhase stepLen s) :
    LinearEnd stepLen last := by
  rcases linearBody_cases success stepLen maxLen s with ⟨hbody, -⟩ | hbody | hbody
  · rw [hbody] at h
    cases h
  · rw [hbody] at h
    exact .failed s phase (Sum.inr.inj h).symm
  · rw [hbody] at h
    obtain rfl := Sum.inr.inj h
    exact .exhausted phase

/-- The first phase ends. -/
theorem exists_linearEnd (success : ℤ → Bool) (startLen maxLen : ℤ) (hstep : 1 ≤ stepLen) :
    ∃ rounds s, LinearEnd stepLen s ∧ Loop.run (linearBody success stepLen maxLen) rounds
      { lastSuccessLen := 0, firstFailLen := 0, currentLen := startLen, results := [] } =
        some s := by
  have start : LinearPhase stepLen
      { lastSuccessLen := 0, firstFailLen := 0, currentLen := startLen, results := [] } :=
    ⟨nofun, rfl, .inl ⟨rfl, rfl⟩⟩
  obtain ⟨rounds, s, last, phase, left, hrun⟩ :=
    Loop.exists_run (fun s : LinearState => (maxLen + 1 - s.currentLen).toNat)
      (fun s next phase h => linearBody_inl hstep h phase) start
  exact ⟨rounds, last, linearBody_inr left phase, hrun⟩

/-! ### The bisection -/

/-- A round of the bisection: the lower end is the best length tested so far, and the upper end
failed. -/
structure Bracket (s : BisectState) : Prop where
  nonempty : s.low < s.high
  best : s.bestLen = s.low
  succeeds : ∃ r ∈ s.results, r.length = s.low ∧ r.Succeeded
  fails : ∃ r ∈ s.results, r.length = s.high ∧ r.Failed

/-- The rounded midpoint lies strictly inside a bracket that is wider than the precision. -/
theorem midpoint_mem (hprecision : 1 ≤ precision) (wide : high - low > precision) :
    low < midpoint precision low high ∧ midpoint precision low high < high := by
  have rounded : precision > 1 →
      (low + high) / 2 / precision * precision ≤ (low + high) / 2 :=
    fun h => Int.ediv_mul_le _ (by omega)
  unfold midpoint
  dsimp only
  generalize (low + high) / 2 / precision * precision = down at rounded ⊢
  split <;> split <;> omega

/-- What a round of the bisection does. The midpoint never reaches the upper end. -/
theorem bisectBody_cases (success : ℤ → Bool) (hprecision : 1 ≤ precision) (s : BisectState) :
    (s.high ≤ s.low + precision ∧
      bisectBody success precision s = .inr (s.bestLen, s.results)) ∨
    ∃ mid, s.low < mid ∧ mid < s.high ∧
      (bisectBody success precision s = .inl { s with
          bestLen := mid, low := mid, results := s.results ++ [⟨mid, .binary, true⟩] } ∨
        bisectBody success precision s = .inl { s with
          high := mid, results := s.results ++ [⟨mid, .binary, false⟩] }) := by
  rcases lt_or_ge precision (s.high - s.low) with wide | narrow
  · obtain ⟨above, below⟩ := midpoint_mem hprecision wide
    refine .inr ⟨_, above, below, ?_⟩
    rw [bisectBody, if_pos wide, if_neg (Int.not_le.mpr below), runTestCycle]
    cases success (midpoint precision s.low s.high) with
    | true => exact .inl rfl
    | false => exact .inr rfl
  · exact .inl ⟨by omega, if_neg (Int.not_lt.mpr narrow)⟩

theorem bisectBody_inl {s next : BisectState} (hprecision : 1 ≤ precision)
    (h : bisectBody success precision s = .inl next) (bracket : Bracket s) :
    Bracket next ∧ (next.high - next.low).toNat < (s.high - s.low).toNat := by
  obtain ⟨r, hr, hlen, hend⟩ := bracket.succeeds
  obtain ⟨r', hr', hlen', hend'⟩ := bracket.fails
  rcases bisectBody_cases success hprecision s with
    ⟨-, hbody⟩ | ⟨mid, above, below, hbody | hbody⟩
  · rw [hbody] at h
    cases h
  · -- the midpoint becomes the lower end
    rw [hbody] at h
    obtain rfl := Sum.inl.inj h
    refine ⟨⟨below, rfl, ?_, r', mem_append_left _ hr', hlen', hend'⟩, ?_⟩
    · exact ⟨_, mem_append_right _ (mem_singleton.mpr rfl), rfl, rfl⟩
    · dsimp only
      omega
  · -- the midpoint becomes the upper end
    rw [hbody] at h
    obtain rfl := Sum.inl.inj h
    refine ⟨⟨above, bracket.best, ⟨r, mem_append_left _ hr, hlen, hend⟩, ?_⟩, ?_⟩
    · exact ⟨_, mem_append_right _ (mem_singleton.mpr rfl), rfl, rfl⟩
    · dsimp only
      omega

/-- The bisection is left with its lower end, when the bracket is no wider than the precision. -/
theorem bisectBody_inr {s : BisectState} {result : ℤ × List TestResult}
    (hprecision : 1 ≤ precision) (h : bisectBody success precision s = .inr result)
    (bracket : Bracket s) : result = (s.low, s.results) ∧ s.high ≤ s.low + precision := by
  rcases bisectBody_cases success hprecision s with ⟨narrow, hbody⟩ | ⟨mid, -, -, hbody | hbody⟩
  · rw [hbody] at h
    obtain rfl := Sum.inr.inj h
    exact ⟨by rw [bracket.best], narrow⟩
  · rw [hbody] at h
    cases h
  · rw [hbody] at h
    cases h

/-- The bisection ends. -/
theorem exists_bisectEnd (success : ℤ → Bool) (hprecision : 1 ≤ precision) {s : BisectState}
    (bracket : Bracket s) :
    ∃ rounds last, Bracket last ∧ last.high ≤ last.low + precision ∧
      Loop.run (bisectBody success precision) rounds s = some (last.low, last.results) := by
  have keeps : ∀ s next, Bracket s → bisectBody success precision s = .inl next →
      Bracket next ∧ (next.high - next.low).toNat < (s.high - s.low).toNat :=
    fun s next bracket h => bisectBody_inl hprecision h bracket
  obtain ⟨rounds, last, _, bracket, left, hrun⟩ := Loop.exists_run _ keeps bracket
  obtain ⟨rfl, narrow⟩ := bisectBody_inr hprecision left bracket
  exact ⟨rounds, last, bracket, narrow, hrun⟩

/-! ### The whole search -/

/-- What the search returns. Length 0 stands for no length, so a first phase that ends next to it
is not followed by a bisection, and the length that failed is a step above the returned one. -/
structure Found (stepLen precision best : ℤ) (results : List TestResult) : Prop where
  tested : (∃ r ∈ results, r.length = best ∧ r.Succeeded) ∨
    best = 0 ∧ ∀ r ∈ results, r.Failed
  bracketed : (∃ r ∈ results, r.Succeeded) → (∃ r ∈ results, r.Failed) →
    ∃ r ∈ results, r.Failed ∧ best < r.length ∧ (r.length ≤ best + precision ∨
      r.stage = .linear ∧ r.length = best + stepLen ∧ (best = 0 ∨ r.length = 0))

variable {s : LinearState}

/-- The first phase ends with all lengths tried: its last length is returned. -/
theorem LinearPhase.found (phase : LinearPhase stepLen s) :
    Found stepLen precision s.lastSuccessLen s.results where
  tested := by
    rcases phase.latest with ⟨none, hlast⟩ | ⟨latest, -⟩
    · exact .inr ⟨hlast, by simp [none]⟩
    · exact .inl ⟨_, latest, rfl, rfl⟩
  bracketed := by
    rintro - ⟨r, hr, failed⟩
    cases (phase.succeeded r hr).symm.trans failed

/-- The bisection ends: its lower end is returned. -/
theorem Bracket.found {s : BisectState} (bracket : Bracket s)
    (narrow : s.high ≤ s.low + precision) : Found stepLen precision s.low s.results where
  tested := .inl bracket.succeeds
  bracketed := by
    rintro - -
    obtain ⟨r, hr, hlen, failed⟩ := bracket.fails
    exact ⟨r, hr, failed, hlen ▸ bracket.nonempty, .inl (hlen ▸ narrow)⟩

/-- A failed first phase that holds length 0, or failed at it, returns what it holds. -/
theorem LinearPhase.found_zero (phase : LinearPhase stepLen s) (hstep : 1 ≤ stepLen)
    (zero : s.lastSuccessLen = 0 ∨ s.currentLen = 0) :
    Found stepLen precision s.lastSuccessLen (s.results ++ [⟨s.currentLen, .linear, false⟩]) where
  tested := by
    rcases phase.latest with ⟨none, hlast⟩ | ⟨latest, -⟩
    · exact .inr ⟨hlast, by simp [none, TestResult.Failed]⟩
    · exact .inl ⟨_, mem_append_left _ latest, rfl, rfl⟩
  bracketed := by
    rintro ⟨_, hr, succeeded⟩ -
    rcases phase.latest with ⟨none, -⟩ | ⟨-, next⟩
    · -- the only test failed
      rw [none, nil_append, mem_singleton] at hr
      rw [hr] at succeeded
      cases succeeded
    · refine ⟨_, mem_append_right _ (mem_singleton.mpr rfl), rfl, ?_, .inr ⟨rfl, next, zero⟩⟩
      dsimp only
      omega

/-- A failed first phase hands a bracket to the bisection. -/
theorem LinearPhase.bracket (phase : LinearPhase stepLen s) (hstep : 1 ≤ stepLen)
    (set : s.lastSuccessLen ≠ 0) :
    Bracket ⟨s.lastSuccessLen, s.currentLen, s.lastSuccessLen,
      s.results ++ [⟨s.currentLen, .linear, false⟩]⟩ := by
  rcases phase.latest with ⟨-, hlast⟩ | ⟨latest, next⟩
  · exact absurd hlast set
  · have below : s.lastSuccessLen < s.currentLen := by omega
    exact ⟨below, rfl, ⟨_, mem_append_left _ latest, rfl, rfl⟩,
      ⟨_, mem_append_right _ (mem_singleton.mpr rfl), rfl, rfl⟩⟩

/-- For every test of lengths the search returns, and further rounds do not change what it
returns. -/
theorem runSmartBenchmark_found (success : ℤ → Bool) (startLen maxLen : ℤ)
    (hstep : 1 ≤ stepLen) (hprecision : 1 ≤ precision) :
    ∃ rounds best results, Found stepLen precision best results ∧ ∀ more, rounds ≤ more →
      runSmartBenchmark success startLen stepLen maxLen precision more = some (best, results) := by
  obtain ⟨rounds, _, ended, hrun⟩ := exists_linearEnd success startLen maxLen hstep
  have hlinear := fun more (h : rounds ≤ more) => Loop.run_mono h hrun
  cases ended with
  | exhausted phase =>
    refine ⟨rounds, _, _, phase.found, fun more h => ?_⟩
    simp only [runSmartBenchmark, hlinear more h, bind_eq_bind, bind_some,
      phase.noFailure, if_true, Option.pure_def]
  | failed before phase left =>
    by_cases zero : before.currentLen = 0
    · refine ⟨rounds, _, _, phase.found_zero hstep (.inr zero), fun more h => ?_⟩
      simp only [runSmartBenchmark, hlinear more h, bind_eq_bind, bind_some, left,
        zero, if_true, Option.pure_def]
    by_cases unset : before.lastSuccessLen = 0
    · refine ⟨rounds, _, _, phase.found_zero hstep (.inl unset), fun more h => ?_⟩
      simp only [runSmartBenchmark, hlinear more h, bind_eq_bind, bind_some, left,
        zero, if_false, unset, if_true, Option.pure_def]
    · obtain ⟨further, _, bracket, narrow, hbisect⟩ :=
        exists_bisectEnd success hprecision (phase.bracket hstep unset)
      refine ⟨max rounds further, _, _, bracket.found narrow, fun more h => ?_⟩
      simp only [runSmartBenchmark, hlinear more ((le_max_left ..).trans h),
        bind_eq_bind, bind_some, left, zero, if_false, unset]
      exact Loop.run_mono ((le_max_right ..).trans h) hbisect

/-- Steps of 10 from 10 to 40, when lengths up to 23 run: the bisection finds 22 with precision
2. -/
theorem runSmartBenchmark_found_steps : ∃ rounds best results,
    Found 10 2 best results ∧ ∀ more, rounds ≤ more →
      runSmartBenchmark (fun length => decide (length ≤ 23)) 10 10 40 2 more =
        some (best, results) :=
  runSmartBenchmark_found (fun length => decide (length ≤ 23)) 10 40 (by decide) (by decide)

example : (runSmartBenchmark (fun length => decide (length ≤ 23)) 10 10 40 2 10).map Prod.fst =
    some 22 := by decide

/-- When the first length fails, 0 is returned without a bisection, however far below it is. -/
theorem runSmartBenchmark_first_failure :
    ¬ ∀ (success : ℤ → Bool) (startLen stepLen maxLen precision : ℤ),
      (∀ shorter longer, shorter ≤ longer → success longer = true → success shorter = true) →
      1 ≤ stepLen → 1 ≤ precision →
      ∃ rounds best results,
        runSmartBenchmark success startLen stepLen maxLen precision rounds =
          some (best, results) ∧
        ((∃ r ∈ results, r.length = best ∧ r.Succeeded) ∨ best = 0) ∧
        ((∃ r ∈ results, r.Failed) →
          ∃ r ∈ results, r.Failed ∧ r.length ≤ best + precision) := by
  intro claim
  obtain ⟨rounds, best, results, hrun, -, near⟩ :=
    claim (fun _ => false) 10 10 40 1 (fun _ _ _ => id) (by decide) (by decide)
  cases rounds with
  | zero => cases hrun
  | succ rounds =>
    have hreturn : runSmartBenchmark (fun _ => false) 10 10 40 1 (rounds + 1) =
        some (0, [⟨10, .linear, false⟩]) := rfl
    cases hreturn.symm.trans hrun
    simp [TestResult.Failed] at near

end Benchmark
