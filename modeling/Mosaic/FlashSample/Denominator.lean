import Mosaic.FlashSample.Reduction
import Mathlib.Data.List.TakeWhile

/-!
# The phase of the denominator

All threads load the maximum from the last cell and then store their partial sums, and no barrier
separates the loads from the stores. The last thread stores to the cell that the others load from,
so a thread that is late loads its partial sum instead of the maximum.
-/

namespace FlashSample

open List Function Threads

section LateRead

variable {last t u : ℕ} {schedule : List ℕ}

/-- The first step of a thread, its load of the maximum, comes after the third step of the last
thread, the store of its partial sum. -/
def LateRead (last : ℕ) (schedule : List ℕ) (t : ℕ) : Prop :=
  3 ≤ (schedule.takeWhile (· ≠ t)).count last

instance : Decidable (LateRead last schedule t) :=
  inferInstanceAs (Decidable (_ ≤ _))

theorem not_lateRead_self : ¬LateRead last schedule last := by
  have hnone : (schedule.takeWhile (· ≠ last)).count last = 0 := by
    refine count_eq_zero.mpr fun hmem => ?_
    simpa using mem_takeWhile_imp hmem
  rw [LateRead, hnone]
  exact Nat.not_lt_zero _

/-- Once a thread has loaded, it does not matter what follows. -/
theorem lateRead_append_of_mem (h : t ∈ schedule) (more : List ℕ) :
    LateRead last (schedule ++ more) t ↔ LateRead last schedule t := by
  have hstop : (schedule.takeWhile (· ≠ t)).length ≠ schedule.length := by
    intro hlen
    have hall := ( takeWhile_prefix (p := (· ≠ t)) (l := schedule)).eq_of_length hlen
    have hin : t ∈ schedule.takeWhile (· ≠ t) := hall.symm ▸ h
    have hne := mem_takeWhile_imp (p := fun u => decide (u ≠ t)) hin
    exact absurd rfl (of_decide_eq_true hne)
  rw [LateRead, LateRead, takeWhile_append, if_neg hstop]

theorem lateRead_append_self (h : t ∉ schedule) :
    LateRead last (schedule ++ [t]) t ↔ 3 ≤ schedule.count last := by
  have hall : schedule.takeWhile (· ≠ t) = schedule :=
    takeWhile_eq_self_iff.mpr fun u hu => decide_eq_true fun hut => h (hut ▸ hu)
  rw [LateRead, takeWhile_append, if_pos (congrArg List.length hall)]
  simp

end LateRead

section Phase

variable {R : Type} {ops : FloatOps R} {blockSize : ℕ} {row : Row R} {schedule : List ℕ}
  {b b' : Block (Word R) (Regs R)}

/-- What is left of the phase for a thread after some steps, if it loads `seen` and `idx`. -/
def denominatorRest (ops : FloatOps R) (blockSize : ℕ) (row : Row R) (seen : R) (idx : ℤ) (t : ℕ)
    (regs : Regs R) : ℕ → Code (Word R) (Regs R)
  | 0 => denominatorPhase ops blockSize row t regs
  | 1 => .load (.idxs (blockSize - 1)) fun (finalArgmaxIdx : ℤ) =>
      .store (.vals t) (threadDenominator ops blockSize row seen t) <|
      .done { regs with finalMaxVal := seen, finalArgmaxIdx }
  | 2 => .store (.vals t) (threadDenominator ops blockSize row seen t) <|
      .done { regs with finalMaxVal := seen, finalArgmaxIdx := idx }
  | _ => .done { regs with finalMaxVal := seen, finalArgmaxIdx := idx }

/-- What a thread loads as the maximum: the partial sum of the last thread if it is late. -/
def seen (ops : FloatOps R) (blockSize : ℕ) (row : Row R) (top : R) (schedule : List ℕ)
    (t : ℕ) : R :=
  if LateRead (blockSize - 1) schedule t then
    threadDenominator ops blockSize row top (blockSize - 1)
  else top

/-- The threads after the steps of a schedule. -/
structure Summing (ops : FloatOps R) (blockSize : ℕ) (row : Row R) (b : Block (Word R) (Regs R))
    (top : R) (idx : ℤ) (schedule : List ℕ) (s : Running (Word R) (Regs R)) : Prop where
  code : ∀ t < blockSize, s.code t = denominatorRest ops blockSize row
    (seen ops blockSize row top schedule t) idx t (b.regs t) (schedule.count t)
  others : ∀ t, blockSize ≤ t → s.code t = .done (b.regs t)
  lastCell : s.mem (.vals (blockSize - 1)) = if 3 ≤ schedule.count (blockSize - 1) then
    threadDenominator ops blockSize row top (blockSize - 1) else top
  idx : s.mem (.idxs (blockSize - 1)) = idx
  stored : ∀ t < blockSize, 3 ≤ schedule.count t → s.mem (.vals t) =
    threadDenominator ops blockSize row (seen ops blockSize row top schedule t) t

variable {top : R} {idx : ℤ} {s : Running (Word R) (Regs R)}

theorem seen_append_of_mem {t : ℕ} (h : t ∈ schedule) (more : List ℕ) :
    seen ops blockSize row top (schedule ++ more) t = seen ops blockSize row top schedule t := by
  rw [seen, seen]
  simp only [lateRead_append_of_mem h]

/-- The last thread is never late. -/
theorem seen_last : seen ops blockSize row top schedule (blockSize - 1) = top :=
  if_neg not_lateRead_self

theorem denominatorRest_step (ops : FloatOps R) (row : Row R) (seen : R) (t : ℕ) (regs : Regs R)
    (n : ℕ) (m : Memory (Word R))
    (hseen : n = 0 → m (.vals (blockSize - 1)) = seen)
    (hidx : m (.idxs (blockSize - 1)) = idx) :
    (denominatorRest ops blockSize row seen idx t regs n).step m =
      (denominatorRest ops blockSize row seen idx t regs (n + 1),
        if n = 2 then update m (.vals t) (threadDenominator ops blockSize row seen t)
        else m) := by
  rcases n with _ | _ | _ | n
  · obtain rfl := hseen rfl
    rfl
  · obtain rfl := hidx
    rfl
  · rfl
  · rfl

/-- Before its first step, a thread sees what is in the last cell. -/
theorem Summing.seen_of_notMem (h : Summing ops blockSize row b top idx schedule s) {u : ℕ}
    (hu : u ∉ schedule) :
    s.mem (.vals (blockSize - 1)) = seen ops blockSize row top (schedule ++ [u]) u := by
  rw [h.lastCell, seen]
  simp only [lateRead_append_self hu]

theorem Summing.step (hpos : 0 < blockSize)
    (h : Summing ops blockSize row b top idx schedule s) (u : ℕ) :
    Summing ops blockSize row b top idx (schedule ++ [u]) (step s u) := by
  have hcount (t : ℕ) (ht : t ≠ u) : (schedule ++ [u]).count t = schedule.count t := by
    rw [count_append, count_singleton, if_neg (by simpa using ht.symm), add_zero]
  have hcount_self : (schedule ++ [u]).count u = schedule.count u + 1 := by
    rw [count_append, count_singleton_self]
  have hcode (t : ℕ) (ht : t < blockSize) (hne : t ≠ u) : (Threads.step s u).code t =
      denominatorRest ops blockSize row (seen ops blockSize row top (schedule ++ [u]) t) idx t
        (b.regs t) ((schedule ++ [u]).count t) := by
    rw [step_code_of_ne s hne, h.code t ht, hcount t hne]
    by_cases hmem : t ∈ schedule
    · rw [seen_append_of_mem hmem]
    · rw [count_eq_zero.mpr hmem]
      rfl
  by_cases hu : u < blockSize
  · have hrest : s.code u = denominatorRest ops blockSize row
        (seen ops blockSize row top (schedule ++ [u]) u) idx u (b.regs u) (schedule.count u) := by
      rw [h.code u hu]
      by_cases hmem : u ∈ schedule
      · rw [seen_append_of_mem hmem]
      · rw [count_eq_zero.mpr hmem]
        rfl
    have hstep := denominatorRest_step ops row
      (seen ops blockSize row top (schedule ++ [u]) u) u (b.regs u) (schedule.count u) s.mem
      (fun hzero => h.seen_of_notMem (count_eq_zero.mp hzero)) h.idx
    rw [← hrest] at hstep
    have hmem : (Threads.step s u).mem = if schedule.count u = 2 then
        update s.mem (.vals u) (threadDenominator ops blockSize row
          (seen ops blockSize row top (schedule ++ [u]) u) u) else s.mem :=
      congrArg Prod.snd hstep
    have hkept (a : Cell) (ha : a ≠ .vals u) : (Threads.step s u).mem a = s.mem a := by
      rw [hmem]
      split
      · exact update_of_ne ha _ _
      · rfl
    refine ⟨fun t ht => ?_, fun t ht => ?_, ?_, ?_, fun t ht hdone => ?_⟩
    · by_cases htu : t = u
      · subst htu
        rw [step_code_self, hcount_self]
        exact congrArg Prod.fst hstep
      · exact hcode t ht htu
    · rw [step_code_of_ne s (by omega)]
      exact h.others t ht
    · by_cases hlast : blockSize - 1 = u
      · subst hlast
        rw [hmem, hcount_self]
        by_cases htwo : schedule.count (blockSize - 1) = 2
        · rw [if_pos htwo, update_self, seen_last, if_pos (by omega)]
        · have hiff : 3 ≤ schedule.count (blockSize - 1) + 1 ↔
            3 ≤ schedule.count (blockSize - 1) := by omega
          rw [if_neg htwo, h.lastCell]
          simp only [hiff]
      · rw [hkept _ fun heq => hlast (Cell.vals.inj heq), hcount _ hlast]
        exact h.lastCell
    · rw [hkept _ (by simp)]
      exact h.idx
    · by_cases htu : t = u
      · subst htu
        rw [hcount_self] at hdone
        rw [hmem]
        by_cases htwo : schedule.count t = 2
        · rw [if_pos htwo, update_self]
        · have hin : t ∈ schedule := count_pos_iff.mp (by omega)
          rw [if_neg htwo, h.stored t ht (by omega), seen_append_of_mem hin]
      · rw [hcount t htu] at hdone
        rw [hkept _ fun heq => htu (Cell.vals.inj heq), h.stored t ht hdone,
          seen_append_of_mem (count_pos_iff.mp (by omega))]
  · -- a thread that does not exist does nothing
    have hdone := h.others u (Nat.le_of_not_lt hu)
    have hmem : (Threads.step s u).mem = s.mem := by
      rw [Threads.step, hdone]
      rfl
    refine ⟨fun t ht => hcode t ht (by omega), fun t ht => ?_, ?_, ?_, fun t ht hcounted => ?_⟩
    · by_cases htu : t = u
      · subst htu
        rw [step_code_self, hdone]
        rfl
      · rw [step_code_of_ne s htu]
        exact h.others t ht
    · rw [hmem, h.lastCell]
      rw [hcount _ (by omega)]
    · rw [hmem]
      exact h.idx
    · rw [hcount t (by omega)] at hcounted
      rw [hmem, h.stored t ht hcounted, seen_append_of_mem (count_pos_iff.mp (by omega))]

theorem Summing.execute (hpos : 0 < blockSize) (schedule : List ℕ) :
    Summing ops blockSize row b (b.mem (.vals (blockSize - 1)))
      (b.mem (.idxs (blockSize - 1))) schedule
      (execute schedule (start blockSize (denominatorPhase ops blockSize row) b)) := by
  induction schedule using List.reverseRecOn with
  | nil =>
    refine ⟨fun t ht => start_code_of_lt ht, fun t ht => if_neg (not_lt.mpr ht), rfl, rfl,
      fun t _ h => absurd h (Nat.not_succ_le_zero 2)⟩
  | append_singleton schedule u ih =>
    rw [execute_append]
    exact ih.step hpos u

/-- What every thread stores and keeps: it uses the maximum, or the partial sum of the last thread
if it is late. -/
theorem denominatorPhase_spec (hpos : 0 < blockSize)
    (h : runPhase blockSize (denominatorPhase ops blockSize row) schedule b = some b') :
    ∀ t < blockSize,
      b'.mem (.vals t) = threadDenominator ops blockSize row
        (seen ops blockSize row (b.mem (.vals (blockSize - 1))) schedule t) t ∧
      (b'.regs t).finalArgmaxIdx = b.mem (.idxs (blockSize - 1)) := by
  obtain ⟨hmem, hregs⟩ := runPhase_eq_some h
  have hsumming : Summing ops blockSize row b _ _ schedule _ := .execute hpos schedule
  intro t ht
  have hres := hregs t ht
  rw [hsumming.code t ht] at hres
  -- only after three steps there is a result
  have hcount : 3 ≤ schedule.count t := by
    by_contra hfew
    have hcases : schedule.count t = 0 ∨ schedule.count t = 1 ∨ schedule.count t = 2 := by omega
    rcases hcases with hn | hn | hn
    · rw [hn] at hres
      cases hres
    · rw [hn] at hres
      cases hres
    · rw [hn] at hres
      cases hres
  obtain ⟨_, hn⟩ := Nat.exists_eq_add_of_le' hcount
  rw [hn] at hres
  refine ⟨hmem ▸ hsumming.stored t ht hcount, ?_⟩
  rw [← Option.some.inj hres]

end Phase

end FlashSample
