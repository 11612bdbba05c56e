import Mosaic.FlashSample.Kernels
import Mathlib.Algebra.BigOperators.Group.Finset.Basic
import Mathlib.Algebra.Order.Ring.Nat

/-!
# The reduction in rounds

After a round with some offset, the cells below the offset hold the results of the columns that
are congruent modulo the offset. The last round leaves the result of all columns in cell `0`. No
thread of a round stores where another one loads or stores.
-/

namespace FlashSample

open List Threads

section Winner

variable {R : Type} [LinearOrder R] {lowest : R} {val : ℕ → R} {C D : Set ℕ} {w w' : R × ℤ}

/-- The first of the largest values of some columns, `lowest` and `-1` if there are none. -/
def Winner (lowest : R) (val : ℕ → R) (C : Set ℕ) (w : R × ℤ) : Prop :=
  (C = ∅ ∧ w = (lowest, -1)) ∨
    ∃ j ∈ C, w = (val j, (j : ℤ)) ∧ ∀ k ∈ C, val k < val j ∨ val k = val j ∧ j ≤ k

/-- What a round makes of two results. -/
def better (w w' : R × ℤ) : R × ℤ :=
  if w.1 < w'.1 then w' else if w'.1 = w.1 then (w.1, min w.2 w'.2) else w

/-- A thread without columns never wins, and of two equal values the first wins. -/
theorem Winner.better (h : Winner lowest val C w) (h' : Winner lowest val D w')
    (finite : ∀ j ∈ C ∪ D, lowest < val j) : Winner lowest val (C ∪ D) (better w w') := by
  rcases h with ⟨rfl, rfl⟩ | ⟨j, hj, rfl, hbest⟩
  · -- The first thread has no columns: the second wins, or has none either.
    rcases h' with ⟨rfl, rfl⟩ | ⟨j', hj', rfl, hbest'⟩
    · refine .inl ⟨Set.union_empty _, ?_⟩
      rw [FlashSample.better, if_neg (lt_irrefl _), if_pos rfl, min_self]
    · refine .inr ⟨j', .inr hj', if_pos (finite j' (.inr hj')), ?_⟩
      rw [Set.empty_union]
      exact hbest'
  · rcases h' with ⟨rfl, rfl⟩ | ⟨j', hj', rfl, hbest'⟩
    · have hlt := finite j (.inl hj)
      refine .inr ⟨j, .inl hj, ?_, ?_⟩
      · rw [FlashSample.better, if_neg hlt.not_gt, if_neg hlt.ne]
      · rw [Set.union_empty]
        exact hbest
    · -- Both have columns: the greater value wins, and of equal values the smaller column.
      rcases lt_trichotomy (val j) (val j') with hlt | heq | hgt
      · refine .inr ⟨j', .inr hj', if_pos hlt, ?_⟩
        rintro k (hk | hk)
        · rcases hbest k hk with hk | ⟨hk, -⟩
          · exact .inl (hk.trans hlt)
          · exact .inl (hk ▸ hlt)
        · exact hbest' k hk
      · have hmin : FlashSample.better (val j, (j : ℤ)) (val j', (j' : ℤ)) =
            (val j, ((min j j' : ℕ) : ℤ)) := by
          rw [FlashSample.better, if_neg heq.not_lt, if_pos heq.symm]
          exact congrArg (Prod.mk _) (by omega)
        rcases le_total j j' with hle | hle
        · refine .inr ⟨j, .inl hj, by rw [hmin, min_eq_left hle], ?_⟩
          rintro k (hk | hk)
          · exact hbest k hk
          · rcases hbest' k hk with hk | ⟨hk, hle'⟩
            · exact .inl (heq ▸ hk)
            · exact .inr ⟨heq ▸ hk, hle.trans hle'⟩
        · refine .inr ⟨j', .inr hj', by rw [hmin, min_eq_right hle, heq], ?_⟩
          rintro k (hk | hk)
          · rcases hbest k hk with hk | ⟨hk, hle'⟩
            · exact .inl (heq ▸ hk)
            · exact .inr ⟨hk.trans heq, hle.trans hle'⟩
          · exact hbest' k hk
      · refine .inr ⟨j, .inl hj, ?_, ?_⟩
        · rw [FlashSample.better, if_neg hgt.not_gt, if_neg hgt.ne]
        · rintro k (hk | hk)
          · exact hbest k hk
          · rcases hbest' k hk with hk | ⟨hk, -⟩
            · exact .inl (hk.trans hgt)
            · exact .inl (hk ▸ hgt)

/-- The winner among some columns is determined by their values. -/
theorem Winner.unique (h : Winner lowest val C w) (h' : Winner lowest val C w') : w = w' := by
  rcases h with ⟨rfl, rfl⟩ | ⟨j, hj, rfl, hbest⟩
  · rcases h' with ⟨-, rfl⟩ | ⟨j', hj', -, -⟩
    · rfl
    · exact absurd hj' (Set.notMem_empty j')
  · rcases h' with ⟨rfl, -⟩ | ⟨j', hj', rfl, hbest'⟩
    · exact absurd hj (Set.notMem_empty j)
    · have hsame : j = j' := by
        rcases hbest j' hj' with hlt | ⟨heq, hle⟩
        · rcases hbest' j hj with hlt' | ⟨heq', -⟩
          · exact absurd hlt' hlt.not_gt
          · exact absurd heq' hlt.ne'
        · rcases hbest' j hj with hlt' | ⟨-, hle'⟩
          · exact absurd heq hlt'.ne'
          · exact le_antisymm hle hle'
      rw [hsame]

end Winner

/-! ### The columns -/

section Columns

variable {R : Type} {row : Row R} {blockSize offset tid : ℕ}

/-- The columns with a remainder. -/
def residues (N modulus r : ℕ) : Set ℕ :=
  { j | j < N ∧ j % modulus = r }

theorem mod_two_mul (hoff : 0 < offset) (j : ℕ) (ht : tid < offset) :
    j % offset = tid ↔ j % (2 * offset) = tid ∨ j % (2 * offset) = tid + offset := by
  have hlt := Nat.mod_lt j hoff
  have hmod : j % (2 * offset) = j % offset + offset * (j / offset % 2) := by
    rw [mul_comm, Nat.mod_mul]
  rcases Nat.mod_two_eq_zero_or_one (j / offset) with heven | hodd
  · rw [hmod, heven]
    omega
  · rw [hmod, hodd]
    omega

theorem residues_union (N : ℕ) (hoff : 0 < offset) (ht : tid < offset) :
    residues N (2 * offset) tid ∪ residues N (2 * offset) (tid + offset) =
      residues N offset tid := by
  ext j
  simp only [residues, Set.mem_union, Set.mem_ofPred_eq, mod_two_mul hoff j ht, ← and_or_left]

theorem mem_columns (ht : tid < blockSize) {j : ℕ} :
    j ∈ columns blockSize row tid ↔ j ∈ residues row.N blockSize tid := by
  have hpos : 0 < blockSize := Nat.zero_lt_of_lt ht
  simp only [columns, mem_range', residues, Set.mem_ofPred_eq]
  constructor
  · rintro ⟨_, hi, rfl⟩
    have hround := (Nat.le_div_iff_mul_le hpos).mp (Nat.succ_le_of_lt hi)
    rw [Nat.succ_mul, mul_comm] at hround
    refine ⟨by omega, ?_⟩
    rw [Nat.add_mul_mod_self_left, Nat.mod_eq_of_lt ht]
  · rintro ⟨hj, rfl⟩
    have hdiv := Nat.mod_add_div j blockSize
    refine ⟨j / blockSize, ?_, hdiv.symm⟩
    rw [← Nat.succ_le_iff, Nat.le_div_iff_mul_le hpos, Nat.succ_mul, mul_comm]
    omega

theorem pairwise_columns (hpos : 0 < blockSize) (row : Row R) (tid : ℕ) :
    (columns blockSize row tid).Pairwise (· < ·) :=
  pairwise_lt_range' _ hpos

end Columns

section Argmax

variable {R : Type} [LinearOrder R] {ops : FloatOps R} {val : ℕ → R}

theorem threadArgmax_winner (cols : List ℕ) (sorted : cols.Pairwise (· < ·))
    (finite : ∀ j ∈ cols, ops.lowest < val j) :
    Winner ops.lowest val { j | j ∈ cols }
      (threadArgmax ops (cols.map fun j => (j, val j))) := by
  induction cols using List.reverseRecOn with
  | nil => exact .inl ⟨Set.eq_empty_of_forall_notMem fun j hj => not_mem_nil hj, rfl⟩
  | append_singleton cols c ih =>
    have hlast := finite c (mem_append_right _ mem_cons_self)
    have hbefore : ∀ j ∈ cols, j < c := fun j hj =>
      (pairwise_append.mp sorted).2.2 j hj c mem_cons_self
    have hwin := ih (pairwise_append.mp sorted).1
      fun j hj => finite j (mem_append_left _ hj)
    rw [threadArgmax, map_append, foldl_append]
    change Winner _ _ _ (if (threadArgmax ops (cols.map fun j => (j, val j))).1 < val c then
      (val c, (c : ℤ)) else threadArgmax ops (cols.map fun j => (j, val j)))
    rcases hwin with ⟨hnone, hbest⟩ | ⟨j, hj, hbest, hall⟩
    · rw [hbest, if_pos hlast]
      refine .inr ⟨c, mem_append_right _ mem_cons_self, rfl, fun k hk => ?_⟩
      rcases mem_append.mp hk with hk | hk
      · exact absurd (show k ∈ { j | j ∈ cols } from hk) (hnone ▸ Set.notMem_empty k)
      · exact .inr (by rw [mem_singleton.mp hk]; exact ⟨rfl, le_rfl⟩)
    · rw [hbest]
      by_cases hmore : val j < val c
      · rw [if_pos hmore]
        refine .inr ⟨c, mem_append_right _ mem_cons_self, rfl, fun k hk => ?_⟩
        rcases mem_append.mp hk with hk | hk
        · rcases hall k hk with hlt | ⟨heq, -⟩
          · exact .inl (hlt.trans hmore)
          · exact .inl (heq ▸ hmore)
        · exact .inr (by rw [mem_singleton.mp hk]; exact ⟨rfl, le_rfl⟩)
      · rw [if_neg hmore]
        refine .inr ⟨j, mem_append_left _ hj, rfl, fun k hk => ?_⟩
        rcases mem_append.mp hk with hk | hk
        · exact hall k hk
        · -- a later column has to be larger to win
          rw [mem_singleton.mp hk]
          rcases (not_lt.mp hmore).lt_or_eq with hlt | heq
          · exact .inl hlt
          · exact .inr ⟨heq, (hbefore j hj).le⟩

end Argmax

/-! ### Phases without races -/

section Phases

variable {R : Type} [LinearOrder R] {ops : FloatOps R} {blockSize offset : ℕ}
  {schedule : List ℕ} {b b' : Block (Word R) (Regs R)}

/-- The results of a scan. -/
theorem scanPhase_spec {values : ℕ → List (ℕ × R)}
    (h : runPhase blockSize (scanPhase ops values) schedule b = some b') :
    ∀ t < blockSize, (b'.mem (.vals t), b'.mem (.idxs t)) = threadArgmax ops (values t) := by
  have hfree : RaceFree (start blockSize (scanPhase ops values) b).code
      (fun t => {.vals t, .idxs t}) fun t => {.vals t, .idxs t} := by
    refine .of_phase (fun t _ => ⟨.inl rfl, .inr rfl, trivial⟩) ?_
    rintro t _ hne _ (rfl | rfl) (hu | hu)
    · exact hne (Cell.vals.inj hu)
    · cases hu
    · cases hu
    · exact hne (Cell.idxs.inj hu)
  intro t ht
  obtain ⟨-, hmem⟩ := (hfree.runPhase h).1 t ht
  rw [hmem _ (.inl rfl), hmem _ (.inr rfl)]
  simp [scanPhase, Code.run]

/-- What a round touches: a thread below the offset uses its own cells and those that lie the
offset further. -/
def roundTouched (offset : ℕ) (t : ℕ) : Set Cell :=
  { a | t < offset ∧ (a = .vals t ∨ a = .idxs t ∨ a = .vals (t + offset) ∨ a = .idxs (t + offset)) }

def roundWrites (offset : ℕ) (t : ℕ) : Set Cell :=
  { a | t < offset ∧ (a = .vals t ∨ a = .idxs t) }

/-- The cells that a round stores to lie below the offset, the others that it touches above. -/
theorem roundWrites_separate (offset t u : ℕ) (hne : t ≠ u) (a : Cell)
    (ha : a ∈ roundWrites offset t) : a ∉ roundTouched offset u := by
  rintro ⟨hu, hb⟩
  obtain ⟨ht, rfl | rfl⟩ := ha
  · rcases hb with hb | hb | hb | hb
    · exact hne (Cell.vals.inj hb)
    · cases hb
    · have := Cell.vals.inj hb
      omega
    · cases hb
  · rcases hb with hb | hb | hb | hb
    · cases hb
    · exact hne (Cell.idxs.inj hb)
    · cases hb
    · have := Cell.idxs.inj hb
      omega

theorem argmaxRound_within (offset t : ℕ) (regs : Regs R) :
    (argmaxRound offset t regs).Within (roundTouched offset t) (roundWrites offset t) := by
  rw [argmaxRound]
  split
  · rename_i ht
    refine ⟨⟨ht, .inr (.inr (.inl rfl))⟩, fun otherVal => ⟨⟨ht, .inr (.inr (.inr rfl))⟩,
      fun otherIdx => ⟨⟨ht, .inl rfl⟩, fun val => ?_⟩⟩⟩
    dsimp only
    split
    · exact ⟨⟨ht, .inl rfl⟩, ⟨ht, .inr rfl⟩, trivial⟩
    · refine ⟨⟨ht, .inl rfl⟩, fun val => ?_⟩
      dsimp only
      split
      · exact ⟨⟨ht, .inr (.inl rfl)⟩, fun idx => ⟨⟨ht, .inr rfl⟩, trivial⟩⟩
      · trivial
  · trivial

/-- What a thread makes of two results alone. -/
theorem argmaxRound_run {t : ℕ} (ht : t < offset) (regs : Regs R) (m : Memory (Word R)) :
    (((argmaxRound offset t regs).run m).2 (.vals t),
        ((argmaxRound offset t regs).run m).2 (.idxs t)) =
      better (m (.vals t), m (.idxs t)) (m (.vals (t + offset)), m (.idxs (t + offset))) := by
  rw [argmaxRound, if_pos ht, better]
  by_cases hlt : (m (.vals t) : R) < m (.vals (t + offset))
  · rw [if_pos hlt]
    simp only [Code.run, if_pos hlt]
    simp
  · rw [if_neg hlt]
    by_cases heq : (m (.vals (t + offset)) : R) = m (.vals t)
    · rw [if_pos heq]
      simp only [Code.run, if_neg hlt, if_pos heq]
      simp
    · rw [if_neg heq]
      simp only [Code.run, if_neg hlt, if_neg heq]

/-- The results of a round of the search. -/
theorem argmaxRound_spec (hoff : offset ≤ blockSize)
    (h : runPhase blockSize (argmaxRound offset) schedule b = some b') :
    ∀ t < offset, (b'.mem (.vals t), b'.mem (.idxs t)) =
      better (b.mem (.vals t), b.mem (.idxs t))
        (b.mem (.vals (t + offset)), b.mem (.idxs (t + offset))) := by
  have hfree : RaceFree (start blockSize (argmaxRound offset) b).code (roundTouched offset)
      (roundWrites offset) :=
    .of_phase (fun t _ => argmaxRound_within offset t _) (roundWrites_separate offset)
  intro t ht
  obtain ⟨-, hmem⟩ := (hfree.runPhase h).1 t (ht.trans_le hoff)
  rw [hmem _ ⟨ht, .inl rfl⟩, hmem _ ⟨ht, .inr (.inl rfl)⟩]
  exact argmaxRound_run ht _ _

omit [LinearOrder R] in
theorem combineRound_within (combine : R → R → R) (offset t : ℕ) (regs : Regs R) :
    (combineRound combine offset t regs).Within (roundTouched offset t) (roundWrites offset t) := by
  rw [combineRound]
  split
  · rename_i ht
    exact ⟨⟨ht, .inl rfl⟩, fun val => ⟨⟨ht, .inr (.inr (.inl rfl))⟩,
      fun otherVal => ⟨⟨ht, .inl rfl⟩, trivial⟩⟩⟩
  · trivial

omit [LinearOrder R] in
/-- The results of a round that combines values. The last cells and the registers are kept. -/
theorem combineRound_spec {combine : R → R → R} (hoff : offset ≤ blockSize)
    (h : runPhase blockSize (combineRound combine offset) schedule b = some b') :
    (∀ t < offset, b'.mem (.vals t) =
      combine (b.mem (.vals t)) (b.mem (.vals (t + offset)))) ∧
    ∀ t < blockSize, b'.regs t = b.regs t := by
  have hfree : RaceFree (start blockSize (combineRound combine offset) b).code
      (roundTouched offset) (roundWrites offset) :=
    .of_phase (fun t _ => combineRound_within combine offset t _) (roundWrites_separate offset)
  have hrun := (hfree.runPhase h).1
  refine ⟨fun t ht => ?_, fun t ht => ?_⟩
  · rw [(hrun t (ht.trans_le hoff)).2 _ ⟨ht, .inl rfl⟩, combineRound, if_pos ht]
    simp only [Code.run, Function.update_self]
  · rw [(hrun t ht).1, combineRound]
    split
    · rfl
    · rfl

omit [LinearOrder R] in
/-- Thread `0` leaves its result in the last cells. -/
theorem broadcastPhase_spec (hpos : 0 < blockSize)
    (h : runPhase blockSize (broadcastPhase blockSize) schedule b = some b') :
    b'.mem (.vals (blockSize - 1)) = (b.mem (.vals 0) : R) ∧
      b'.mem (.idxs (blockSize - 1)) = b.mem (.idxs 0) := by
  have hfree : RaceFree (start blockSize (broadcastPhase blockSize) b).code
      (fun t => { a | t = 0 ∧ (a = .vals 0 ∨ a = .idxs 0 ∨
        a = .vals (blockSize - 1) ∨ a = .idxs (blockSize - 1)) })
      fun t => { a | t = 0 ∧ (a = .vals (blockSize - 1) ∨ a = .idxs (blockSize - 1)) } := by
    refine .of_phase (fun t _ => ?_) ?_
    · rw [broadcastPhase]
      split
      · rename_i ht
        exact ⟨⟨ht, .inl rfl⟩, fun val => ⟨⟨ht, .inl rfl⟩, ⟨ht, .inr (.inl rfl)⟩,
          fun idx => ⟨⟨ht, .inr rfl⟩, trivial⟩⟩⟩
      · trivial
    · rintro t _ hne a ⟨rfl, -⟩ ⟨rfl, -⟩
      exact hne rfl
  obtain ⟨-, hmem⟩ := (hfree.runPhase h).1 0 hpos
  rw [hmem _ ⟨rfl, .inr (.inr (.inl rfl))⟩, hmem _ ⟨rfl, .inr (.inr (.inr rfl))⟩, broadcastPhase,
    if_pos rfl]
  simp [Code.run]

end Phases

/-! ### Rounds -/

section Rounds

variable {R : Type} {blockSize m : ℕ} {b b' : Block (Word R) (Regs R)} {schedules : List (List ℕ)}

theorem offsets_zero : offsets 0 = [] := by
  rw [offsets, if_pos rfl]

theorem offsets_two_pow_half (m : ℕ) :
    offsets (2 ^ (m + 1) / 2) = 2 ^ m :: offsets (2 ^ m / 2) := by
  rw [pow_succ, Nat.mul_div_left _ (Nat.zero_lt_two), offsets,
    if_neg (Nat.two_pow_pos m).ne']

theorem length_offsets (m : ℕ) : (offsets (2 ^ m / 2)).length = m := by
  induction m with
  | zero => exact congrArg List.length offsets_zero
  | succ m ih => rw [offsets_two_pow_half, length_cons, ih]

/-- What every round leads from one offset to the next, all rounds lead to offset `1`. -/
theorem rounds_induction {round : ℕ → Phase (Word R) (Regs R)}
    (P : ℕ → Block (Word R) (Regs R) → Prop)
    (step : ∀ k < m, ∀ schedule b b', P (2 ^ (k + 1)) b →
      runPhase blockSize (round (2 ^ k)) schedule b = some b' → P (2 ^ k) b')
    (hstart : P (2 ^ m) b)
    (h : runPhases blockSize ((offsets (2 ^ m / 2)).map round) schedules b = some b') : P 1 b' := by
  induction m generalizing b schedules with
  | zero =>
    rw [show offsets (2 ^ 0 / 2) = [] from offsets_zero] at h
    cases schedules with
    | nil => exact Option.some.inj h ▸ hstart
    | cons schedule rest => cases h
  | succ m ih =>
    rw [offsets_two_pow_half] at h
    obtain ⟨schedule, rest, _, rfl, hfirst, hrest⟩ := runPhases_cons h
    exact ih (fun k hk => step k (Nat.lt_succ_of_lt hk))
      (step m (Nat.lt_succ_self m) _ _ _ hstart hfirst) hrest

end Rounds

section Search

variable {R : Type} [LinearOrder R] {ops : FloatOps R} {N m : ℕ} {val : ℕ → R}
  {b b' : Block (Word R) (Regs R)} {schedules : List (List ℕ)}

/-- The cells below an offset hold the winners of their columns. -/
def Reduced (lowest : R) (val : ℕ → R) (N offset : ℕ) (b : Block (Word R) (Regs R)) : Prop :=
  ∀ t < offset, Winner lowest val (residues N offset t) (b.mem (.vals t), b.mem (.idxs t))

theorem Reduced.round {offset blockSize : ℕ} {schedule : List ℕ} (hpos : 0 < offset)
    (hle : offset ≤ blockSize) (finite : ∀ j < N, ops.lowest < val j)
    (hred : Reduced ops.lowest val N (2 * offset) b)
    (h : runPhase blockSize (argmaxRound offset) schedule b = some b') :
    Reduced ops.lowest val N offset b' := by
  intro t ht
  rw [argmaxRound_spec hle h t ht, ← residues_union N hpos ht]
  refine (hred t (by omega)).better (hred (t + offset) (by omega)) ?_
  rintro j (hj | hj)
  · exact finite j hj.1
  · exact finite j hj.1

/-- The search leaves the first of the largest values in the last cells. -/
theorem argmaxPhases_spec {values : ℕ → List (ℕ × R)} {row : Row R}
    (hvalues : ∀ t < 2 ^ m, values t = (columns (2 ^ m) row t).map fun j => (j, val j))
    (finite : ∀ j < row.N, ops.lowest < val j)
    (h : runPhases (2 ^ m) (argmaxPhases ops (2 ^ m) values) schedules b = some b') :
    Winner ops.lowest val { j | j < row.N }
      (b'.mem (.vals (2 ^ m - 1)), b'.mem (.idxs (2 ^ m - 1))) := by
  have hpos : 0 < 2 ^ m := Nat.two_pow_pos m
  obtain ⟨b₂, hsearch, hlast⟩ := runPhases_append h
  obtain ⟨schedule, rest, b₁, -, hscan, hrounds⟩ := runPhases_cons hsearch
  obtain ⟨_, rest', _, -, hbroadcast, hend⟩ := runPhases_cons hlast
  have hscanned : Reduced ops.lowest val row.N (2 ^ m) b₁ := by
    intro t ht
    have hcols : { j | j ∈ columns (2 ^ m) row t } = residues row.N (2 ^ m) t :=
      Set.ext fun j => mem_columns ht
    rw [scanPhase_spec hscan t ht, hvalues t ht, ← hcols]
    exact threadArgmax_winner _ (pairwise_columns hpos row t)
      fun j hj => finite j ((mem_columns ht).mp hj).1
  have hreduced : Reduced ops.lowest val row.N 1 b₂ := by
    refine rounds_induction (Reduced ops.lowest val row.N) (fun k hk schedule b b' hred hrun => ?_)
      hscanned hrounds
    rw [pow_succ, mul_comm] at hred
    exact hred.round (Nat.two_pow_pos k) (Nat.pow_le_pow_right Nat.zero_lt_two hk.le) finite hrun
  have hall : residues row.N 1 0 = { j | j < row.N } := by
    ext j
    simp only [residues, Set.mem_ofPred_eq, Nat.mod_one, and_true]
  have hfirst := hreduced 0 Nat.zero_lt_one
  rw [hall] at hfirst
  obtain ⟨hval, hidx⟩ := broadcastPhase_spec hpos hbroadcast
  cases rest' with
  | nil =>
    rw [← Option.some.inj hend, hval, hidx]
    exact hfirst
  | cons schedule rest => cases hend

end Search

end FlashSample
