import Mosaic.FlashSample.Normaliser
import Mosaic.Tensor.MachineInt
import Mathlib.Algebra.BigOperators.Field

/-!
# The kernels with one program for each row

One kernel goes over a row once, and rescales its sum when it finds a larger logit. Another one goes
over it twice in blocks: first for the maximum and its column, then for the sum. The lanes of the
last block behind the end of the row load `-inf` the first time, and zero the second time. The
number of a program has 32 bits, and so has its product with the length of a row, unless that has
more.
-/

namespace FlashSample

open Threads Finset MachineInt

/-- A contiguous tensor of logits. -/
structure Logits (R : Type) where
  N : ℕ
  storage : ℤ → R

namespace Logits

variable {R : Type} (logits : Logits R)

def row (i : ℕ) : Row R where
  N := logits.N
  logit k := logits.storage (i * logits.N + k)

def strideM : MachineInt := ofInt logits.N

def strideN : MachineInt := ofInt 1

/-- What a program loads for the columns of its row. They have as many bits as the length. -/
def loaded (pidM : ℕ) : Row R where
  N := logits.N
  logit k := logits.storage ((binary (· * ·) ⟨false, pidM⟩ logits.strideM).value +
    (binary (· * ·) ⟨(ofInt logits.N).wide, k⟩ strideN).value)

end Logits

section Kernels

variable {R : Type} [LinearOrder R] (ops : FloatOps R) (blockSize : ℕ) (row : Row R)

/-- The variables of the loop over a row. No maximum stands for `-inf`. -/
structure Online (R : Type) where
  maxVal : Option R
  argmaxIdx : ℤ
  denominator : R

def onlineStep : Online R → ℕ → Online R
  -- all logits are larger than `-inf`, and its exponential is zero
  | ⟨none, _, denominator⟩, k =>
    ⟨some (row.logit k), k, ops.add (ops.mul denominator ops.zero) ops.one⟩
  | ⟨some maxVal, argmaxIdx, denominator⟩, k =>
    let val := row.logit k
    if maxVal < val then
      ⟨some val, k,
        ops.add (ops.mul denominator (ops.expf (ops.sub maxVal val))) ops.one⟩
    else ⟨some maxVal, argmaxIdx, ops.add denominator (ops.expf (ops.sub val maxVal))⟩

def onlinePass : ℤ × R :=
  let s := (List.range row.N).foldl (onlineStep ops row) ⟨none, 0, ops.zero⟩
  (s.argmaxIdx, ops.div ops.one s.denominator)

def onlineKernel (logits : Logits R) (pidM : ℕ) : ℤ × R :=
  onlinePass ops (logits.loaded pidM)

/-! ### Two passes -/

def numBlocks : ℕ := (MachineInt.cdiv (ofInt row.N) (ofInt blockSize)).value.toNat

def blockColumns (k : ℕ) : List ℕ := (List.range blockSize).map (k * blockSize + ·)

def maskedLogit (col : ℕ) : WithBot R := if col < row.N then (row.logit col : WithBot R) else ⊥

def blockMax (k : ℕ) : WithBot R :=
  (blockColumns blockSize k).foldr (fun col best => max (maskedLogit row col) best) ⊥

/-- The largest of the columns with the maximum. -/
def blockArgmax (k : ℕ) (maxVal : WithBot R) : ℤ :=
  (blockColumns blockSize k).foldr
    (fun col best => max (if maskedLogit row col = maxVal then (col : ℤ) else -1) best) (-1)

def firstPass (numBlocks : ℕ) : WithBot R × ℤ :=
  (List.range numBlocks).foldl (fun best k =>
    if best.1 < blockMax blockSize row k then
      (blockMax blockSize row k, blockArgmax blockSize row k (blockMax blockSize row k))
    else best) (⊥, 0)

/-- Masked lanes load zero. -/
def secondPass (maxVal : R) (numBlocks : ℕ) : R :=
  (List.range numBlocks).foldl (fun denominator k =>
    ops.add denominator ((blockColumns blockSize k).foldl (fun sum col =>
      ops.add sum (ops.expf (ops.sub (if col < row.N then row.logit col else ops.zero) maxVal)))
      ops.zero)) ops.zero

/-- Only an empty row has no maximum. -/
def twoPasses : ℤ × R :=
  let best := firstPass blockSize row (numBlocks blockSize row)
  (best.2, ops.div ops.one
    (secondPass ops blockSize row (best.1.unbotD ops.zero) (numBlocks blockSize row)))

def twoPassKernel (logits : Logits R) (pidM : ℕ) : ℤ × R :=
  twoPasses ops blockSize (logits.loaded pidM)

end Kernels

/-! ### Addresses -/

section Addresses

variable {R : Type} {logits : Logits R} {row : Row R} {blockSize i k : ℕ}

/-- The row is loaded if its address has 32 bits or is computed with more. -/
theorem Logits.loaded_logit (hrow : 2 ^ 31 ≤ logits.N ∨ i * logits.N < 2 ^ 31)
    (hk : k < logits.N) : (logits.loaded i).logit k = (logits.row i).logit k := by
  have hstart : (binary (· * ·) ⟨false, i⟩ logits.strideM).value = (i * logits.N : ℕ) := by
    rw [value_binary]
    · exact (Int.natCast_mul ..).symm
    · rcases hrow with hwide | hfits
      · refine .inr (.inl ?_)
        rw [Logits.strideM, wide_ofInt_natCast, decide_eq_true hwide]
      · refine .inr (.inr ?_)
        change Fits ((i : ℤ) * logits.N)
        rw [← Int.natCast_mul]
        exact fits_natCast hfits
  have hcol : (binary (· * ·) ⟨(ofInt logits.N).wide, k⟩ Logits.strideN).value = k := by
    rw [value_binary]
    · exact mul_one _
    · by_cases hwide : 2 ^ 31 ≤ logits.N
      · refine .inl ?_
        rw [wide_ofInt_natCast, decide_eq_true hwide]
      · refine .inr (.inr ?_)
        change Fits ((k : ℤ) * 1)
        rw [mul_one]
        exact fits_natCast (by omega)
  rw [Logits.loaded, Logits.row]
  dsimp only
  rw [hstart, hcol, Int.natCast_mul]

theorem numBlocks_eq (hpos : 0 < blockSize)
    (hblocks : row.N + blockSize ≤ 2 ^ 31 ∨ 2 ^ 31 ≤ row.N) :
    numBlocks blockSize row = (row.N + blockSize - 1) / blockSize := by
  rw [numBlocks, value_cdiv hpos hblocks, Int.toNat_natCast]

end Addresses

/-! ### Largest values -/

section Largest

variable {R : Type} [LinearOrder R] {row : Row R} {blockSize best : ℕ}

theorem foldr_max_spec {α β : Type} [LinearOrder β] (f : α → β) (b : β) (l : List α) :
    (∀ a ∈ l, f a ≤ l.foldr (fun a best => max (f a) best) b) ∧
      (l.foldr (fun a best => max (f a) best) b = b ∨
        ∃ a ∈ l, l.foldr (fun a best => max (f a) best) b = f a) := by
  induction l with
  | nil => exact ⟨nofun, .inl rfl⟩
  | cons a l ih =>
    obtain ⟨hle, heq⟩ := ih
    rw [List.foldr_cons]
    refine ⟨List.forall_mem_cons.mpr ⟨le_max_left _ _, fun a' ha' =>
      (hle a' ha').trans (le_max_right _ _)⟩, ?_⟩
    rcases max_choice (f a) (l.foldr (fun a best => max (f a) best) b) with h | h
    · exact .inr ⟨a, List.mem_cons_self, h⟩
    · rw [h]
      rcases heq with heq | ⟨a', ha', heq⟩
      · exact .inl heq
      · exact .inr ⟨a', List.mem_cons_of_mem _ ha', heq⟩

theorem mem_blockColumns (hpos : 0 < blockSize) {k col : ℕ} :
    col ∈ blockColumns blockSize k ↔ col / blockSize = k := by
  rw [blockColumns, List.mem_map]
  constructor
  · rintro ⟨_, hlane, rfl⟩
    rw [mul_comm, Nat.mul_add_div hpos, Nat.div_eq_of_lt (List.mem_range.mp hlane), add_zero]
  · rintro rfl
    exact ⟨col % blockSize, List.mem_range.mpr (Nat.mod_lt _ hpos), Nat.div_add_mod' _ _⟩

/-- The first block with the largest maximum so far. -/
theorem firstPass_spec (blockSize : ℕ) (row : Row R) (n : ℕ) :
    (∀ k < n, blockMax blockSize row k ≤ (firstPass blockSize row n).1) ∧
      (firstPass blockSize row n = (⊥, 0) ∨ ∃ k < n, firstPass blockSize row n =
          (blockMax blockSize row k, blockArgmax blockSize row k (blockMax blockSize row k)) ∧
        ∀ k' < k, blockMax blockSize row k' < blockMax blockSize row k) := by
  induction n with
  | zero => exact ⟨nofun, .inl rfl⟩
  | succ n ih =>
    obtain ⟨hle, heq⟩ := ih
    have hstep : firstPass blockSize row (n + 1) =
        if (firstPass blockSize row n).1 < blockMax blockSize row n then
          (blockMax blockSize row n, blockArgmax blockSize row n (blockMax blockSize row n))
        else firstPass blockSize row n := by
      rw [firstPass, List.range_succ, List.foldl_append]
      rfl
    rw [hstep]
    split
    · rename_i hlt
      refine ⟨fun k hk => ?_, .inr ⟨n, n.lt_succ_self, rfl, fun k' hk' =>
        (hle k' hk').trans_lt hlt⟩⟩
      rcases Nat.lt_succ_iff_lt_or_eq.mp hk with hk | rfl
      · exact (hle k hk).trans hlt.le
      · exact le_rfl
    · rename_i hge
      refine ⟨fun k hk => ?_, heq.imp_right fun ⟨k, hk, hrest⟩ => ⟨k, by omega, hrest⟩⟩
      rcases Nat.lt_succ_iff_lt_or_eq.mp hk with hk | rfl
      · exact hle k hk
      · exact not_lt.mp hge

theorem LeastArgmax.maskedLogit_le (hbest : LeastArgmax row best) (col : ℕ) :
    maskedLogit row col ≤ row.logit best := by
  unfold maskedLogit
  split
  · rename_i hcol
    rcases hbest.2 col hcol with hlt | ⟨heq, -⟩
    · exact WithBot.coe_le_coe.mpr hlt.le
    · rw [heq]
  · exact bot_le

/-- The first pass stops at the block of the first of the largest logits. -/
theorem LeastArgmax.firstPass_eq (hpos : 0 < blockSize)
    (hblocks : numBlocks blockSize row = (row.N + blockSize - 1) / blockSize)
    (hbest : LeastArgmax row best) :
    firstPass blockSize row (numBlocks blockSize row) =
      ((row.logit best : WithBot R),
        blockArgmax blockSize row (best / blockSize) (row.logit best)) := by
  have hblock : best / blockSize < numBlocks blockSize row := by
    have hlt := hbest.1
    rw [hblocks, ← Nat.succ_le_iff, Nat.le_div_iff_mul_le hpos, Nat.succ_mul]
    have := Nat.div_mul_le_self best blockSize
    omega
  have hle : ∀ k, blockMax blockSize row k ≤ row.logit best := by
    intro k
    rcases (foldr_max_spec (maskedLogit row) ⊥ (blockColumns blockSize k)).2 with h | ⟨col, -, h⟩
    · exact h.le.trans bot_le
    · exact h.le.trans (hbest.maskedLogit_le col)
  have hself : blockMax blockSize row (best / blockSize) = row.logit best := by
    refine le_antisymm (hle _) ?_
    have hmax := (foldr_max_spec (maskedLogit row) ⊥ (blockColumns blockSize _)).1 best
      ((mem_blockColumns hpos).mpr rfl)
    rwa [maskedLogit, if_pos hbest.1] at hmax
  -- blocks before it only have smaller logits
  have hbefore : ∀ k < best / blockSize, blockMax blockSize row k < row.logit best := by
    intro k hk
    rcases (foldr_max_spec (maskedLogit row) ⊥ (blockColumns blockSize k)).2 with
      h | ⟨col, hcol, h⟩
    · exact h.trans_lt (WithBot.bot_lt_coe _)
    · refine h.trans_lt ?_
      obtain rfl := (mem_blockColumns hpos).mp hcol
      have hlt : col < best := Nat.lt_of_div_lt_div hk
      rw [maskedLogit, if_pos (hlt.trans hbest.1), WithBot.coe_lt_coe]
      exact (hbest.2 col (hlt.trans hbest.1)).resolve_right fun h => absurd h.2 hlt.not_ge
  obtain ⟨hall, hfirst⟩ := firstPass_spec blockSize row (numBlocks blockSize row)
  have hreached := hall _ hblock
  rw [hself] at hreached
  rcases hfirst with h | ⟨k, -, h, hless⟩
  · rw [h] at hreached
    exact absurd hreached (WithBot.bot_lt_coe _).not_ge
  · rw [h] at hreached ⊢
    rcases lt_trichotomy k (best / blockSize) with hlt | rfl | hgt
    · exact absurd (hbefore k hlt) (not_lt.mpr hreached)
    · rw [hself]
    · have hmore := hless _ hgt
      rw [hself] at hmore
      exact absurd hmore (not_lt.mpr (hle k))

/-- The column is right if the maximum occurs only once in its block. -/
theorem LeastArgmax.blockArgmax_eq_iff (hpos : 0 < blockSize) (hbest : LeastArgmax row best) :
    blockArgmax blockSize row (best / blockSize) (row.logit best) = best ↔
      ∀ j < row.N, j / blockSize = best / blockSize → row.logit j = row.logit best → j = best := by
  obtain ⟨hle, heq⟩ := foldr_max_spec
    (fun col => if maskedLogit row col = row.logit best then (col : ℤ) else -1) (-1)
    (blockColumns blockSize (best / blockSize))
  -- Every column of the block with the value of the winner is at most the answer.
  have hlane : ∀ j < row.N, j / blockSize = best / blockSize → row.logit j = row.logit best →
      (j : ℤ) ≤ blockArgmax blockSize row (best / blockSize) (row.logit best) := by
    intro j hj hblock hsame
    have hj' := hle j ((mem_blockColumns hpos).mpr hblock)
    rwa [if_pos (by rw [maskedLogit, if_pos hj, hsame])] at hj'
  constructor
  · intro h j hj hblock hsame
    have hj' := hlane j hj hblock hsame
    rw [h] at hj'
    rcases hbest.2 j hj with hlt | ⟨-, hge⟩
    · exact absurd hsame hlt.ne
    · omega
  · intro hunique
    have hself := hlane best hbest.1 rfl rfl
    rcases heq with h | ⟨col, hcol, h⟩
    · change blockArgmax blockSize row (best / blockSize) (row.logit best) = -1 at h
      omega
    · change blockArgmax blockSize row (best / blockSize) (row.logit best) = _ at h
      rw [h]
      rw [h] at hself
      split at hself
      · rename_i hmatch
        rw [if_pos hmatch]
        rw [maskedLogit] at hmatch
        split at hmatch
        · rename_i hlt
          rw [hunique col hlt ((mem_blockColumns hpos).mp hcol) (WithBot.coe_inj.mp hmatch)]
        · cases hmatch
      · omega

end Largest

/-! ### Sums -/

/-- What is known of an exponential. -/
structure IsExp (e : ℝ → ℝ) : Prop where
  strictMono : StrictMono e
  pos : ∀ x, 0 < e x
  add : ∀ x y, e (x + y) = e x * e y

theorem isExp_exp : IsExp Real.exp := ⟨Real.exp_strictMono, Real.exp_pos, Real.exp_add⟩

theorem IsExp.zero {e : ℝ → ℝ} (he : IsExp e) : e 0 = 1 := by
  have hzero := he.add 0 0
  rw [add_zero] at hzero
  exact (mul_eq_left₀ (he.pos 0).ne').mp hzero.symm

/-- The column of the first of the largest logits, and its probability. -/
def Right (e : ℝ → ℝ) (row : Row ℝ) (out : ℤ × ℝ) : Prop :=
  ∃ best, LeastArgmax row best ∧
    out = ((best : ℤ), 1 / ∑ k ∈ range row.N, e (row.logit k - row.logit best))

section Sums

variable {e : ℝ → ℝ} {row : Row ℝ} {best blockSize m : ℕ}

theorem LeastArgmax.right_iff (h : LeastArgmax row best) (i : ℤ) (denominator : ℝ) :
    Right e row (i, 1 / denominator) ↔ i = best ∧
      denominator = ∑ k ∈ range row.N, e (row.logit k - row.logit best) := by
  constructor
  · rintro ⟨_, hother, heq⟩
    obtain rfl := h.unique hother
    obtain ⟨hi, hprob⟩ := Prod.mk.inj heq
    exact ⟨hi, by simpa using hprob⟩
  · rintro ⟨rfl, rfl⟩
    exact ⟨best, h, rfl⟩

/-- The loop over the row keeps the first of the largest logits, and the sum for it. -/
theorem online_spec (he : IsExp e) (row : Row ℝ) (n : ℕ) : ∃ best,
    LeastArgmax ⟨n + 1, row.logit⟩ best ∧
      (List.range (n + 1)).foldl (onlineStep (exactOps e) row) ⟨none, 0, 0⟩ =
        ⟨some (row.logit best), best,
          ∑ j ∈ range (n + 1), e (row.logit j - row.logit best)⟩ := by
  induction n with
  | zero =>
    refine ⟨0, ⟨Nat.zero_lt_one, fun j hj => .inr ?_⟩, ?_⟩
    · rw [Nat.lt_one_iff.mp hj]
      exact ⟨rfl, le_rfl⟩
    · rw [Finset.sum_range_one, sub_self, he.zero]
      change Online.mk _ _ ((0 : ℝ) * 0 + 1) = _
      rw [zero_mul, zero_add]
  | succ n ih =>
    obtain ⟨best, ⟨hlt, hbest⟩, heq⟩ := ih
    rw [List.range_succ, List.foldl_append, heq, List.foldl_cons, List.foldl_nil, onlineStep]
    split
    · rename_i hmore
      -- the sum so far is rescaled
      refine ⟨n + 1, ⟨Nat.lt_succ_self _, fun j hj => ?_⟩, ?_⟩
      · rcases Nat.lt_succ_iff_lt_or_eq.mp hj with hj | rfl
        · rcases hbest j hj with hless | ⟨hsame, -⟩
          · exact .inl (hless.trans hmore)
          · exact .inl (hsame.trans_lt hmore)
        · exact .inr ⟨rfl, le_rfl⟩
      · rw [Finset.sum_range_succ _ (n + 1), sub_self, he.zero]
        refine congrArg (Online.mk _ _) (congrArg (· + 1) ?_)
        change (∑ j ∈ range (n + 1), _) * e (row.logit best - row.logit (n + 1)) = _
        rw [Finset.sum_mul]
        refine Finset.sum_congr rfl fun j _ => ?_
        rw [← he.add, sub_add_sub_cancel]
    · rename_i hle
      refine ⟨best, ⟨hlt.trans (Nat.lt_succ_self _), fun j hj => ?_⟩, ?_⟩
      · rcases Nat.lt_succ_iff_lt_or_eq.mp hj with hj | rfl
        · exact hbest j hj
        · rcases (not_lt.mp hle).lt_or_eq with hless | hsame
          · exact .inl hless
          · exact .inr ⟨hsame, hlt.le⟩
      · rw [Finset.sum_range_succ _ (n + 1)]
        rfl

/-- One pass is always right. -/
theorem online_right (he : IsExp e) (hN : 1 ≤ row.N) :
    Right e row (onlinePass (exactOps e) row) := by
  obtain ⟨n, hn⟩ := Nat.exists_eq_add_of_le' hN
  obtain ⟨best, hbest, heq⟩ := online_spec he row n
  rw [← hn] at hbest heq
  refine ⟨best, hbest, ?_⟩
  rw [onlinePass]
  change (let s := (List.range row.N).foldl (onlineStep (exactOps e) row) ⟨none, 0, 0⟩
    (s.argmaxIdx, 1 / s.denominator)) = _
  rw [heq]

theorem foldl_add_range (f : ℕ → ℝ) (n : ℕ) :
    (List.range n).foldl (fun sum k => sum + f k) 0 = ∑ k ∈ range n, f k := by
  induction n with
  | zero => rfl
  | succ n ih =>
    rw [List.range_succ, List.foldl_append, ih, Finset.sum_range_succ]
    rfl

/-- The second pass sums over the lanes of all blocks. -/
theorem secondPass_eq (top : ℝ) (n : ℕ) : secondPass (exactOps e) blockSize row top n =
    ∑ col ∈ range (n * blockSize), e ((if col < row.N then row.logit col else 0) - top) := by
  have hblocks : ∀ f : ℕ → ℝ, ∑ col ∈ range (n * blockSize), f col =
      ∑ k ∈ range n, ∑ lane ∈ range blockSize, f (k * blockSize + lane) := by
    intro f
    induction n with
    | zero => rw [zero_mul, Finset.sum_range_zero, Finset.sum_range_zero]
    | succ n ih => rw [Finset.sum_range_succ, Nat.succ_mul, Finset.sum_range_add, ih]
  unfold secondPass blockColumns
  rw [hblocks]
  simp only [List.foldl_map, ← foldl_add_range]
  rfl

/-- Two passes are right if there are no masked lanes and the maximum occurs only once in its
block. -/
theorem twoPass_right_iff (he : IsExp e) (hpos : 0 < blockSize)
    (hblocks : numBlocks blockSize row = (row.N + blockSize - 1) / blockSize)
    (hbest : LeastArgmax row best) :
    Right e row (twoPasses (exactOps e) blockSize row) ↔ blockSize ∣ row.N ∧
      ∀ j < row.N, j / blockSize = best / blockSize → row.logit j = row.logit best → j = best := by
  have hkernel : twoPasses (exactOps e) blockSize row =
      (blockArgmax blockSize row (best / blockSize) (row.logit best),
        1 / ∑ col ∈ range (numBlocks blockSize row * blockSize),
          e ((if col < row.N then row.logit col else 0) - row.logit best)) := by
    rw [twoPasses, hbest.firstPass_eq hpos hblocks, ← secondPass_eq]
    rfl
  rw [hkernel, hbest.right_iff, hbest.blockArgmax_eq_iff hpos, and_comm]
  refine and_congr ?_ Iff.rfl
  -- every masked lane adds a positive term
  obtain ⟨masked, hmasked, hlt⟩ : ∃ masked, numBlocks blockSize row * blockSize =
      row.N + masked ∧ masked < blockSize := by
    have hle := Nat.div_mul_le_self (row.N + blockSize - 1) blockSize
    have hge := Nat.lt_div_mul_add (a := row.N + blockSize - 1) hpos
    rw [hblocks]
    exact ⟨(row.N + blockSize - 1) / blockSize * blockSize - row.N, by omega, by omega⟩
  have hsum : ∑ col ∈ range (numBlocks blockSize row * blockSize),
      e ((if col < row.N then row.logit col else 0) - row.logit best) =
        ∑ k ∈ range row.N, e (row.logit k - row.logit best) + masked * e (0 - row.logit best) := by
    rw [hmasked, Finset.sum_range_add]
    refine congrArg₂ (· + ·) ?_ ?_
    · refine Finset.sum_congr rfl fun k hk => ?_
      rw [if_pos (mem_range.mp hk)]
    · rw [Finset.sum_congr rfl fun k _ => by rw [if_neg (by omega)], Finset.sum_const, card_range,
        nsmul_eq_mul]
  have hterm := he.pos (0 - row.logit best)
  rw [hsum, add_eq_left, mul_eq_zero, or_iff_left hterm.ne', Nat.cast_eq_zero]
  constructor
  · rintro rfl
    exact ⟨numBlocks blockSize row, by rw [mul_comm, hmasked, add_zero]⟩
  · intro hdvd
    have hmore : blockSize ∣ row.N + masked := ⟨numBlocks blockSize row, by
      rw [mul_comm, hmasked]⟩
    exact Nat.eq_zero_of_dvd_of_lt ((Nat.dvd_add_right hdvd).mp hmore) hlt

/-- All runs of the kernel with threads are right if and only if there is one thread only or the
partial sum of the last one is the maximum. -/
theorem lowConfidence_right_iff (he : IsExp e) (hN : 1 ≤ row.N) (b : Block (Word ℝ) (Regs ℝ))
    (finite : ∀ j < row.N, -fltMax < row.logit j) (hbest : LeastArgmax row best) :
    (∀ schedules b',
        runPhases (2 ^ m) (lowConfidenceKernel (exactOps e) (2 ^ m) row) schedules b = some b' →
          ∃ out, (b'.regs 0).out = some out ∧ Right e row out) ↔
      m = 0 ∨ partialSum e row (2 ^ m) (2 ^ m - 1) (row.logit best) = row.logit best := by
  have hpos : 0 < 2 ^ m := Nat.two_pow_pos m
  rw [← forall_normaliser_iff he.strictMono hN b (finishes_writeProb _ hpos) finite hbest]
  refine forall₃_congr fun schedules b' h => ?_
  have hout : (b'.regs 0).out = some ((best : ℤ), 1 / (b'.regs 0).finalDenominator) := by
    obtain ⟨_, hv⟩ := kernelWith_index (finishes_writeProb _ hpos) finite hbest h
    obtain ⟨_, _, _, _, _, -, -, -, hend⟩ := kernelWith_split h
    have hwrite := (writeProb_out hpos hend).2
    rw [hv] at hwrite ⊢
    rw [(Prod.mk.inj (Option.some.inj hwrite)).2]
    rfl
  constructor
  · rintro ⟨out, hsome, hright⟩
    cases hout.symm.trans hsome
    exact ((hbest.right_iff _ _).mp hright).2
  · intro hsum
    exact ⟨_, hout, (hbest.right_iff _ _).mpr ⟨rfl, hsum⟩⟩

end Sums

/-! ### All kernels -/

section Same

variable {row row' : Row ℝ} {e : ℝ → ℝ} {best : ℕ}

/-- Rows with the same logits have the same results. -/
theorem LeastArgmax.congr (hN : row.N = row'.N) (h : ∀ k < row'.N, row.logit k = row'.logit k)
    (hbest : LeastArgmax row best) : LeastArgmax row' best := by
  obtain ⟨hlt, hle⟩ := hbest
  rw [hN] at hlt
  refine ⟨hlt, fun j hj => ?_⟩
  rw [← h j hj, ← h best hlt]
  exact hle j (hN ▸ hj)

theorem Right.congr (hN : row.N = row'.N) (h : ∀ k < row'.N, row.logit k = row'.logit k)
    {out : ℤ × ℝ} (hright : Right e row out) : Right e row' out := by
  obtain ⟨best, hbest, rfl⟩ := hright
  have hbest' := hbest.congr hN h
  refine ⟨best, hbest', ?_⟩
  rw [hN, Finset.sum_congr rfl fun k hk => by rw [h k (mem_range.mp hk), h best hbest'.1]]

end Same

/-- All three kernels are right, in whatever order the threads run. -/
structure FusedRight (e : ℝ → ℝ) (blockSize m : ℕ) (logits : Logits ℝ) (i : ℕ)
    (b : Block (Word ℝ) (Regs ℝ)) : Prop where
  online : Right e (logits.row i) (onlineKernel (exactOps e) logits i)
  twoPass : Right e (logits.row i) (twoPassKernel (exactOps e) blockSize logits i)
  threads : (∃ schedules b', runPhases (2 ^ m)
      (lowConfidenceKernel (exactOps e) (2 ^ m) (logits.row i)) schedules b = some b') ∧
    ∀ schedules b', runPhases (2 ^ m)
        (lowConfidenceKernel (exactOps e) (2 ^ m) (logits.row i)) schedules b = some b' →
      ∃ out, (b'.regs 0).out = some out ∧ Right e (logits.row i) out

/-- The rows start at addresses of 32 bits, and their length can be rounded up with 32 bits, unless
it has more. -/
structure AddressesFit (M N blockSize : ℕ) : Prop where
  rows : ∀ i < M, 2 ^ 31 ≤ N ∨ i * N < 2 ^ 31
  blocks : N + blockSize ≤ 2 ^ 31 ∨ 2 ^ 31 ≤ N

/-- For all rows, the kernels agree if and only if the blocks have no masked lanes, no maximum
occurs again in its block, and the kernel with threads has one thread only or the partial sum of its
last thread is the maximum. -/
theorem fused_right_iff {e : ℝ → ℝ} (he : IsExp e) (logits : Logits ℝ) (hN : 1 ≤ logits.N)
    (M : ℕ) (dtype : ScalarType) (finite : ∀ i < M, Row.Finite (logits.row i) dtype) (p m : ℕ)
    (hfit : AddressesFit M logits.N (2 ^ p)) (b : ℕ → Block (Word ℝ) (Regs ℝ)) :
    (∀ i < M, FusedRight e (2 ^ p) m logits i (b i)) ↔
      ∀ i < M, ∃ best, LeastArgmax (logits.row i) best ∧ 2 ^ p ∣ logits.N ∧
        (∀ j < logits.N, j / 2 ^ p = best / 2 ^ p →
          (logits.row i).logit j = (logits.row i).logit best → j = best) ∧
        (m = 0 ∨ partialSum e (logits.row i) (2 ^ m) (2 ^ m - 1) ((logits.row i).logit best) =
          (logits.row i).logit best) := by
  refine forall₂_congr fun i hi => ?_
  have hlowest : ∀ j < logits.N, -fltMax < (logits.row i).logit j :=
    fun j hj => (finite i hi).lowest_lt hj
  have hsame : ∀ k < logits.N, (logits.loaded i).logit k = (logits.row i).logit k :=
    fun k hk => Logits.loaded_logit (hfit.rows i hi) hk
  have hlength : (logits.loaded i).N = (logits.row i).N := rfl
  have honline : Right e (logits.row i) (onlineKernel (exactOps e) logits i) := by
    unfold onlineKernel
    exact (online_right he hN).congr hlength hsame
  have htwo {best : ℕ} (hbest : LeastArgmax (logits.row i) best) :
      Right e (logits.row i) (twoPassKernel (exactOps e) (2 ^ p) logits i) ↔ 2 ^ p ∣ logits.N ∧
        ∀ j < logits.N, j / 2 ^ p = best / 2 ^ p →
          (logits.row i).logit j = (logits.row i).logit best → j = best := by
    unfold twoPassKernel
    have hblocks : numBlocks (2 ^ p) (logits.loaded i) =
        ((logits.loaded i).N + 2 ^ p - 1) / 2 ^ p := numBlocks_eq (Nat.two_pow_pos p) hfit.blocks
    have hloaded : LeastArgmax (logits.loaded i) best :=
      hbest.congr hlength.symm fun k hk => (hsame k hk).symm
    have hiff := twoPass_right_iff he (Nat.two_pow_pos p) hblocks hloaded
    refine ⟨fun h => ?_, fun ⟨hdvd, hunique⟩ => ?_⟩
    · obtain ⟨hdvd, hunique⟩ := hiff.mp (h.congr hlength.symm fun k hk => (hsame k hk).symm)
      refine ⟨hdvd, fun j hj hblock heq => hunique j hj hblock ?_⟩
      rw [hsame j hj, hsame best hbest.1, heq]
    · have hright := hiff.mpr ⟨hdvd, fun j hj hblock heq => hunique j hj hblock <| by
        rwa [hsame j hj, hsame best hbest.1] at heq⟩
      exact hright.congr hlength hsame
  constructor
  · rintro ⟨-, htwoPass, -, hruns⟩
    obtain ⟨best, hbest⟩ := exists_leastArgmax (finite i hi) hN
    obtain ⟨hdvd, hunique⟩ := (htwo hbest).mp htwoPass
    exact ⟨best, hbest, hdvd, hunique, (lowConfidence_right_iff he hN (b i) hlowest hbest).mp hruns⟩
  · rintro ⟨best, hbest, hdvd, hunique, hthreads⟩
    exact ⟨honline, (htwo hbest).mpr ⟨hdvd, hunique⟩, exists_runPhases _ _ _,
      (lowConfidence_right_iff he hN (b i) hlowest hbest).mpr hthreads⟩

/-- Two rows of two logits. -/
def twoRows : Logits ℝ where
  N := 2
  storage o := if o = 1 then 1 else 0

/-- In blocks of one lane and with one thread. -/
theorem fused_right_iff_two_rows : FusedRight Real.exp (2 ^ 0) 0 twoRows 0 zeroed ∧
    FusedRight Real.exp (2 ^ 0) 0 twoRows 1 zeroed := by
  have hfinite : ∀ i < 2, Row.Finite (twoRows.row i) .half := fun i _ j _ => by
    dsimp only [Logits.row, twoRows]
    split <;> norm_num [ScalarType.largest]
  have hfit : AddressesFit 2 2 (2 ^ 0) := ⟨fun i hi => .inr (by omega), .inl (by decide)⟩
  have hright := fused_right_iff isExp_exp twoRows Nat.one_le_ofNat 2 .half hfinite 0 0 hfit
    fun _ => zeroed
  suffices hall : ∀ i < 2, FusedRight Real.exp (2 ^ 0) 0 twoRows i zeroed from
    ⟨hall 0 Nat.two_pos, hall 1 Nat.one_lt_two⟩
  refine hright.mpr fun i hi => ?_
  -- the largest logit of the first row is its second one
  refine ⟨1 - i, ⟨?_, fun j hj => ?_⟩, one_dvd _, fun j hj hblock _ => ?_, .inl rfl⟩
  · change 1 - i < 2
    omega
  · change j < 2 at hj
    dsimp only [Logits.row, twoRows]
    obtain rfl | rfl : i = 0 ∨ i = 1 := by omega
    · obtain rfl | rfl : j = 0 ∨ j = 1 := by omega
      · exact .inl (by norm_num)
      · exact .inr ⟨rfl, le_rfl⟩
    · obtain rfl | rfl : j = 0 ∨ j = 1 := by omega
      · exact .inr ⟨rfl, le_rfl⟩
      · exact .inr ⟨by norm_num, by norm_num⟩
  · rwa [pow_zero, Nat.div_one, Nat.div_one] at hblock

/-- Of two equal logits in a block, two passes return the second. -/
theorem two_passes_take_last : IsExp Real.exp ∧ Row.Finite (Logits.row ⟨2, fun _ => 1⟩ 0) .half ∧
    AddressesFit 1 2 (2 ^ 1) ∧ ¬Right Real.exp (Logits.row ⟨2, fun _ => 1⟩ 0)
      (twoPassKernel (exactOps Real.exp) (2 ^ 1) ⟨2, fun _ => 1⟩ 0) := by
  refine ⟨isExp_exp, fun j _ => by norm_num [ScalarType.largest, Logits.row],
    ⟨fun i hi => .inr (by omega), .inl (by decide)⟩, fun hright => ?_⟩
  have hbest : LeastArgmax (Logits.loaded ⟨2, fun _ => (1 : ℝ)⟩ 0) 0 :=
    ⟨Nat.two_pos, fun j _ => .inr ⟨rfl, j.zero_le⟩⟩
  have hunique := ((twoPass_right_iff isExp_exp (Nat.two_pow_pos 1)
    (numBlocks_eq (Nat.two_pow_pos 1) (.inl (by decide))) hbest).mp hright).2
  exact absurd (hunique 1 Nat.one_lt_two rfl rfl) Nat.one_ne_zero

end FlashSample
