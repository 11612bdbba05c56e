import Mosaic.Gemm.Exact
import Mosaic.Tensor.MachineInt

/-!
# The kernel with the integers of the machine

The kernel language computes with 32 bits unless an operand has 64. The values of a program are
the exact ones as long as the sizes leave room to be rounded up; a size that leaves none changes
its sign. What the rounds and the columns add to a pointer is exact as long as it is small.
-/

namespace Gemm

open MachineInt Int

/-- The integers of the machine as an arithmetic on indices. -/
def machineOps : IndexOps MachineInt where
  lit := ofInt
  val := value
  add := binary (· + ·)
  sub := binary (· - ·)
  mul := binary (· * ·)
  div := binary Int.tdiv
  mod := binary Int.tmod
  min := binary min
  toInt64 a := ⟨true, a.value⟩
  counter bound k := ⟨bound.wide, k⟩
  narrow := MachineInt.narrow

section MachineOps

variable (x y : MachineInt)

@[simp] theorem machineOps_lit (n : ℤ) : machineOps.lit n = ofInt n := rfl

@[simp] theorem machineOps_val : machineOps.val x = x.value := rfl

@[simp] theorem machineOps_sub : machineOps.sub x y = binary (· - ·) x y := rfl

@[simp] theorem machineOps_mul : machineOps.mul x y = binary (· * ·) x y := rfl

@[simp] theorem machineOps_toInt64 : machineOps.toInt64 x = ⟨true, x.value⟩ := rfl

@[simp] theorem machineOps_counter (k : ℕ) : machineOps.counter x k = ⟨x.wide, k⟩ := rfl

@[simp] theorem machineOps_narrow (n : ℤ) : machineOps.narrow n = MachineInt.narrow n := rfl

end MachineOps

namespace Program

/-- A program of a launch with the integers of the machine. -/
def machine (c : Config) (a : Args) (pid : ℕ) : Program MachineInt :=
  ⟨machineOps, c, a, pid⟩

section Machine

variable (c : Config) (a : Args) (pid : ℕ)

@[simp] theorem machine_ops : (machine c a pid).ops = machineOps := rfl

@[simp] theorem machine_config : (machine c a pid).config = c := rfl

@[simp] theorem machine_args : (machine c a pid).args = a := rfl

end Machine

section Accesses

variable {I : Type} (p : Program I)

/-- The element that a lane stores, and its address. -/
def storeAt (i j : ℕ) : Option (ℤ × ℤ × ℤ) :=
  if p.inM i && p.inN j then
    some (p.ops.val (p.offsM i), p.ops.val (p.offsN j), p.outPtr i j)
  else none

/-- The row of the output that a lane loads an element of the input for, and its address. -/
def loadXAt (indices : ℤ → ℤ) (i l k : ℕ) : Option (ℤ × ℤ) :=
  if k < p.rounds ∧ (p.inM i && p.inK k l) then
    some (p.ops.val (p.offsM i), p.xPtr indices i l k)
  else none

/-- The column of the output that a lane loads an element of the weight for, and its address. -/
def loadWAt (l j k : ℕ) : Option (ℤ × ℤ) :=
  if k < p.rounds ∧ (p.inK k l && p.inN j) then
    some (p.ops.val (p.offsN j), p.wPtr l j k)
  else none

end Accesses

end Program

/-- The steps of a pointer over the columns of the input: within a block, and from block to
block. -/
def StepsFit (c : Config) (K stride : ℕ) : Prop :=
  2 ^ 31 ≤ stride ∨ K ≤ c.blockSizeK ∧ (K - 1) * stride < 2 ^ 31 ∨
    c.blockSizeK < K ∧ c.blockSizeK * stride < 2 ^ 31

/-! ### The configurations -/

variable {c : Config}

/-- What the configurations have in common. -/
structure Tuned (c : Config) : Prop where
  blockSizeM : c.blockSizeM = 64 ∨ c.blockSizeM = 128 ∨ c.blockSizeM = 256
  blockSizeN : c.blockSizeN = 128 ∨ c.blockSizeN = 256
  blockSizeK : c.blockSizeK = 32 ∨ c.blockSizeK = 64
  groupSizeM : c.groupSizeM = 8

theorem tuned_of_mem (h : c ∈ autotuneConfigs) : Tuned c := by
  simp only [autotuneConfigs, List.mem_cons, List.not_mem_nil, or_false] at h
  rcases h with rfl | rfl | rfl | rfl | rfl <;> exact ⟨by decide, by decide, by decide, rfl⟩

theorem Tuned.proper (h : Tuned c) : c.Proper := by
  obtain ⟨hm, hn, hk, hg⟩ := h
  exact ⟨by omega, by omega, by omega, by omega⟩

theorem Tuned.le (h : Tuned c) :
    c.blockSizeM ≤ 256 ∧ c.blockSizeN ≤ 256 ∧ c.blockSizeK ≤ 256 := by
  obtain ⟨hm, hn, hk, -⟩ := h
  omega

namespace Program

variable {a : Args} {pid : ℕ} {i j k l : ℕ}

/-! ### Rounding up -/

theorem machine_cdiv (x : MachineInt) (size : ℕ) : (machine c a pid).cdiv x size =
    MachineInt.cdiv x (ofInt size) :=
  rfl

theorem wide_machine_cdiv (x : ℕ) {size : ℕ} (hsize : size ≤ 256) :
    ((machine c a pid).cdiv (ofInt x) size).wide = decide (2 ^ 31 ≤ x) := by
  have hnarrow : (ofInt (size : ℤ)).wide = false :=
    wide_ofInt_of_fits (fits_natCast (by omega))
  have hone : (ofInt 1).wide = false := wide_ofInt_of_fits (by decide)
  rw [machine_cdiv, MachineInt.cdiv, wide_binary, wide_binary, wide_binary, hnarrow, hone,
    Bool.or_false, Bool.or_false, Bool.or_false, wide_ofInt_natCast]

theorem value_machine_cdiv {x size : ℕ} (hpos : 0 < size)
    (h : x + size ≤ 2 ^ 31 ∨ 2 ^ 31 ≤ x) :
    ((machine c a pid).cdiv (ofInt x) size).value = (hostCdiv x size : ℕ) :=
  value_cdiv hpos h

/-- A size that has no room to be rounded up changes its sign. -/
theorem value_machine_cdiv_neg {x size : ℕ} (hsize : size ≤ 256) (hx : x < 2 ^ 31)
    (h : 2 ^ 31 < x + size) :
    ((machine c a pid).cdiv (ofInt x) size).value =
      -(((2 ^ 32 + 1 - (x + size)) / size : ℕ) : ℤ) := by
  have hround : (binary (· - ·) (binary (· + ·) (ofInt x) (ofInt size)) (ofInt 1)).value =
      -((2 ^ 32 + 1 - (x + size) : ℕ) : ℤ) := by
    rw [value_roundUp x (by omega), if_neg (by omega)]
    unfold MachineInt.narrow
    omega
  have hle : (2 ^ 32 + 1 - (x + size)) / size ≤ 2 ^ 32 + 1 - (x + size) := Nat.div_le_self _ _
  rw [machine_cdiv, MachineInt.cdiv, value_binary, hround, value_ofInt, Int.neg_tdiv, ← ofNat_tdiv]
  rw [hround, value_ofInt, Int.neg_tdiv, ← ofNat_tdiv]
  exact .inr (.inr (fits_neg_natCast (by omega)))

/-! ### The tile -/

theorem hostCdiv_mul_lt (x : ℕ) {size : ℕ} (hpos : 0 < size) :
    hostCdiv x size * size < x + size :=
  (Nat.div_mul_le_self _ _).trans_lt (by omega)

theorem hostCdiv_le_iff {x size n : ℕ} (hpos : 0 < size) :
    hostCdiv x size ≤ n ↔ x ≤ n * size := by
  have hmul : (n + 1) * size = n * size + size := Nat.succ_mul n size
  rw [← Nat.lt_succ_iff, hostCdiv, Nat.div_lt_iff_lt_mul hpos, Nat.succ_eq_add_one, hmul]
  omega

theorem rows_pos (h : pid < gridSize c a) : 0 < hostCdiv a.M c.blockSizeM :=
  Nat.pos_of_lt_mul_right h

theorem cols_pos (h : pid < gridSize c a) : 0 < hostCdiv a.N c.blockSizeN :=
  Nat.pos_of_lt_mul_left h

theorem rows_lt (hgrid : gridSize c a < 2 ^ 31) (h : pid < gridSize c a) :
    hostCdiv a.M c.blockSizeM < 2 ^ 31 :=
  (Nat.le_mul_of_pos_right _ (cols_pos h)).trans_lt hgrid

theorem cols_lt (hgrid : gridSize c a < 2 ^ 31) (h : pid < gridSize c a) :
    hostCdiv a.N c.blockSizeN < 2 ^ 31 :=
  (Nat.le_mul_of_pos_left _ (rows_pos h)).trans_lt hgrid

theorem machine_firstPidM : (machine c a pid).firstPidM =
    binary (· * ·) (binary Int.tdiv (ofInt pid)
      (binary (· * ·) (ofInt c.groupSizeM) (machine c a pid).numPidN)) (ofInt c.groupSizeM) :=
  rfl

theorem machine_groupSize : (machine c a pid).groupSize =
    binary min (binary (· - ·) (machine c a pid).numPidM (machine c a pid).firstPidM)
      (ofInt c.groupSizeM) :=
  rfl

theorem machine_pidM : (machine c a pid).pidM = binary (· + ·) (machine c a pid).firstPidM
    (binary Int.tmod (ofInt pid) (machine c a pid).groupSize) :=
  rfl

theorem machine_pidN : (machine c a pid).pidN =
    binary Int.tmod (binary Int.tdiv (ofInt pid) (machine c a pid).groupSize)
      (machine c a pid).numPidN :=
  rfl

/-- The number of columns of tiles, maybe with the other sign if there is one group only. -/
def ColsSound (c : Config) (a : Args) (pid : ℕ) : Prop :=
  (machine c a pid).numPidN.value = (hostCdiv a.N c.blockSizeN : ℕ) ∨
    (machine c a pid).numPidN.value = -((hostCdiv a.N c.blockSizeN : ℕ) : ℤ) ∧
      gridSize c a ≤ c.groupSizeM * hostCdiv a.N c.blockSizeN

theorem wide_numPidM (hc : Tuned c) :
    (machine c a pid).numPidM.wide = decide (2 ^ 31 ≤ a.M) :=
  wide_machine_cdiv _ hc.le.1

theorem wide_numPidN (hc : Tuned c) :
    (machine c a pid).numPidN.wide = decide (2 ^ 31 ≤ a.N) :=
  wide_machine_cdiv _ hc.le.2.1

theorem value_numPidInGroup (hc : Tuned c) (hN : ColsSound c a pid) :
    (binary (· * ·) (ofInt c.groupSizeM) (machine c a pid).numPidN).value =
      c.groupSizeM * (machine c a pid).numPidN.value := by
  by_cases hwide : 2 ^ 31 ≤ a.N
  · refine value_binary (.inr (.inl ?_))
    rw [wide_numPidN hc, decide_eq_true hwide]
  · have hn := hc.blockSizeN
    have hlt := hostCdiv_mul_lt a.N hc.proper.blockSizeN
    have hsmall : hostCdiv a.N c.blockSizeN * 128 < 2 ^ 31 + 256 :=
      (Nat.mul_le_mul_left _ (by omega)).trans_lt (hlt.trans (by omega))
    refine value_binary_of_fits rfl ?_
    rw [hc.groupSizeM]
    unfold Fits
    rcases hN with hN | ⟨hN, -⟩
    · rw [hN]
      omega
    · rw [hN]
      omega

section

variable (hc : Tuned c) (hgrid : gridSize c a < 2 ^ 31) (h : pid < gridSize c a)
include hc hgrid h

theorem value_firstPidM (hN : ColsSound c a pid) : (machine c a pid).firstPidM.value =
      (GroupedOrder.firstRow (hostCdiv a.N c.blockSizeN) c.groupSizeM pid : ℕ) := by
  have hdiv : (pid : ℤ).tdiv (c.groupSizeM * (machine c a pid).numPidN.value) =
      (pid / (c.groupSizeM * hostCdiv a.N c.blockSizeN) : ℕ) := by
    rcases hN with hN | ⟨hN, hone⟩
    · rw [hN, ← natCast_mul, ← ofNat_tdiv]
    · -- all numbers belong to the first group
      rw [hN, Int.mul_neg, Int.tdiv_neg, ← natCast_mul, ← ofNat_tdiv,
        Nat.div_eq_of_lt (h.trans_le hone)]
      rfl
  have hle : pid / (c.groupSizeM * hostCdiv a.N c.blockSizeN) ≤ pid := Nat.div_le_self _ _
  have hfirst := (GroupedOrder.firstRow_lt c.groupSizeM h).trans (rows_lt hgrid h)
  rw [machine_firstPidM]
  refine value_binary_of_fits ?_ (fits_natCast hfirst)
  rw [value_binary_of_fits (n := (pid / (c.groupSizeM * hostCdiv a.N c.blockSizeN) : ℕ)) _
    (fits_natCast (by omega))]
  · rfl
  · rw [value_numPidInGroup hc hN]
    exact hdiv

section

variable (hM : (machine c a pid).numPidM.value = (hostCdiv a.M c.blockSizeM : ℕ))
  (hN : ColsSound c a pid)
include hM hN

theorem value_groupSize : (machine c a pid).groupSize.value =
      (GroupedOrder.groupRows (hostCdiv a.M c.blockSizeM) c.groupSizeM
        (GroupedOrder.firstRow (hostCdiv a.N c.blockSizeN) c.groupSizeM pid) : ℕ) := by
  have hlt := GroupedOrder.firstRow_lt c.groupSizeM h
  have hrows := rows_lt hgrid h
  rw [machine_groupSize]
  refine value_binary_of_fits ?_ (fits_natCast ?_)
  · rw [value_binary_of_fits (n := (hostCdiv a.M c.blockSizeM -
        GroupedOrder.firstRow (hostCdiv a.N c.blockSizeN) c.groupSizeM pid : ℕ)) _
      (fits_natCast (by omega)), value_ofInt, GroupedOrder.groupRows]
    · omega
    · rw [hM, value_firstPidM hc hgrid h hN]
      omega
  · exact (min_le_right _ _).trans_lt (by rw [hc.groupSizeM]; omega)

theorem value_pidM : (machine c a pid).pidM.value = ((tile c a pid).1 : ℕ) := by
  have hmem := GroupedOrder.tile_mem (cols_pos h) hc.proper.groupSizeM h
  have hfits : Fits ((tile c a pid).1 : ℕ) := fits_natCast (hmem.1.trans (rows_lt hgrid h))
  rw [machine_pidM]
  refine value_binary_of_fits ?_ hfits
  have hle : pid % GroupedOrder.groupRows (hostCdiv a.M c.blockSizeM) c.groupSizeM
      (GroupedOrder.firstRow (hostCdiv a.N c.blockSizeN) c.groupSizeM pid) ≤ pid := Nat.mod_le _ _
  rw [value_firstPidM hc hgrid h hN, value_binary_of_fits (f := Int.tmod) _
    (fits_natCast (hle.trans_lt (h.trans hgrid))), ← natCast_add]
  · rfl
  · rw [value_ofInt, value_groupSize hc hgrid h hM hN, ← ofNat_tmod]

theorem value_pidN : (machine c a pid).pidN.value = ((tile c a pid).2 : ℕ) := by
  have hmem := GroupedOrder.tile_mem (cols_pos h) hc.proper.groupSizeM h
  have hfits : Fits ((tile c a pid).2 : ℕ) := fits_natCast (hmem.2.trans (cols_lt hgrid h))
  have hle : pid / GroupedOrder.groupRows (hostCdiv a.M c.blockSizeM) c.groupSizeM
      (GroupedOrder.firstRow (hostCdiv a.N c.blockSizeN) c.groupSizeM pid) ≤ pid :=
    Nat.div_le_self _ _
  rw [machine_pidN]
  refine value_binary_of_fits ?_ hfits
  rw [value_binary_of_fits (f := Int.tdiv) _ (fits_natCast (hle.trans_lt (h.trans hgrid)))]
  · -- the remainder does not depend on the sign of the number of columns
    rcases hN with hN | ⟨hN, -⟩
    · rw [hN, ← ofNat_tmod]
      rfl
    · rw [hN, tmod_neg, ← ofNat_tmod]
      rfl
  · rw [value_ofInt, value_groupSize hc hgrid h hM hN, ← ofNat_tdiv]

/-! ### The rows and columns of a tile -/

end

theorem wide_groupSize :
    (machine c a pid).groupSize.wide = decide (2 ^ 31 ≤ a.M ∨ 2 ^ 31 ≤ a.N) := by
  have hpid : (ofInt (pid : ℤ)).wide = false :=
    wide_ofInt_of_fits (fits_natCast (h.trans hgrid))
  have hgroup : (ofInt (c.groupSizeM : ℤ)).wide = false :=
    wide_ofInt_of_fits (fits_natCast (by rw [hc.groupSizeM]; omega))
  rw [machine_groupSize, machine_firstPidM]
  simp only [wide_binary, hpid, hgroup, wide_numPidM hc, wide_numPidN hc, Bool.or_false,
    Bool.false_or, Bool.decide_or]

theorem wide_pidM (hwide : 2 ^ 31 ≤ a.M ∨ 2 ^ 31 ≤ a.N) : (machine c a pid).pidM.wide = true := by
  rw [machine_pidM, wide_binary, wide_binary, wide_groupSize hc hgrid h, decide_eq_true hwide,
    Bool.or_true, Bool.or_true]

theorem wide_pidN : (machine c a pid).pidN.wide = decide (2 ^ 31 ≤ a.M ∨ 2 ^ 31 ≤ a.N) := by
  have hpid : (ofInt (pid : ℤ)).wide = false :=
    wide_ofInt_of_fits (fits_natCast (h.trans hgrid))
  rw [machine_pidN, wide_binary, wide_binary, hpid, wide_groupSize hc hgrid h, wide_numPidN hc,
    Bool.false_or, ← Bool.decide_or]
  exact decide_eq_decide.mpr ⟨fun h => h.elim id .inr, .inl⟩

end

theorem machine_offsM (i : ℕ) : (machine c a pid).offsM i = binary (· + ·)
    (binary (· * ·) (machine c a pid).pidM (ofInt c.blockSizeM)) (ofInt i) :=
  rfl

theorem machine_offsN (j : ℕ) : (machine c a pid).offsN j = binary (· + ·)
    (binary (· * ·) (machine c a pid).pidN (ofInt c.blockSizeN)) (ofInt j) :=
  rfl

theorem value_offs {q : MachineInt} {t : ℕ} (size i : ℕ) (hq : q.value = t)
    (h : q.wide = true ∨ t * size + i < 2 ^ 31) :
    (binary (· + ·) (binary (· * ·) q (ofInt size)) (ofInt i)).value = (t * size + i : ℕ) := by
  have hmul : (binary (· * ·) q (ofInt size)).value = (t * size : ℕ) := by
    rcases h with h | h
    · rw [value_binary (.inl h), hq, value_ofInt, natCast_mul]
    · exact value_binary_of_fits (by rw [hq, value_ofInt, natCast_mul])
        (fits_natCast ((Nat.le_add_right _ _).trans_lt h))
  rcases h with h | h
  · rw [value_binary (.inl (by rw [wide_binary, h, Bool.true_or])), hmul, value_ofInt,
      natCast_add]
  · exact value_binary_of_fits (by rw [hmul, value_ofInt, natCast_add]) (fits_natCast h)

/-- The last lane of a tile may lie behind the end, by less than the tile. -/
theorem offs_lt {x size t i : ℕ} (ht : t < hostCdiv x size) (hi : i < size) :
    t * size + i + 1 < x + size := by
  have hlt := hostCdiv_mul_lt x (Nat.zero_lt_of_lt hi)
  have hle := Nat.mul_le_mul_right size (Nat.succ_le_of_lt ht)
  rw [Nat.succ_mul] at hle
  omega

section

variable (hc : Tuned c) (hgrid : gridSize c a < 2 ^ 31) (h : pid < gridSize c a)
  (hM : a.M + c.blockSizeM ≤ 2 ^ 31 ∨ 2 ^ 31 ≤ a.M)
include hc hgrid h hM

theorem value_offsM (hN : ColsSound c a pid) (hi : i < c.blockSizeM) :
    ((machine c a pid).offsM i).value = (row c a pid i : ℕ) := by
  have hmem := GroupedOrder.tile_mem (cols_pos h) hc.proper.groupSizeM h
  have hcount : (machine c a pid).numPidM.value = (hostCdiv a.M c.blockSizeM : ℕ) :=
    value_machine_cdiv hc.proper.blockSizeM hM
  rw [machine_offsM]
  refine value_offs _ _ (value_pidM hc hgrid h hcount hN) ?_
  rcases hM with hM | hM
  · have hlt := offs_lt hmem.1 hi
    exact .inr (by rw [tile]; omega)
  · exact .inl (wide_pidM hc hgrid h (.inl hM))

theorem value_offsN (hN : a.N + c.blockSizeN ≤ 2 ^ 31 + 1 ∨ 2 ^ 31 ≤ a.N)
    (hsound : ColsSound c a pid) (hj : j < c.blockSizeN) :
    ((machine c a pid).offsN j).value = (col c a pid j : ℕ) := by
  have hmem := GroupedOrder.tile_mem (cols_pos h) hc.proper.groupSizeM h
  have hcount : (machine c a pid).numPidM.value = (hostCdiv a.M c.blockSizeM : ℕ) :=
    value_machine_cdiv hc.proper.blockSizeM hM
  rw [machine_offsN]
  refine value_offs _ _ (value_pidN hc hgrid h hcount hsound) ?_
  rcases hN with hN | hN
  · have hlt := offs_lt hmem.2 hj
    exact .inr (by rw [tile]; omega)
  · refine .inl ?_
    rw [wide_pidN hc hgrid h, decide_eq_true (.inr hN)]

end

theorem colsSound (hc : Tuned c) (hN : a.N + c.blockSizeN ≤ 2 ^ 31 ∨ 2 ^ 31 ≤ a.N ∨
      a.N + c.blockSizeN = 2 ^ 31 + 1 ∧ a.M ≤ c.groupSizeM * c.blockSizeM) :
    ColsSound c a pid := by
  have hn := hc.blockSizeN
  rcases hN with hN | hN | ⟨hN, hone⟩
  · exact .inl (value_machine_cdiv hc.proper.blockSizeN (.inl hN))
  · exact .inl (value_machine_cdiv hc.proper.blockSizeN (.inr hN))
  · have hcols : hostCdiv a.N c.blockSizeN =
        (2 ^ 32 + 1 - (a.N + c.blockSizeN)) / c.blockSizeN := by
      rw [hostCdiv, hN]
      exact congrArg (· / c.blockSizeN) (by omega)
    refine .inr ⟨?_, Nat.mul_le_mul_right _ ((hostCdiv_le_iff hc.proper.blockSizeM).mpr hone)⟩
    rw [hcols]
    have hlt : a.N < 2 ^ 31 := by omega
    have hover : 2 ^ 31 < a.N + c.blockSizeN := by omega
    exact value_machine_cdiv_neg hc.le.2.1 hlt hover

/-! ### The rounds -/

theorem machine_rounds : (machine c a pid).rounds =
    ((machine c a pid).cdiv (ofInt a.K) c.blockSizeK).value.toNat := by
  simp only [rounds, machine_ops, machine_config, machine_args, machineOps_val, machineOps_lit]

theorem machine_inK_iff (k l : ℕ) : (machine c a pid).inK k l = true ↔
    (ofInt l).value < (binary (· - ·) (ofInt a.K) (binary (· * ·)
      ⟨((machine c a pid).cdiv (ofInt a.K) c.blockSizeK).wide, k⟩ (ofInt c.blockSizeK))).value := by
  dsimp only [inK]
  rw [decide_eq_true_eq]
  simp only [offsK, machine_ops, machine_config, machine_args, machineOps_val, machineOps_lit,
    machineOps_sub, machineOps_mul, machineOps_counter]

section

variable (hK : a.K + c.blockSizeK ≤ 2 ^ 31 ∨ 2 ^ 31 ≤ a.K) (hc : Tuned c)
include hK hc

theorem value_remaining (hk : k * c.blockSizeK ≤ a.K) : (binary (· - ·) (ofInt a.K) (binary (· * ·)
      ⟨((machine c a pid).cdiv (ofInt a.K) c.blockSizeK).wide, k⟩ (ofInt c.blockSizeK))).value =
      (a.K - k * c.blockSizeK : ℕ) := by
  have hpos := hc.proper.blockSizeK
  rw [wide_machine_cdiv _ hc.le.2.2]
  have hmul : (binary (· * ·) ⟨decide (2 ^ 31 ≤ a.K), k⟩ (ofInt c.blockSizeK)).value =
      (k * c.blockSizeK : ℕ) := by
    rcases hK with hK | hK
    · exact value_binary_of_fits (natCast_mul _ _).symm (fits_natCast (by omega))
    · rw [value_binary (.inl (decide_eq_true hK)), value_ofInt, natCast_mul]
  rcases hK with hK | hK
  · exact value_binary_of_fits (by rw [hmul, value_ofInt, ofNat_sub hk])
      (fits_natCast (by omega))
  · have hwide : (ofInt (a.K : ℤ)).wide = true := by
      rw [wide_ofInt_natCast, decide_eq_true hK]
    rw [value_binary (.inl hwide), hmul, value_ofInt, ofNat_sub hk]

/-- The columns of the input that a lane sees. -/
theorem machine_inK : (k < (machine c a pid).rounds ∧ (machine c a pid).inK k l = true) ↔
      k * c.blockSizeK + l < a.K := by
  have hrounds : (machine c a pid).rounds = hostCdiv a.K c.blockSizeK := by
    rw [machine_rounds, value_machine_cdiv hc.proper.blockSizeK hK, toNat_natCast]
  have hlt : k < hostCdiv a.K c.blockSizeK ↔ k * c.blockSizeK < a.K := by
    rw [← not_le, hostCdiv_le_iff hc.proper.blockSizeK, not_le]
  rw [hrounds, hlt]
  constructor
  · rintro ⟨hk, hin⟩
    rw [machine_inK_iff, value_remaining hK hc hk.le, value_ofInt] at hin
    omega
  · intro h
    have hk : k * c.blockSizeK < a.K := (Nat.le_add_right _ _).trans_lt h
    refine ⟨hk, ?_⟩
    rw [machine_inK_iff, value_remaining hK hc hk.le, value_ofInt]
    omega

end

theorem exact_inK_iff (hc : Tuned c) :
    (k < (exact c a pid).rounds ∧ (exact c a pid).inK k l = true) ↔
      k * c.blockSizeK + l < a.K := by
  rw [exact_rounds hc.proper, exact_inK, decide_eq_true_eq, ← not_le,
    hostCdiv_le_iff hc.proper.blockSizeK]
  omega

/-! ### Addresses -/

/-- What the rounds before and the lane add to a pointer along the columns of the input. -/
def steps (c : Config) (stride l k : ℕ) : ℤ :=
  (binary (· * ·) (ofInt l) (ofInt stride)).value +
    k * (binary (· * ·) (ofInt c.blockSizeK) (ofInt stride)).value

theorem steps_zero (c : Config) (stride : ℕ) : steps c stride 0 0 = 0 := by
  rw [steps, (value_mul_ofInt_iff (by omega)).mpr (.inr (by omega)), Nat.cast_zero, zero_mul,
    zero_mul, add_zero]

theorem stepsFit_iff (hc : Tuned c) (K stride : ℕ) : StepsFit c K stride ↔
    ∀ l < c.blockSizeK, ∀ k, k * c.blockSizeK + l < K →
      steps c stride l k = ((k * c.blockSizeK + l : ℕ) : ℤ) * stride := by
  have hpos := hc.proper.blockSizeK
  have hle := hc.le.2.2
  constructor
  · intro hfit l hl k hlt
    have hlane : (binary (· * ·) (ofInt l) (ofInt stride)).value = l * stride := by
      refine (value_mul_ofInt_iff (by omega)).mpr ?_
      rcases hfit with hwide | ⟨-, hsmall⟩ | ⟨-, hsmall⟩
      · exact .inl hwide
      · exact .inr ((Nat.mul_le_mul_right _ (by omega)).trans_lt hsmall)
      · exact .inr ((Nat.mul_le_mul_right _ hl.le).trans_lt hsmall)
    rw [steps, hlane]
    rcases Nat.eq_zero_or_pos k with rfl | hk
    · push_cast
      ring
    · have hblock : (binary (· * ·) (ofInt c.blockSizeK) (ofInt stride)).value =
          c.blockSizeK * stride := by
        refine (value_mul_ofInt_iff (by omega)).mpr ?_
        have hround : c.blockSizeK ≤ k * c.blockSizeK := Nat.le_mul_of_pos_left _ hk
        rcases hfit with hwide | ⟨hone, -⟩ | ⟨-, hsmall⟩
        · exact .inl hwide
        · omega
        · exact .inr hsmall
      rw [hblock]
      push_cast
      ring
  · intro exact
    rw [StepsFit]
    by_cases hone : K ≤ c.blockSizeK
    · rcases Nat.eq_zero_or_pos K with rfl | hK
      · exact .inr (.inl ⟨hone, by rw [Nat.zero_sub, zero_mul]; omega⟩)
      · -- the last lane of the only round
        have hlast := exact (K - 1) (by omega) 0 (by omega)
        rw [steps, Nat.cast_zero, zero_mul, add_zero, zero_mul, zero_add,
          value_mul_ofInt_iff (by omega)] at hlast
        exact hlast.imp_right fun hsmall => .inl ⟨hone, hsmall⟩
    · -- the first lane of the second round
      have hsecond := exact 0 hpos 1 (by omega)
      rw [steps, (value_mul_ofInt_iff (by omega)).mpr (.inr (by omega)), Nat.cast_zero, zero_mul,
        zero_add, Nat.cast_one, one_mul, one_mul, add_zero,
        value_mul_ofInt_iff (by omega)] at hsecond
      exact hsecond.imp_right fun hsmall => .inr ⟨by omega, hsmall⟩

theorem machine_xPtr (indices : ℤ → ℤ) (i l k : ℕ) : (machine c a pid).xPtr indices i l k =
    ((machine c a pid).rowIndex indices i).value * a.strideXm + steps c a.strideXk l k := by
  induction k with
  | zero =>
    rw [xPtr, steps, Nat.cast_zero, zero_mul, add_zero]
    have hrow (v : MachineInt) : (binary (· * ·) ⟨true, v.value⟩ (ofInt a.strideXm)).value =
        v.value * a.strideXm := value_binary (.inl rfl)
    rw [offsK, machine_ops, machine_args, machineOps_val, machineOps_val, machineOps_mul,
      machineOps_mul, machineOps_toInt64, machineOps_lit, machineOps_lit, machineOps_lit, hrow]
  | succ k ih =>
    rw [xPtr, ih, steps, steps, machine_ops, machine_config, machine_args, machineOps_val,
      machineOps_mul, machineOps_lit, machineOps_lit]
    push_cast
    ring

theorem machine_wPtr (l j k : ℕ) : (machine c a pid).wPtr l j k = steps c a.strideWk l k +
    (binary (· * ·) ((machine c a pid).offsN j) (ofInt a.strideWn)).value := by
  induction k with
  | zero =>
    rw [wPtr, steps, Nat.cast_zero, zero_mul, add_zero, offsK, machine_ops, machine_args,
      machineOps_val, machineOps_val, machineOps_mul, machineOps_mul, machineOps_lit,
      machineOps_lit, machineOps_lit]
  | succ k ih =>
    rw [wPtr, ih, steps, steps, machine_ops, machine_config, machine_args, machineOps_val,
      machineOps_mul, machineOps_lit, machineOps_lit]
    push_cast
    ring

theorem machine_outPtr (i j : ℕ) : (machine c a pid).outPtr i j =
    a.strideOm * ((machine c a pid).offsM i).value +
      a.strideOn * ((machine c a pid).offsN j).value := by
  have hwide (stride : ℕ) (v : MachineInt) :
      (binary (· * ·) (ofInt stride) ⟨true, v.value⟩).value = stride * v.value :=
    value_binary (.inr (.inl rfl))
  rw [outPtr, machine_ops, machine_args, machineOps_val, machineOps_val, machineOps_mul,
    machineOps_mul, machineOps_toInt64, machineOps_toInt64, machineOps_lit, machineOps_lit, hwide,
    hwide]

/-! ### Accesses -/

theorem machine_inM_iff (i : ℕ) :
    (machine c a pid).inM i = true ↔ ((machine c a pid).offsM i).value < a.M := by
  rw [inM, decide_eq_true_eq, machine_ops, machine_args, machineOps_val, machineOps_val,
    machineOps_lit, value_ofInt]

theorem machine_inN_iff (j : ℕ) :
    (machine c a pid).inN j = true ↔ ((machine c a pid).offsN j).value < a.N := by
  rw [inN, decide_eq_true_eq, machine_ops, machine_args, machineOps_val, machineOps_val,
    machineOps_lit, value_ofInt]

theorem machine_storeAt (i j : ℕ) : (machine c a pid).storeAt i j =
    if ((machine c a pid).offsM i).value < a.M ∧ ((machine c a pid).offsN j).value < a.N then
      some (((machine c a pid).offsM i).value, ((machine c a pid).offsN j).value,
        a.strideOm * ((machine c a pid).offsM i).value +
          a.strideOn * ((machine c a pid).offsN j).value)
    else none := by
  rw [storeAt, machine_outPtr]
  simp only [Bool.and_eq_true, machine_inM_iff, machine_inN_iff, machine_ops, machineOps_val]

section

variable (hc : Tuned c) (h : pid < gridSize c a)
include hc h

theorem exact_storeAt (i j : ℕ) :
    (exact c a pid).storeAt i j = if row c a pid i < a.M ∧ col c a pid j < a.N then
      some ((row c a pid i : ℤ), (col c a pid j : ℤ),
        a.strideOm * (row c a pid i : ℤ) + a.strideOn * (col c a pid j : ℤ)) else none := by
  rw [storeAt, exact_outPtr hc.proper h, exact_inM hc.proper h, exact_inN hc.proper h,
    exact_offsM hc.proper h, exact_offsN hc.proper h, ← Bool.decide_and]
  simp only [decide_eq_true_eq]
  rfl

/-- What is stored tells the row and the column. -/
theorem offs_of_storeAt (same : (machine c a pid).storeAt i j = (exact c a pid).storeAt i j)
    (hi : row c a pid i < a.M) (hj : col c a pid j < a.N) :
    ((machine c a pid).offsM i).value = row c a pid i ∧
      ((machine c a pid).offsN j).value = col c a pid j := by
  rw [machine_storeAt, (exact_storeAt hc h i j).trans (if_pos ⟨hi, hj⟩)] at same
  split at same
  · obtain ⟨hrow, hrest⟩ := Prod.mk.inj (Option.some.inj same)
    exact ⟨hrow, (Prod.mk.inj hrest).1⟩
  · cases same

theorem storeAt_of_offs (hrow : ((machine c a pid).offsM i).value = row c a pid i)
    (hcol : ((machine c a pid).offsN j).value = col c a pid j) :
    (machine c a pid).storeAt i j = (exact c a pid).storeAt i j := by
  rw [machine_storeAt, exact_storeAt hc h, hrow, hcol]
  simp only [ofNat_lt]

end

theorem machine_loadXAt (hK : a.K + c.blockSizeK ≤ 2 ^ 31 ∨ 2 ^ 31 ≤ a.K) (hc : Tuned c)
    (indices : ℤ → ℤ) (hi : ((machine c a pid).offsM i).value = row c a pid i) :
    (machine c a pid).loadXAt indices i l k =
      if k * c.blockSizeK + l < a.K ∧ row c a pid i < a.M then
        some ((row c a pid i : ℤ),
          MachineInt.narrow (indices (row c a pid i)) * a.strideXm + steps c a.strideXk l k)
      else none := by
  have hmask : (k < (machine c a pid).rounds ∧
      ((machine c a pid).inM i && (machine c a pid).inK k l) = true) ↔
        k * c.blockSizeK + l < a.K ∧ row c a pid i < a.M := by
    rw [Bool.and_eq_true, machine_inM_iff, hi, ofNat_lt, and_left_comm, and_comm, machine_inK hK hc]
  rw [loadXAt, machine_xPtr]
  by_cases haccess : k * c.blockSizeK + l < a.K ∧ row c a pid i < a.M
  · have hin : (machine c a pid).inM i = true := by
      rw [machine_inM_iff, hi]
      exact ofNat_lt.mpr haccess.2
    rw [if_pos (hmask.mpr haccess), if_pos haccess, rowIndex, if_pos hin, machine_ops,
      machineOps_val, machineOps_lit, machineOps_narrow, value_ofInt, hi]
  · rw [if_neg (mt hmask.mp haccess), if_neg haccess]

theorem exact_loadXAt (hc : Tuned c) (h : pid < gridSize c a) (indices : ℤ → ℤ) (i l k : ℕ) :
    (exact c a pid).loadXAt indices i l k =
      if k * c.blockSizeK + l < a.K ∧ row c a pid i < a.M then
        some ((row c a pid i : ℤ), indices (row c a pid i) * a.strideXm +
          ((k * c.blockSizeK + l : ℕ) : ℤ) * a.strideXk)
      else none := by
  have hmask : (k < (exact c a pid).rounds ∧
      ((exact c a pid).inM i && (exact c a pid).inK k l) = true) ↔
        k * c.blockSizeK + l < a.K ∧ row c a pid i < a.M := by
    rw [Bool.and_eq_true, exact_inM hc.proper h, decide_eq_true_eq, and_left_comm, and_comm,
      exact_inK_iff hc]
  rw [loadXAt]
  by_cases haccess : k * c.blockSizeK + l < a.K ∧ row c a pid i < a.M
  · rw [if_pos (hmask.mpr haccess), if_pos haccess, exact_xPtr hc.proper h _ haccess.2,
      exact_offsM hc.proper h]
    rfl
  · rw [if_neg (mt hmask.mp haccess), if_neg haccess]

theorem machine_loadWAt (hK : a.K + c.blockSizeK ≤ 2 ^ 31 ∨ 2 ^ 31 ≤ a.K) (hc : Tuned c)
    (hj : ((machine c a pid).offsN j).value = col c a pid j) :
    (machine c a pid).loadWAt l j k =
      if k * c.blockSizeK + l < a.K ∧ col c a pid j < a.N then
        some ((col c a pid j : ℤ), steps c a.strideWk l k +
          (binary (· * ·) ((machine c a pid).offsN j) (ofInt a.strideWn)).value)
      else none := by
  have hmask : (k < (machine c a pid).rounds ∧
      ((machine c a pid).inK k l && (machine c a pid).inN j) = true) ↔
        k * c.blockSizeK + l < a.K ∧ col c a pid j < a.N := by
    rw [Bool.and_eq_true, machine_inN_iff, hj, ofNat_lt, ← and_assoc, machine_inK hK hc]
  rw [loadWAt, machine_wPtr, machine_ops, machineOps_val, hj]
  by_cases haccess : k * c.blockSizeK + l < a.K ∧ col c a pid j < a.N
  · rw [if_pos (hmask.mpr haccess), if_pos haccess]
  · rw [if_neg (mt hmask.mp haccess), if_neg haccess]

theorem exact_loadWAt (hc : Tuned c) (h : pid < gridSize c a) (l j k : ℕ) :
    (exact c a pid).loadWAt l j k =
      if k * c.blockSizeK + l < a.K ∧ col c a pid j < a.N then
        some ((col c a pid j : ℤ), ((k * c.blockSizeK + l : ℕ) : ℤ) * a.strideWk +
          (col c a pid j : ℤ) * a.strideWn)
      else none := by
  have hmask : (k < (exact c a pid).rounds ∧
      ((exact c a pid).inK k l && (exact c a pid).inN j) = true) ↔
        k * c.blockSizeK + l < a.K ∧ col c a pid j < a.N := by
    rw [Bool.and_eq_true, exact_inN hc.proper h, decide_eq_true_eq, ← and_assoc, exact_inK_iff hc]
  rw [loadWAt]
  by_cases haccess : k * c.blockSizeK + l < a.K ∧ col c a pid j < a.N
  · rw [if_pos (hmask.mpr haccess), if_pos haccess, exact_wPtr hc.proper h, exact_offsN hc.proper h]
    rfl
  · rw [if_neg (mt hmask.mp haccess), if_neg haccess]

/-- What a column of the output adds to the addresses of the weight. -/
theorem value_colTerm_iff (hc : Tuned c) (hgrid : gridSize c a < 2 ^ 31) (h : pid < gridSize c a)
    (hj : j < c.blockSizeN) (hcol : ((machine c a pid).offsN j).value = col c a pid j) :
    (binary (· * ·) ((machine c a pid).offsN j) (ofInt a.strideWn)).value =
        col c a pid j * a.strideWn ↔
      col c a pid j * a.strideWn < 2 ^ 31 ∨ 2 ^ 31 ≤ a.M ∨ 2 ^ 31 ≤ a.N ∨ 2 ^ 31 ≤ a.strideWn := by
  have hlane : (ofInt (j : ℤ)).wide = false :=
    wide_ofInt_of_fits (fits_natCast (by have := hc.le.2.1; omega))
  have hblock : (ofInt (c.blockSizeN : ℤ)).wide = false :=
    wide_ofInt_of_fits (fits_natCast (by have := hc.le.2.1; omega))
  have hwide : ((machine c a pid).offsN j).wide = decide (2 ^ 31 ≤ a.M ∨ 2 ^ 31 ≤ a.N) := by
    rw [machine_offsN, wide_binary, wide_binary, hlane, hblock, Bool.or_false, Bool.or_false,
      wide_pidN hc hgrid h]
  constructor
  · intro same
    by_contra hno
    rw [not_or, not_or, not_or, not_lt, not_le, not_le, not_le] at hno
    obtain ⟨hlarge, hM, hN, hstride⟩ := hno
    refine absurd same (ne_of_lt ?_)
    have hlt := value_binary_lt (f := (· * ·)) (a := (machine c a pid).offsN j)
      (b := ofInt a.strideWn) (by rw [hwide]; exact decide_eq_false (by omega))
      (wide_ofInt_of_fits (fits_natCast hstride)) (by
        rw [hcol, value_ofInt]
        exact_mod_cast hlarge)
    rw [hcol, value_ofInt] at hlt
    exact hlt
  · rintro (hsmall | hM | hN | hstride)
    · refine value_binary_of_fits (by rw [hcol, value_ofInt]) ?_
      rw [← natCast_mul]
      exact fits_natCast hsmall
    · rw [value_binary (.inl (by rw [hwide, decide_eq_true (.inl hM)])), hcol, value_ofInt]
    · rw [value_binary (.inl (by rw [hwide, decide_eq_true (.inr hN)])), hcol, value_ofInt]
    · rw [value_binary (.inr (.inl (by rw [wide_ofInt_natCast, decide_eq_true hstride]))), hcol,
        value_ofInt]

end Program

end Gemm
