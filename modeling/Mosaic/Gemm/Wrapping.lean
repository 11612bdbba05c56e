import Mosaic.Gemm.MachineOffsets

/-!
# Offsets that leave 32 bits

The kernel converts the row numbers of its input and the coordinates of its output to 64 bits, but
not the columns of the input, nor the rows and the columns of the weight, and the sizes of the
grid are rounded up with 32 bits. The addresses are the exact ones if and only if none of these
leaves 32 bits.
-/

namespace Gemm

open MachineInt Int

open Program

/-- Every lane of every program accesses what it accesses with exact integers. -/
def OffsetsExact (c : Config) (a : Args) (indices : ℤ → ℤ) : Prop :=
  ∀ pid < gridSize c a,
    (∀ i < c.blockSizeM, ∀ j < c.blockSizeN,
      (machine c a pid).storeAt i j = (exact c a pid).storeAt i j) ∧
    (∀ i < c.blockSizeM, ∀ l < c.blockSizeK, ∀ k,
      (machine c a pid).loadXAt indices i l k = (exact c a pid).loadXAt indices i l k) ∧
    ∀ l < c.blockSizeK, ∀ j < c.blockSizeN, ∀ k,
      (machine c a pid).loadWAt l j k = (exact c a pid).loadWAt l j k

/-- Nothing leaves 32 bits. A size or a stride that has 64 bits widens what is computed from it. -/
structure Unwrapped (c : Config) (a : Args) (indices : ℤ → ℤ) : Prop where
  rows : a.M + c.blockSizeM ≤ 2 ^ 31 ∨ 2 ^ 31 ≤ a.M
  -- with one group of rows, a number of columns that has changed its sign does no harm
  cols : a.N + c.blockSizeN ≤ 2 ^ 31 ∨ 2 ^ 31 ≤ a.N ∨
    a.N + c.blockSizeN = 2 ^ 31 + 1 ∧ a.M ≤ c.groupSizeM * c.blockSizeM
  inner : a.K + c.blockSizeK ≤ 2 ^ 31 ∨ 2 ^ 31 ≤ a.K
  strideXk : StepsFit c a.K a.strideXk
  strideWk : StepsFit c a.K a.strideWk
  strideWn : a.K = 0 ∨ (a.N - 1) * a.strideWn < 2 ^ 31 ∨ 2 ^ 31 ≤ a.M ∨ 2 ^ 31 ≤ a.N ∨
    2 ^ 31 ≤ a.strideWn
  indices : a.K = 0 ∨ a.strideXm = 0 ∨ ∀ m < a.M, Fits (indices m)

variable {c : Config}

/-! ### Sufficiency -/

section Launch

variable {a : Args} {pid : ℕ} {indices : ℤ → ℤ}

theorem offsetsExact_of_unwrapped (hc : Tuned c) (hgrid : gridSize c a < 2 ^ 31)
    (hfit : Unwrapped c a indices) : OffsetsExact c a indices := by
  intro pid h
  have hsound : ColsSound c a pid := colsSound hc hfit.cols
  have hcols : a.N + c.blockSizeN ≤ 2 ^ 31 + 1 ∨ 2 ^ 31 ≤ a.N := by
    rcases hfit.cols with hN | hN | ⟨hN, -⟩ <;> omega
  have hrow (i : ℕ) (hi : i < c.blockSizeM) :
      ((machine c a pid).offsM i).value = row c a pid i :=
    value_offsM hc hgrid h hfit.rows hsound hi
  have hcol (j : ℕ) (hj : j < c.blockSizeN) :
      ((machine c a pid).offsN j).value = col c a pid j :=
    value_offsN hc hgrid h hfit.rows hcols hsound hj
  refine ⟨fun i hi j hj => storeAt_of_offs hc h (hrow i hi) (hcol j hj), fun i hi l hl k => ?_,
    fun l hl j hj k => ?_⟩
  · rw [machine_loadXAt hfit.inner hc indices (hrow i hi), exact_loadXAt hc h]
    by_cases haccess : k * c.blockSizeK + l < a.K ∧ row c a pid i < a.M
    · obtain ⟨hk, hm⟩ := haccess
      have hidx : MachineInt.narrow (indices (row c a pid i)) * a.strideXm =
          indices (row c a pid i) * a.strideXm := by
        rcases hfit.indices with hK | hstride | hall
        · omega
        · rw [hstride, Nat.cast_zero, mul_zero, mul_zero]
        · rw [narrow_of_fits (hall _ hm)]
      rw [if_pos ⟨hk, hm⟩, if_pos ⟨hk, hm⟩, hidx, (stepsFit_iff hc _ _).mp hfit.strideXk l hl k hk]
    · rw [if_neg haccess, if_neg haccess]
  · rw [machine_loadWAt hfit.inner hc (hcol j hj), exact_loadWAt hc h]
    by_cases haccess : k * c.blockSizeK + l < a.K ∧ col c a pid j < a.N
    · obtain ⟨hk, hn⟩ := haccess
      have hterm := (value_colTerm_iff hc hgrid h hj (hcol j hj)).mpr <| by
        rcases hfit.strideWn with hK | hsmall | hwide
        · omega
        · exact .inl ((Nat.mul_le_mul_right _ (Nat.le_sub_one_of_lt hn)).trans_lt hsmall)
        · exact .inr hwide
      rw [if_pos ⟨hk, hn⟩, if_pos ⟨hk, hn⟩, hterm, (stepsFit_iff hc _ _).mp hfit.strideWk l hl k hk]
    · rw [if_neg haccess, if_neg haccess]

/-! ### Necessity -/

theorem row_zero_lt (hc : Tuned c) (h : pid < gridSize c a) : row c a pid 0 < a.M := by
  have hmem := GroupedOrder.tile_mem (cols_pos h) hc.proper.groupSizeM h
  rw [← not_le, hostCdiv_le_iff hc.proper.blockSizeM, not_le] at hmem
  exact hmem.1

theorem col_zero_lt (hc : Tuned c) (h : pid < gridSize c a) : col c a pid 0 < a.N := by
  have hmem := (GroupedOrder.tile_mem (cols_pos h) hc.proper.groupSizeM h).2
  rw [← not_le, hostCdiv_le_iff hc.proper.blockSizeN, not_le] at hmem
  exact hmem

/-- The first lane of a program tells the tile. -/
theorem offs_zero_of_offsetsExact (hc : Tuned c) (hall : OffsetsExact c a indices)
    (h : pid < gridSize c a) :
    ((machine c a pid).offsM 0).value = (tile c a pid).1 * c.blockSizeM ∧
      ((machine c a pid).offsN 0).value = (tile c a pid).2 * c.blockSizeN := by
  have hoffs := offs_of_storeAt hc h
    ((hall pid h).1 0 hc.proper.blockSizeM 0 hc.proper.blockSizeN) (row_zero_lt hc h)
    (col_zero_lt hc h)
  rw [row, col, add_zero, add_zero, natCast_mul, natCast_mul] at hoffs
  exact hoffs

theorem value_pidM_of_neg {w first : ℕ} (hM : (machine c a pid).numPidM.value = -(w : ℤ))
    (hfirst : (machine c a pid).firstPidM.value = (first : ℕ)) (hpid : pid < w + first)
    (hsmall : w + first + pid < 2 ^ 31) :
    (machine c a pid).pidM.value = (first + pid : ℕ) := by
  have hsize : (machine c a pid).groupSize.value = -((w + first : ℕ) : ℤ) := by
    rw [machine_groupSize]
    refine value_binary_of_fits ?_ (fits_neg_natCast (by omega))
    rw [value_binary_of_fits (n := -((w + first : ℕ) : ℤ)) _ (fits_neg_natCast (by omega)),
      value_ofInt, min_eq_left (by omega)]
    rw [hM, hfirst]
    omega
  rw [machine_pidM]
  refine value_binary_of_fits ?_ (fits_natCast (by omega))
  rw [value_binary_of_fits (n := (pid : ℤ)) _ (fits_natCast (by omega)), hfirst, natCast_add]
  rw [value_ofInt, hsize, tmod_neg, ← ofNat_tmod, Nat.mod_eq_of_lt hpid]

section

variable (hc : Tuned c)
include hc

/-- A number of rows of tiles that has changed its sign gives the program after the first group
a row too far. -/
theorem rows_of_offsetsExact (hgrid : gridSize c a < 2 ^ 31) (hpos : 0 < gridSize c a)
    (hall : OffsetsExact c a indices) : a.M + c.blockSizeM ≤ 2 ^ 31 ∨ 2 ^ 31 ≤ a.M := by
  by_contra hno
  rw [not_or, not_le, not_le] at hno
  obtain ⟨hover, hM⟩ := hno
  have hm := hc.blockSizeM
  have hn := hc.blockSizeN
  have hrows : a.M ≤ hostCdiv a.M c.blockSizeM * c.blockSizeM :=
    (hostCdiv_le_iff hc.proper.blockSizeM).mp le_rfl
  have hrows8 : 2 ^ 23 ≤ hostCdiv a.M c.blockSizeM := by
    rcases hm with hm | hm | hm <;> rw [hm] at hrows hover ⊢ <;> omega
  -- so many rows leave few columns
  have hcols : a.N + c.blockSizeN ≤ 2 ^ 31 := by
    have hle : 2 ^ 23 * hostCdiv a.N c.blockSizeN ≤ gridSize c a := Nat.mul_le_mul_right _ hrows8
    have hN : a.N ≤ hostCdiv a.N c.blockSizeN * c.blockSizeN :=
      (hostCdiv_le_iff hc.proper.blockSizeN).mp le_rfl
    rcases hn with hn | hn <;> rw [hn] at hN hle ⊢ <;> omega
  have hsound : ColsSound c a 8 := colsSound hc (.inl hcols)
  have h8 : 8 < gridSize c a :=
    (show 8 < hostCdiv a.M c.blockSizeM by omega).trans_le
      (Nat.le_mul_of_pos_right _ (cols_pos hpos))
  have hneg : (machine c a 8).numPidM.value =
      -(((2 ^ 32 + 1 - (a.M + c.blockSizeM)) / c.blockSizeM : ℕ) : ℤ) :=
    value_machine_cdiv_neg hc.le.1 hM hover
  have hwrapped : 2 ^ 23 ≤ (2 ^ 32 + 1 - (a.M + c.blockSizeM)) / c.blockSizeM + 1 ∧
      (2 ^ 32 + 1 - (a.M + c.blockSizeM)) / c.blockSizeM ≤ 2 ^ 30 := by
    rcases hm with hm | hm | hm <;> rw [hm] at hover ⊢ <;> omega
  have hfirst := value_firstPidM hc hgrid h8 hsound
  have hfirst_le : GroupedOrder.firstRow (hostCdiv a.N c.blockSizeN) c.groupSizeM 8 ≤ 8 := by
    have hle : 8 / (c.groupSizeM * hostCdiv a.N c.blockSizeN) ≤ 8 / c.groupSizeM :=
      Nat.div_le_div_left (Nat.le_mul_of_pos_right _ (cols_pos h8)) hc.proper.groupSizeM
    rw [GroupedOrder.firstRow]
    rw [hc.groupSizeM] at hle ⊢
    omega
  have htile : (tile c a 8).1 =
      GroupedOrder.firstRow (hostCdiv a.N c.blockSizeN) c.groupSizeM 8 := by
    have hrows16 : 8 ≤ hostCdiv a.M c.blockSizeM -
      GroupedOrder.firstRow (hostCdiv a.N c.blockSizeN) c.groupSizeM 8 := by omega
    rw [tile, GroupedOrder.tile, GroupedOrder.groupRows]
    rw [hc.groupSizeM] at hrows16 ⊢
    rw [Nat.min_eq_right hrows16, Nat.mod_self, Nat.add_zero]
  have hoffs := (offs_zero_of_offsetsExact hc hall h8).1
  rw [htile] at hoffs
  generalize GroupedOrder.firstRow (hostCdiv a.N c.blockSizeN) c.groupSizeM 8 = first at *
  generalize (2 ^ 32 + 1 - (a.M + c.blockSizeM)) / c.blockSizeM = w at *
  have hpidM : (machine c a 8).pidM.value = (first + 8 : ℕ) :=
    value_pidM_of_neg hneg hfirst (by omega) (by omega)
  have hwrong := value_offs c.blockSizeM 0 hpidM
    (.inr ((Nat.mul_le_mul (Nat.add_le_add_right hfirst_le 8) hc.le.1).trans_lt (by decide)))
  have hsame : first * c.blockSizeM = (first + 8) * c.blockSizeM + 0 := by
    have := hoffs.symm.trans hwrong
    exact_mod_cast this
  rw [Nat.add_zero, Nat.mul_right_cancel_iff hc.proper.blockSizeM] at hsame
  omega

theorem value_firstPidM_of_neg {w : ℕ} (hw : 0 < w) (hsmall : 8 * w ≤ 2 ^ 31) (hpid : pid < 2 ^ 31)
    (hN : (machine c a pid).numPidN.value = -(w : ℤ)) :
    (machine c a pid).firstPidM.value = -((pid / (8 * w) * 8 : ℕ) : ℤ) := by
  have hgroup : (binary (· * ·) (ofInt c.groupSizeM) (machine c a pid).numPidN).value =
      -((8 * w : ℕ) : ℤ) := by
    refine value_binary_of_fits ?_ (fits_neg_natCast hsmall)
    rw [hN, value_ofInt, hc.groupSizeM]
    omega
  have hdiv : pid / (8 * w) ≤ pid := Nat.div_le_self _ _
  have hmul : pid / (8 * w) * 8 ≤ pid :=
    (Nat.mul_le_mul_left _ (by omega)).trans (Nat.div_mul_le_self pid (8 * w))
  rw [machine_firstPidM]
  refine value_binary_of_fits ?_ (fits_neg_natCast (by omega))
  rw [value_binary_of_fits (n := -((pid / (8 * w) : ℕ) : ℤ)) _ (fits_neg_natCast (by omega)),
    value_ofInt, hc.groupSizeM, natCast_mul, Int.neg_mul]
  rw [hgroup, value_ofInt, Int.tdiv_neg, ← ofNat_tdiv]

/-- The first program after as many as a group would have is sent before the first row. -/
theorem value_offsM_of_neg {rows w : ℕ} (hw : 0 < w) (hsmall : 8 * w < 2 ^ 31)
    (hrows : rows < 2 ^ 30) (hM : (machine c a (8 * w)).numPidM.value = (rows : ℕ))
    (hN : (machine c a (8 * w)).numPidN.value = -(w : ℤ)) :
    ((machine c a (8 * w)).offsM 0).value = -((8 * c.blockSizeM : ℕ) : ℤ) := by
  have hle := hc.le.1
  have hfirst := value_firstPidM_of_neg hc hw hsmall.le hsmall hN
  rw [Nat.div_self (by omega)] at hfirst
  have hsize : (machine c a (8 * w)).groupSize.value = ((8 : ℕ) : ℤ) := by
    rw [machine_groupSize]
    refine value_binary_of_fits ?_ (fits_natCast (by omega))
    rw [value_binary_of_fits (n := ((rows + 8 : ℕ) : ℤ)) _ (fits_natCast (by omega)),
      value_ofInt, hc.groupSizeM]
    · exact min_eq_right (by omega)
    · rw [hM, hfirst]
      omega
  have hpidM : (machine c a (8 * w)).pidM.value = -((8 : ℕ) : ℤ) := by
    rw [machine_pidM]
    refine value_binary_of_fits ?_ (fits_neg_natCast (by omega))
    rw [value_binary_of_fits (n := ((0 : ℕ) : ℤ)) _ (fits_natCast (by omega)), hfirst]
    · rfl
    · rw [value_ofInt, hsize, ← ofNat_tmod, Nat.mul_mod_right]
  have hmul : (binary (· * ·) (machine c a (8 * w)).pidM (ofInt c.blockSizeM)).value =
      -((8 * c.blockSizeM : ℕ) : ℤ) := by
    refine value_binary_of_fits ?_ (fits_neg_natCast (by omega))
    rw [hpidM, value_ofInt]
    omega
  rw [machine_offsM]
  refine value_binary_of_fits ?_ (fits_neg_natCast (by omega))
  rw [hmul, value_ofInt, Nat.cast_zero, add_zero]

/-- Within one group, the first program of the last column is sent to the first one. -/
theorem value_offsN_of_neg {rows w : ℕ} (hw : 0 < w) (hsmall : 8 * w < 2 ^ 31) (hpos : 0 < rows)
    (hrows : rows < 8) (hM : (machine c a (w * rows)).numPidM.value = (rows : ℕ))
    (hN : (machine c a (w * rows)).numPidN.value = -(w : ℤ)) :
    ((machine c a (w * rows)).offsN 0).value = 0 := by
  have hpid : w * rows < 8 * w := by
    rw [mul_comm 8 w]
    exact Nat.mul_lt_mul_of_pos_left hrows hw
  have hfirst := value_firstPidM_of_neg hc hw hsmall.le (hpid.trans hsmall) hN
  rw [Nat.div_eq_of_lt hpid] at hfirst
  have hsize : (machine c a (w * rows)).groupSize.value = (rows : ℕ) := by
    rw [machine_groupSize]
    refine value_binary_of_fits ?_ (fits_natCast (by omega))
    rw [value_binary_of_fits (n := (rows : ℤ)) _ (fits_natCast (by omega)), value_ofInt,
      hc.groupSizeM]
    · exact min_eq_left (by omega)
    · rw [hM, hfirst]
      omega
  have hpidN : (machine c a (w * rows)).pidN.value = ((0 : ℕ) : ℤ) := by
    rw [machine_pidN]
    refine value_binary_of_fits ?_ (fits_natCast (by omega))
    rw [value_binary_of_fits (n := (w : ℤ)) _ (fits_natCast (by omega)), hN, tmod_neg,
      ← ofNat_tmod, Nat.mod_self]
    rw [value_ofInt, hsize, ← ofNat_tdiv, Nat.mul_div_left _ hpos]
  have hzero := value_offs c.blockSizeN 0 hpidN (.inr (by omega))
  rw [zero_mul] at hzero
  exact hzero

theorem cols_of_offsetsExact (hgrid : gridSize c a < 2 ^ 31) (hpos : 0 < gridSize c a)
    (hall : OffsetsExact c a indices) : a.N + c.blockSizeN ≤ 2 ^ 31 ∨ 2 ^ 31 ≤ a.N ∨
      a.N + c.blockSizeN = 2 ^ 31 + 1 ∧ a.M ≤ c.groupSizeM * c.blockSizeM := by
  by_contra hno
  rw [not_or, not_or, not_le, not_le] at hno
  obtain ⟨hover, hN, hexcept⟩ := hno
  have hm := hc.blockSizeM
  have hn := hc.blockSizeN
  have hcols : a.N ≤ hostCdiv a.N c.blockSizeN * c.blockSizeN :=
    (hostCdiv_le_iff hc.proper.blockSizeN).mp le_rfl
  have hcols_lt := hostCdiv_mul_lt a.N hc.proper.blockSizeN
  have hcols23 : 2 ^ 23 ≤ hostCdiv a.N c.blockSizeN := by
    rcases hn with hn | hn <;> rw [hn] at hcols hover ⊢ <;> omega
  -- so many columns leave few rows
  have hrows : hostCdiv a.M c.blockSizeM < 256 := by
    have hle : hostCdiv a.M c.blockSizeM * 2 ^ 23 ≤ gridSize c a := Nat.mul_le_mul_left _ hcols23
    omega
  have hM : a.M + c.blockSizeM ≤ 2 ^ 31 := by
    have hle : a.M ≤ 256 * c.blockSizeM := (hostCdiv_le_iff hc.proper.blockSizeM).mp hrows.le
    rcases hm with hm | hm | hm <;> rw [hm] at hle ⊢ <;> omega
  have hcount (pid : ℕ) : (machine c a pid).numPidM.value = (hostCdiv a.M c.blockSizeM : ℕ) :=
    value_machine_cdiv hc.proper.blockSizeM (.inl hM)
  have hneg (pid : ℕ) : (machine c a pid).numPidN.value =
      -(((2 ^ 32 + 1 - (a.N + c.blockSizeN)) / c.blockSizeN : ℕ) : ℤ) :=
    value_machine_cdiv_neg hc.le.2.1 hN hover
  -- one column of tiles is lost, unless the last column is narrow
  have hw : (2 ^ 32 + 1 - (a.N + c.blockSizeN)) / c.blockSizeN + 1 = hostCdiv a.N c.blockSizeN ∨
      (2 ^ 32 + 1 - (a.N + c.blockSizeN)) / c.blockSizeN = hostCdiv a.N c.blockSizeN ∧
        a.N + c.blockSizeN = 2 ^ 31 + 1 := by
    rcases hn with hn | hn <;> rw [hn] at hcols hcols_lt hover ⊢ <;> omega
  have hsmall : 8 * ((2 ^ 32 + 1 - (a.N + c.blockSizeN)) / c.blockSizeN) < 2 ^ 31 := by
    rcases hn with hn | hn <;> rw [hn] at hover ⊢ <;> omega
  generalize (2 ^ 32 + 1 - (a.N + c.blockSizeN)) / c.blockSizeN = w at *
  have hpos_w : 0 < w := by omega
  by_cases hgroups : 8 * w < gridSize c a
  · have hoffs := (offs_zero_of_offsetsExact hc hall hgroups).1
    rw [value_offsM_of_neg hc hpos_w hsmall (by omega) (hcount _) (hneg _),
      ← natCast_mul] at hoffs
    omega
  · have hgrid_eq : gridSize c a = hostCdiv a.M c.blockSizeM * hostCdiv a.N c.blockSizeN := rfl
    have hlast : w + 1 = hostCdiv a.N c.blockSizeN := by
      refine hw.resolve_right fun ⟨hw, hnarrow⟩ => hgroups ?_
      have hmore : c.groupSizeM < hostCdiv a.M c.blockSizeM := by
        rw [← not_le, hostCdiv_le_iff hc.proper.blockSizeM]
        exact fun hle => hexcept ⟨hnarrow, hle⟩
      rw [hc.groupSizeM] at hmore
      rw [hw, hgrid_eq]
      exact Nat.mul_lt_mul_of_pos_right hmore (by omega)
    have hrows8 : hostCdiv a.M c.blockSizeM < 8 := by
      by_contra hge
      refine hgroups ?_
      rw [hgrid_eq]
      exact (show 8 * w < 8 * hostCdiv a.N c.blockSizeN by omega).trans_le
        (Nat.mul_le_mul_right _ (by omega))
    have hrows_pos := rows_pos hpos
    have hpid : w * hostCdiv a.M c.blockSizeM < gridSize c a := by
      rw [hgrid_eq, Nat.mul_comm w]
      exact Nat.mul_lt_mul_of_pos_left (by omega) hrows_pos
    have hfirst : GroupedOrder.firstRow (hostCdiv a.N c.blockSizeN) c.groupSizeM
        (w * hostCdiv a.M c.blockSizeM) = 0 := by
      have hlt : w * hostCdiv a.M c.blockSizeM < c.groupSizeM * hostCdiv a.N c.blockSizeN := by
        rw [hc.groupSizeM, Nat.mul_comm 8]
        exact Nat.mul_lt_mul'' (by omega) hrows8
      rw [GroupedOrder.firstRow, Nat.div_eq_of_lt hlt, Nat.zero_mul]
    have htile : (tile c a (w * hostCdiv a.M c.blockSizeM)).2 = w := by
      rw [tile, GroupedOrder.tile]
      dsimp only
      rw [hfirst, GroupedOrder.groupRows, Nat.sub_zero, hc.groupSizeM, Nat.min_eq_left hrows8.le,
        Nat.mul_div_left _ hrows_pos, Nat.mod_eq_of_lt (by omega)]
    have hoffs := (offs_zero_of_offsetsExact hc hall hpid).2
    rw [value_offsN_of_neg hc hpos_w hsmall hrows_pos hrows8 (hcount _) (hneg _), htile,
      ← natCast_mul] at hoffs
    have := Nat.mul_pos hpos_w hc.proper.blockSizeN
    omega

/-- A number of rounds that has changed its sign leaves the loop out. -/
theorem inner_of_offsetsExact (hpos : 0 < gridSize c a) (hall : OffsetsExact c a indices) :
    a.K + c.blockSizeK ≤ 2 ^ 31 ∨ 2 ^ 31 ≤ a.K := by
  by_contra hno
  rw [not_or, not_le, not_le] at hno
  obtain ⟨hover, hK⟩ := hno
  have hle := hc.le.2.2
  have hrounds : (machine c a 0).rounds = 0 := by
    rw [machine_rounds, value_machine_cdiv_neg hle hK hover]
    exact toNat_of_nonpos (Int.neg_nonpos_of_nonneg (natCast_nonneg _))
  have hload := (hall 0 hpos).2.1 0 hc.proper.blockSizeM 0 hc.proper.blockSizeK 0
  rw [exact_loadXAt hc hpos, if_pos ⟨by omega, row_zero_lt hc hpos⟩, loadXAt, hrounds,
    if_neg (fun h => absurd h.1 (lt_irrefl 0))] at hload
  cases hload

theorem unwrapped_of_offsetsExact (hgrid : gridSize c a < 2 ^ 31) (hpos : 0 < gridSize c a)
    (hall : OffsetsExact c a indices) : Unwrapped c a indices := by
  have hrows := rows_of_offsetsExact hc hgrid hpos hall
  have hcols := cols_of_offsetsExact hc hgrid hpos hall
  have hinner := inner_of_offsetsExact hc hpos hall
  have hcols' : a.N + c.blockSizeN ≤ 2 ^ 31 + 1 ∨ 2 ^ 31 ≤ a.N := by
    rcases hcols with hN | hN | ⟨hN, -⟩ <;> omega
  have hM : 0 < a.M := Nat.zero_lt_of_lt (row_zero_lt hc hpos)
  have hN : 0 < a.N := Nat.zero_lt_of_lt (col_zero_lt hc hpos)
  -- the loads of an element of the output
  have hx (m : ℕ) (hm : m < a.M) (l : ℕ) (hl : l < c.blockSizeK) (k : ℕ)
      (hk : k * c.blockSizeK + l < a.K) :
      MachineInt.narrow (indices m) * a.strideXm + steps c a.strideXk l k =
        indices m * a.strideXm + ((k * c.blockSizeK + l : ℕ) : ℤ) * a.strideXk := by
    obtain ⟨pid, h, hcell⟩ := exists_program hc.proper hm hN
    obtain ⟨i, hi, j, -, rfl, -, -, -⟩ := mem_cells.mp hcell
    have hload := (hall pid h).2.1 i hi l hl k
    rw [machine_loadXAt hinner hc indices
      (value_offsM hc hgrid h hrows (colsSound hc hcols) hi), exact_loadXAt hc h,
      if_pos ⟨hk, hm⟩, if_pos ⟨hk, hm⟩] at hload
    exact (Prod.mk.inj (Option.some.inj hload)).2
  have hw (n : ℕ) (hn : n < a.N) : ∃ pid < gridSize c a, ∃ j < c.blockSizeN,
      col c a pid j = n ∧ ((machine c a pid).offsN j).value = col c a pid j ∧
      ∀ l < c.blockSizeK, ∀ k, k * c.blockSizeK + l < a.K → steps c a.strideWk l k +
        (binary (· * ·) ((machine c a pid).offsN j) (ofInt a.strideWn)).value =
          ((k * c.blockSizeK + l : ℕ) : ℤ) * a.strideWk + n * a.strideWn := by
    obtain ⟨pid, h, hcell⟩ := exists_program hc.proper hM hn
    obtain ⟨-, -, j, hj, -, rfl, -, -⟩ := mem_cells.mp hcell
    have hcol := value_offsN hc hgrid h hrows hcols' (colsSound hc hcols) hj
    refine ⟨pid, h, j, hj, rfl, hcol, fun l hl k hk => ?_⟩
    have hload := (hall pid h).2.2 l hl j hj k
    rw [machine_loadWAt hinner hc hcol, exact_loadWAt hc h, if_pos ⟨hk, hn⟩,
      if_pos ⟨hk, hn⟩] at hload
    exact (Prod.mk.inj (Option.some.inj hload)).2
  have hindex (hK : 0 < a.K) (m : ℕ) (hm : m < a.M) :
      MachineInt.narrow (indices m) * a.strideXm = indices m * a.strideXm := by
    have hfirst := hx m hm 0 hc.proper.blockSizeK 0 (by omega)
    rw [steps_zero, Nat.zero_mul, Nat.add_zero, Nat.cast_zero, zero_mul, add_zero,
      add_zero] at hfirst
    exact hfirst
  refine ⟨hrows, hcols, hinner, ?_, ?_, ?_, ?_⟩
  · refine (stepsFit_iff hc _ _).mpr fun l hl k hk => ?_
    have hload := hx 0 hM l hl k hk
    rw [hindex (by omega) 0 hM] at hload
    exact add_left_cancel hload
  · -- the first column of the output adds nothing
    obtain ⟨pid, h, j, hj, hzero, hcol, hload⟩ := hw 0 hN
    have hterm := (value_colTerm_iff hc hgrid h hj hcol).mpr
      (.inl (by rw [hzero, Nat.zero_mul]; omega))
    rw [hterm, hzero] at hload
    exact (stepsFit_iff hc _ _).mpr fun l hl k hk => add_right_cancel (hload l hl k hk)
  · -- the last column of the output adds most
    obtain ⟨pid, h, j, hj, hlast, hcol, hload⟩ := hw (a.N - 1) (by omega)
    rcases Nat.eq_zero_or_pos a.K with hK | hK
    · exact .inl hK
    · have hfirst := hload 0 hc.proper.blockSizeK 0 (by omega)
      rw [steps_zero, Nat.zero_mul, Nat.add_zero, Nat.cast_zero, zero_mul, zero_add, zero_add,
        ← hlast, value_colTerm_iff hc hgrid h hj hcol, hlast] at hfirst
      exact .inr hfirst
  · rcases Nat.eq_zero_or_pos a.K with hK | hK
    · exact .inl hK
    · by_cases hstride : a.strideXm = 0
      · exact .inr (.inl hstride)
      · refine .inr (.inr fun m hm => ?_)
        have hsame := mul_right_cancel₀ (natCast_ne_zero.mpr hstride) (hindex hK m hm)
        exact hsame ▸ fits_narrow _

end

/-- A launch, which has fewer than `2 ^ 31` programs, accesses what it accesses with exact integers
if and only if it has no programs or nothing leaves 32 bits. -/
theorem offsetsExact_iff (c : Config) (hc : c ∈ autotuneConfigs) (x weight out : Matrix)
    (iv : IndexVector) (entries : ℤ → ℤ) :
    let a := launchArgs x iv weight out
    (gridSize c a < 2 ^ 31 → OffsetsExact c a entries) ↔
      (gridSize c a < 2 ^ 31 → gridSize c a ≠ 0 → Unwrapped c a entries) := by
  intro a
  have htuned := tuned_of_mem hc
  constructor
  · intro hall hgrid hne
    exact unwrapped_of_offsetsExact htuned hgrid (pos_of_ne_zero hne) (hall hgrid)
  · intro hfit hgrid
    by_cases hne : gridSize c a = 0
    · -- there are no programs
      intro pid h
      rw [hne] at h
      exact absurd h (Nat.not_lt_zero pid)
    · exact offsetsExact_of_unwrapped htuned hgrid (hfit hgrid hne)

/-- With a transposed weight of `4096` columns for `126464` tokens, nothing wraps. -/
theorem offsetsExact_iff_fits :
    OffsetsExact ⟨128, 128, 64, 8⟩ (launchArgs ⟨1, 4096, 4096, 1, .bfloat16, true⟩
      ⟨1, 1, .int64, true⟩ ⟨4096, 126464, 1, 4096, .bfloat16, true⟩
      ⟨1, 126464, 126464, 1, .bfloat16, true⟩) (fun _ => 0) := by
  refine (offsetsExact_iff ⟨128, 128, 64, 8⟩ (by decide) ⟨1, 4096, 4096, 1, .bfloat16, true⟩
    ⟨4096, 126464, 1, 4096, .bfloat16, true⟩ ⟨1, 126464, 126464, 1, .bfloat16, true⟩
    ⟨1, 1, .int64, true⟩ (fun _ => 0)).mpr (fun _ _ => ?_) (by decide)
  exact ⟨.inl (by decide), .inl (by decide), .inl (by decide), .inr (.inr (by decide)),
    .inr (.inr (by decide)), .inr (.inl (by decide)), .inr (.inr fun _ _ => by decide)⟩

/-- The last of `524289` columns of a transposed weight is `2 ^ 31` elements away. -/
theorem weight_offset_wraps :
    checkArgs ⟨1, 4096, 4096, 1, .bfloat16, true⟩ ⟨1, 1, .int64, true⟩
      ⟨4096, 524289, 1, 4096, .bfloat16, true⟩ ⟨1, 524289, 524289, 1, .bfloat16, true⟩ = .ok () ∧
    gridSize ⟨128, 128, 64, 8⟩ (launchArgs ⟨1, 4096, 4096, 1, .bfloat16, true⟩ ⟨1, 1, .int64, true⟩
      ⟨4096, 524289, 1, 4096, .bfloat16, true⟩ ⟨1, 524289, 524289, 1, .bfloat16, true⟩) < 2 ^ 31 ∧
    ¬OffsetsExact ⟨128, 128, 64, 8⟩ (launchArgs ⟨1, 4096, 4096, 1, .bfloat16, true⟩
      ⟨1, 1, .int64, true⟩ ⟨4096, 524289, 1, 4096, .bfloat16, true⟩
      ⟨1, 524289, 524289, 1, .bfloat16, true⟩) (fun _ => 0) := by
  refine ⟨rfl, by decide, fun hall => ?_⟩
  have hfit := (unwrapped_of_offsetsExact (tuned_of_mem (by decide)) (by decide) (by decide)
    hall).strideWn
  revert hfit
  decide

end Launch

end Gemm
