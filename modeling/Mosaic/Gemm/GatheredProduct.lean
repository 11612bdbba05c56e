import Mosaic.Gemm.Wrapping
import Mathlib.Algebra.CharZero.Defs
import Mathlib.Algebra.BigOperators.Ring.Finset

/-!
# When a launch computes the gathered product

The kernel is not told the stride of the row numbers: it reads them next to each other. Unless the
vector is converted to 32 bits, which copies it, a vector with gaps is read wrongly. Apart from that
a launch computes the gathered product with exact indices, and with those of the machine as long as
nothing leaves 32 bits.
-/

namespace Gemm

open List Finset MachineInt

open Program

/-- All row numbers are those of rows of the input. Those of a vector that is not converted have 32
bits or fewer. -/
def InRange (x : Matrix) (indices : IndexVector) (storage : ℤ → ℤ) : Prop :=
  (indices.dtype ≠ .int64 → ∀ o, Fits (storage o)) ∧
    ∀ m < indices.length, 0 ≤ indices.entries storage m ∧ indices.entries storage m < x.rows

/-- The greatest row number that is converted to 32 bits. -/
def lastConverted (x : Matrix) (indices : IndexVector) : ℤ :=
  if indices.dtype = .int64 then (x.rows - 1 : ℕ) else 0

/-- The programs of a launch have the tiles of the output, each once. In whatever order they run,
they store every element of the product of the gathered rows with the weight once, and nothing
else. -/
structure GathersProduct {I : Type} (ops : IndexOps I) (R : Type) [Semiring R] (c : Config)
    (x : Matrix) (indices : IndexVector) (weight out : Matrix) : Prop where
  tiles : ∀ pid < gridSize c (launchArgs x indices weight out),
    ∃ m < hostCdiv indices.length c.blockSizeM, ∃ n < hostCdiv weight.cols c.blockSizeN,
      ops.val (pidM ⟨ops, c, launchArgs x indices weight out, pid⟩) = (m : ℕ) ∧
        ops.val (pidN ⟨ops, c, launchArgs x indices weight out, pid⟩) = (n : ℕ)
  each : ∀ m < hostCdiv indices.length c.blockSizeM, ∀ n < hostCdiv weight.cols c.blockSizeN,
    ∃! pid, pid < gridSize c (launchArgs x indices weight out) ∧
      ops.val (pidM ⟨ops, c, launchArgs x indices weight out, pid⟩) = (m : ℕ) ∧
        ops.val (pidN ⟨ops, c, launchArgs x indices weight out, pid⟩) = (n : ℕ)
  stores : ∀ mem : Memory R, InRange x indices mem.indices → ∀ order : List ℕ,
    order.Perm (List.range (gridSize c (launchArgs x indices weight out))) → ∃ stores,
      gatherGemm ops c x indices weight out mem order = .ok stores ∧
      let address := fun m n : ℕ => (out.stride0 * (m : ℤ) + out.stride1 * (n : ℤ) : ℤ)
      let value := fun m n : ℕ => ∑ k ∈ Finset.range weight.rows,
        mem.x (indices.entries mem.indices m * x.stride0 + (k : ℤ) * x.stride1) *
          mem.w ((k : ℤ) * weight.stride0 + (n : ℤ) * weight.stride1)
      stores.Perm ((outputCells indices.length weight.cols).map fun cell =>
        (address cell.1 cell.2, value cell.1 cell.2)) ∧
      ((∀ m < indices.length, ∀ n < weight.cols, ∀ m' < indices.length, ∀ n' < weight.cols,
          address m n = address m' n' → m = m' ∧ n = n') →
        ∀ before : ℤ → R,
          (∀ m < indices.length, ∀ n < weight.cols,
            afterStores stores before (address m n) = value m n) ∧
          ∀ other, (∀ m < indices.length, ∀ n < weight.cols, other ≠ address m n) →
            afterStores stores before other = before other)

/-- The row numbers lie next to each other, or are copied to lie so, or all rows are one. -/
def RowsFound (x : Matrix) (indices : IndexVector) : Prop :=
  indices.stride = 1 ∨ indices.dtype = .int64 ∨ indices.length ≤ 1 ∨ x.stride0 = 0

instance (x : Matrix) (indices : IndexVector) : Decidable (RowsFound x indices) :=
  inferInstanceAs (Decidable (_ ∨ _))

section Launch

variable {I R : Type} [Semiring R] {ops : IndexOps I} {c : Config} {x weight out : Matrix}
  {indices : IndexVector}

/-- The launch accesses the memory as with exact indices. -/
def Agrees (ops : IndexOps I) (c : Config) (x : Matrix) (indices : IndexVector)
    (weight out : Matrix) (mem : Memory R) : Prop :=
  ∀ order : List ℕ, (∀ pid ∈ order, pid < gridSize c (launchArgs x indices weight out)) →
    gatherGemm ops c x indices weight out mem order =
      gatherGemm exactOps c x indices weight out mem order

theorem loaded_eq_or (found : RowsFound x indices) (storage : ℤ → ℤ) {m : ℕ}
    (hm : m < indices.length) :
    indices.loaded storage m = indices.entries storage m ∨ x.stride0 = 0 := by
  unfold IndexVector.loaded
  rcases found with hone | hlong | hshort | hzero
  · refine .inl ?_
    split
    · rfl
    · rw [IndexVector.entries, hone, Nat.cast_one, mul_one]
  · exact .inl (by rw [if_pos hlong])
  · refine .inl ?_
    split
    · rfl
    · obtain rfl : m = 0 := by omega
      rw [IndexVector.entries, Nat.cast_zero, zero_mul]
  · exact .inr hzero

/-- The element of the gathered product, where the row is found. -/
theorem gatheredProduct_loaded (found : RowsFound x indices) (mem : Memory R) {m : ℕ}
    (hm : m < indices.length) (n : ℕ) :
    gatheredProduct (launchArgs x indices weight out)
        { mem with indices := indices.loaded mem.indices } m n =
      gatheredProduct (launchArgs x indices weight out)
        { mem with indices := indices.entries mem.indices } m n := by
  refine Finset.sum_congr rfl fun k _ => ?_
  rcases loaded_eq_or found mem.indices hm with hrow | hzero
  · dsimp only
    rw [hrow]
  · dsimp only [launchArgs]
    rw [hzero, Nat.cast_zero, mul_zero, mul_zero]

/-- Where the rows are found, the product is gathered. -/
theorem gathersProduct_of_rowsFound (hc : c.Proper)
    (checked : checkArgs x indices weight out = .ok ()) (hN : 1 ≤ weight.cols)
    (coordinates : ∀ pid < gridSize c (launchArgs x indices weight out),
      ops.val (pidM ⟨ops, c, launchArgs x indices weight out, pid⟩) =
          (tile c (launchArgs x indices weight out) pid).1 ∧
        ops.val (pidN ⟨ops, c, launchArgs x indices weight out, pid⟩) =
          (tile c (launchArgs x indices weight out) pid).2)
    (agrees : ∀ mem : Memory R, InRange x indices mem.indices →
      Agrees ops c x indices weight out mem)
    (found : RowsFound x indices) : GathersProduct ops R c x indices weight out := by
  obtain ⟨htiles, heach⟩ := exact_tiles (a := launchArgs x indices weight out) hc hN
  refine ⟨fun pid h => ?_, fun m hm n hn => ?_, fun mem range order horder => ?_⟩
  · obtain ⟨m, hm, n, hn, htile⟩ := htiles pid h
    obtain ⟨hrow, hcol⟩ := coordinates pid h
    rw [htile] at hrow hcol
    exact ⟨m, hm, n, hn, hrow, hcol⟩
  · obtain ⟨pid, ⟨hpid, htile⟩, hunique⟩ := heach m hm n hn
    obtain ⟨hrow, hcol⟩ := coordinates pid hpid
    rw [htile] at hrow hcol
    refine ⟨pid, ⟨hpid, hrow, hcol⟩, fun pid' ⟨hpid', hrow', hcol'⟩ => hunique pid' ⟨hpid', ?_⟩⟩
    rw [(coordinates pid' hpid').1] at hrow'
    rw [(coordinates pid' hpid').2] at hcol'
    exact Prod.ext (Int.natCast_inj.mp hrow') (Int.natCast_inj.mp hcol')
  · obtain ⟨stores, hrun, hperm⟩ := gatherGemm_perm hc checked hN mem horder
    have hvalues : (outputCells indices.length weight.cols).map
        (store (launchArgs x indices weight out)
          { mem with indices := indices.loaded mem.indices }) =
        (outputCells indices.length weight.cols).map (store (launchArgs x indices weight out)
          { mem with indices := indices.entries mem.indices }) := by
      refine List.map_congr_left fun cell hcell => ?_
      rw [store, store, gatheredProduct_loaded found mem (mem_outputCells.mp hcell).1]
    rw [hvalues] at hperm
    rw [← agrees mem range order fun pid hpid => List.mem_range.mp (horder.mem_iff.mp hpid)] at hrun
    exact ⟨stores, hrun, hperm, fun distinct before => afterStores_of_perm before hperm distinct⟩

/-- Row numbers with one other row, which is next to the first row number in memory. -/
def straySecond (m : ℤ) : ℤ := if m = 1 then 1 else 0

theorem entries_straySecond (hstride : indices.stride ≠ 1) (m : ℕ) :
    indices.entries straySecond m = 0 := by
  refine if_neg fun hone => hstride ?_
  have hprod : m * indices.stride = 1 := by exact_mod_cast hone
  exact Nat.eq_one_of_mul_eq_one_left hprod

theorem fits_straySecond (o : ℤ) : Fits (straySecond o) := by
  unfold straySecond
  split <;> decide

/-- Where the product is gathered, the rows are found: otherwise the second row number is read from
a place that does not belong to the vector. -/
theorem rowsFound_of_gathersProduct [CharZero R] (hc : c.Proper)
    (checked : checkArgs x indices weight out = .ok ()) (hx : 1 ≤ x.rows) (hN : 1 ≤ weight.cols)
    (hK : 1 ≤ weight.rows)
    (agrees : ∀ mem : Memory R, mem.indices = straySecond → Agrees ops c x indices weight out mem)
    (gathers : GathersProduct ops R c x indices weight out) : RowsFound x indices := by
  by_contra hlost
  unfold RowsFound at hlost
  push Not at hlost
  obtain ⟨hstride, hlong, hlength, hrows⟩ := hlost
  -- the last element of the second row of the input is the only one that is not zero
  let last : ℤ := x.stride0 + (weight.rows - 1 : ℕ) * x.stride1
  let mem : Memory R := ⟨fun o => if o = last then 1 else 0, fun _ => 1, straySecond⟩
  have range : InRange x indices mem.indices := by
    refine ⟨fun _ => fits_straySecond, fun m _ => ?_⟩
    rw [entries_straySecond hstride]
    exact ⟨le_rfl, by exact_mod_cast hx⟩
  obtain ⟨stores, hrun, hperm, -⟩ := gathers.stores mem range _ (List.Perm.refl _)
  obtain ⟨stores', hrun', hperm'⟩ := gatherGemm_perm (R := R) hc checked hN mem (List.Perm.refl _)
  rw [agrees mem rfl _ fun pid hpid => List.mem_range.mp hpid, hrun'] at hrun
  obtain rfl := Except.ok.inj hrun
  have hloaded : indices.loaded mem.indices 1 = 1 := by
    rw [IndexVector.loaded, if_neg hlong]
    rfl
  have hstored : (store (launchArgs x indices weight out)
      { mem with indices := indices.loaded mem.indices } (1, 0)) ∈ stores' :=
    hperm'.mem_iff.mpr (List.mem_map_of_mem (mem_outputCells.mpr ⟨by omega, by omega⟩))
  obtain ⟨⟨m, n⟩, -, hsame⟩ := List.mem_map.mp (hperm.mem_iff.mp hstored)
  have hvalue : ∑ k ∈ Finset.range weight.rows,
      mem.x (indices.entries mem.indices m * x.stride0 + (k : ℤ) * x.stride1) *
        mem.w ((k : ℤ) * weight.stride0 + (n : ℤ) * weight.stride1) =
      gatheredProduct (launchArgs x indices weight out)
        { mem with indices := indices.loaded mem.indices } 1 0 := congrArg Prod.snd hsame
  have hzero : ∀ k ∈ Finset.range weight.rows,
      mem.x (indices.entries mem.indices m * x.stride0 + (k : ℤ) * x.stride1) *
        mem.w ((k : ℤ) * weight.stride0 + (n : ℤ) * weight.stride1) = 0 := by
    intro k hk
    have hle : (k : ℤ) * x.stride1 ≤ (weight.rows - 1 : ℕ) * x.stride1 := by
      have hk' := Finset.mem_range.mp hk
      exact mul_le_mul_of_nonneg_right (by omega) (Int.natCast_nonneg _)
    have hne : indices.entries mem.indices m * x.stride0 + (k : ℤ) * x.stride1 ≠ last := by
      rw [show indices.entries mem.indices m = 0 from entries_straySecond hstride m]
      have hpos : (0 : ℤ) < x.stride0 := by exact_mod_cast Nat.pos_of_ne_zero hrows
      dsimp only [last]
      omega
    rw [show mem.x _ = 0 from if_neg hne, zero_mul]
  rw [Finset.sum_eq_zero hzero] at hvalue
  -- the stored element counts the places at which that one is read
  have hcount : gatheredProduct (launchArgs x indices weight out)
      { mem with indices := indices.loaded mem.indices } 1 0 =
      (((Finset.range weight.rows).filter fun k : ℕ =>
        ((1 : ℤ) * x.stride0 + (k : ℤ) * x.stride1) = last).card : R) := by
    rw [gatheredProduct, Finset.natCast_card_filter]
    refine Finset.sum_congr rfl fun k _ => ?_
    dsimp only [launchArgs]
    rw [Nat.cast_one, hloaded]
    change (if _ then (1 : R) else 0) * 1 = _
    rw [mul_one]
  have hcard := hcount.symm.trans hvalue.symm
  have hmem : weight.rows - 1 ∈ (Finset.range weight.rows).filter fun k : ℕ =>
      ((1 : ℤ) * x.stride0 + (k : ℤ) * x.stride1) = last :=
    Finset.mem_filter.mpr ⟨Finset.mem_range.mpr (by omega), by rw [one_mul]⟩
  rw [Nat.cast_eq_zero, Finset.card_eq_zero] at hcard
  rw [hcard] at hmem
  exact Finset.notMem_empty _ hmem

end Launch

/-! ### The integers of the machine -/

section Machine

variable {R : Type} [Semiring R] {c : Config} {a : Args} {pid : ℕ}

theorem accumulator_eq_sum {I : Type} (p : Program I) (mem : Memory R) (i j n : ℕ) :
    p.accumulator mem i j n = ∑ k ∈ Finset.range n, ∑ l ∈ Finset.range p.config.blockSizeK,
      p.loadX mem i l k * p.loadW mem l j k := by
  induction n with
  | zero => rfl
  | succ n ih => rw [accumulator, ih, Finset.sum_range_succ]

/-- What a round adds, as long as there are rounds. -/
theorem accumulator_rounds {I : Type} (p : Program I) (mem : Memory R) (i j : ℕ) {n : ℕ}
    (hn : p.rounds ≤ n) : p.accumulator mem i j p.rounds =
      ∑ k ∈ Finset.range n, ∑ l ∈ Finset.range p.config.blockSizeK,
        if k < p.rounds then p.loadX mem i l k * p.loadW mem l j k else 0 := by
  rw [accumulator_eq_sum]
  refine (Finset.sum_congr rfl fun k hk => Finset.sum_congr rfl fun l _ =>
    (if_pos (Finset.mem_range.mp hk)).symm).trans
    (Finset.sum_subset (Finset.range_subset_range.mpr hn) fun k _ hk => ?_)
  exact Finset.sum_eq_zero fun l _ => if_neg fun hlt => hk (Finset.mem_range.mpr hlt)

/-- What a lane adds in a round, from what it accesses. -/
theorem term_eq_accesses {I : Type} (p : Program I) (mem : Memory R) {i j l k : ℕ}
    (hi : p.inM i = true) (hj : p.inN j = true) :
    (if k < p.rounds then p.loadX mem i l k * p.loadW mem l j k else 0) =
      match p.loadXAt mem.indices i l k, p.loadWAt l j k with
      | some (_, xAddress), some (_, wAddress) => mem.x xAddress * mem.w wAddress
      | _, _ => 0 := by
  unfold loadX loadW loadXAt loadWAt
  rw [hi, hj, Bool.true_and, Bool.and_true]
  by_cases hk : k < p.rounds
  · cases hin : p.inK k l <;> simp [hk]
  · simp [hk]

/-- Programs that access the same elements at the same addresses store the same. -/
theorem gatherMatmulKernel_machine (mem : Memory R) (same : OffsetsExact c a mem.indices)
    (h : pid < gridSize c a) :
    (machine c a pid).gatherMatmulKernel mem = (exact c a pid).gatherMatmulKernel mem := by
  obtain ⟨hstore, hloadX, hloadW⟩ := same pid h
  -- A lane stores in one arithmetic iff it does in the other.
  have hmask : ∀ i < c.blockSizeM, ∀ j < c.blockSizeN,
      ((machine c a pid).inM i && (machine c a pid).inN j) =
        ((exact c a pid).inM i && (exact c a pid).inN j) := by
    intro i hi j hj
    have hlane := hstore i hi j hj
    unfold storeAt at hlane
    split_ifs at hlane with hmachine hexact hexact
    · rw [hmachine, hexact]
    · rw [Bool.not_eq_true] at hmachine hexact
      rw [hmachine, hexact]
  refine List.flatMap_congr fun i hi => ?_
  have hi := List.mem_range.mp hi
  have hfilter : (List.range c.blockSizeN).filter
      (fun j => (machine c a pid).inM i && (machine c a pid).inN j) =
      (List.range c.blockSizeN).filter fun j => (exact c a pid).inM i && (exact c a pid).inN j :=
    List.filter_congr fun j hj => hmask i hi j (List.mem_range.mp hj)
  refine (congrArg _ hfilter).trans (List.map_congr_left fun j hj => ?_)
  obtain ⟨hj, hexact⟩ := List.mem_filter.mp hj
  have hj := List.mem_range.mp hj
  have hmachine := (hmask i hi j hj).trans hexact
  have hlane := hstore i hi j hj
  rw [storeAt, storeAt, if_pos hmachine, if_pos hexact, Option.some.injEq, Prod.mk.injEq,
    Prod.mk.injEq] at hlane
  -- The same loads give the same terms, round by round.
  have hterm : ∀ l < c.blockSizeK, ∀ k,
      (if k < (machine c a pid).rounds then
        (machine c a pid).loadX mem i l k * (machine c a pid).loadW mem l j k else 0) =
      if k < (exact c a pid).rounds then
        (exact c a pid).loadX mem i l k * (exact c a pid).loadW mem l j k else 0 := by
    intro l hl k
    have hx := hloadX i hi l hl k
    have hw := hloadW l hl j hj k
    rw [Bool.and_eq_true] at hmachine hexact
    rw [term_eq_accesses _ mem hmachine.1 hmachine.2,
      term_eq_accesses _ mem hexact.1 hexact.2, hx, hw]
  -- The two may differ in the number of rounds; rounds past either number add nothing.
  have hrounds := accumulator_rounds (machine c a pid) mem i j
    (le_max_left (machine c a pid).rounds (exact c a pid).rounds)
  have hrounds' := accumulator_rounds (exact c a pid) mem i j
    (le_max_right (machine c a pid).rounds (exact c a pid).rounds)
  rw [hlane.2.2, hrounds, hrounds']
  refine congrArg _ (Finset.sum_congr rfl fun k _ => Finset.sum_congr rfl fun l hl => ?_)
  exact hterm l (Finset.mem_range.mp hl) k

end Machine

section Launch

variable {R : Type} [Semiring R] {c : Config} {x weight out : Matrix} {indices : IndexVector}

theorem agrees_exact (mem : Memory R) : Agrees exactOps c x indices weight out mem :=
  fun _ _ => rfl

theorem agrees_machine {mem : Memory R} (same : OffsetsExact c (launchArgs x indices weight out)
    (indices.loaded mem.indices)) : Agrees machineOps c x indices weight out mem := by
  intro order hlt
  unfold gatherGemm
  refine bind_congr fun _ => congrArg Except.ok (List.flatMap_congr fun pid hpid => ?_)
  exact gatherMatmulKernel_machine { mem with indices := indices.loaded mem.indices } same
    (hlt pid hpid)

/-- The coordinates of the tile, with the integers of the machine. -/
theorem machine_coordinates {a : Args} {entries : ℤ → ℤ} {pid : ℕ} (hc : Tuned c)
    (hgrid : gridSize c a < 2 ^ 31) (h : pid < gridSize c a) (hfit : Unwrapped c a entries) :
    machineOps.val (pidM ⟨machineOps, c, a, pid⟩) = (tile c a pid).1 ∧
      machineOps.val (pidN ⟨machineOps, c, a, pid⟩) = (tile c a pid).2 := by
  have hsound : ColsSound c a pid := colsSound hc hfit.cols
  have hrows : (machine c a pid).numPidM.value = (hostCdiv a.M c.blockSizeM : ℕ) :=
    value_machine_cdiv hc.proper.blockSizeM hfit.rows
  rw [show machineOps.val = value from rfl]
  exact ⟨value_pidM hc hgrid h hrows hsound, value_pidN hc hgrid h hrows hsound⟩

/-- Other row numbers that fit into 32 bits. -/
theorem Unwrapped.withIndices {a : Args} {entries entries' : ℤ → ℤ} (h : Unwrapped c a entries)
    (fits : a.K = 0 ∨ a.strideXm = 0 ∨ ∀ m < a.M, Fits (entries' m)) : Unwrapped c a entries' :=
  ⟨h.rows, h.cols, h.inner, h.strideXk, h.strideWk, h.strideWn, fits⟩

theorem agrees_straySecond (hc : Tuned c)
    (hgrid : gridSize c (launchArgs x indices weight out) < 2 ^ 31) {entries : ℤ → ℤ}
    (hfit : Unwrapped c (launchArgs x indices weight out) entries) {mem : Memory R}
    (hstray : mem.indices = straySecond) : Agrees machineOps c x indices weight out mem := by
  refine agrees_machine (offsetsExact_of_unwrapped hc hgrid
    (hfit.withIndices (.inr (.inr fun m _ => ?_))))
  rw [hstray]
  unfold IndexVector.loaded IndexVector.entries
  split
  · exact fits_straySecond _
  · exact fits_straySecond _

/-- A launch computes the gathered product, with exact indices, if and only if its row numbers are
found. With the integers of the machine this is so if nothing leaves 32 bits, the number of the last
row of the input included where it is converted. -/
theorem gatherGemm_iff [CharZero R] (c : Config) (hc : c.Proper) (x weight out : Matrix)
    (indices : IndexVector) (checked : checkArgs x indices weight out = .ok ())
    (hM : 1 ≤ indices.length) (hN : 1 ≤ weight.cols) (hK : 1 ≤ weight.rows) (hx : 1 ≤ x.rows) :
    (GathersProduct exactOps R c x indices weight out ↔ RowsFound x indices) ∧
      (c ∈ autotuneConfigs → gridSize c (launchArgs x indices weight out) < 2 ^ 31 →
        Unwrapped c (launchArgs x indices weight out) (fun _ => lastConverted x indices) →
        (GathersProduct machineOps R c x indices weight out ↔ RowsFound x indices)) := by
  constructor
  · refine ⟨rowsFound_of_gathersProduct hc checked hx hN hK fun mem _ => agrees_exact mem,
      gathersProduct_of_rowsFound hc checked hN (fun pid h => ?_) fun mem _ => agrees_exact mem⟩
    exact ⟨exact_pidM hc h, exact_pidN hc h⟩
  · intro hmem hgrid hfit
    have htuned := tuned_of_mem hmem
    -- The bound holds for the greatest row number, unless the kernel multiplies it by zero.
    have hlast : x.stride0 = 0 ∨ Fits (lastConverted x indices) := by
      rcases hfit.indices with hzero | hzero | hall
      · exact absurd hzero (by change weight.rows ≠ 0; omega)
      · exact .inl hzero
      · exact .inr (hall 0 hM)
    refine ⟨rowsFound_of_gathersProduct hc checked hx hN hK fun mem => agrees_straySecond htuned
      hgrid hfit, fun found => gathersProduct_of_rowsFound hc checked hN (fun pid h => ?_)
        (fun mem range => agrees_machine ?_) found⟩
    · exact machine_coordinates htuned hgrid h hfit
    · -- If the rows are found, every index that is converted is at most this number.
      refine offsetsExact_of_unwrapped htuned hgrid (hfit.withIndices (.inr ?_))
      by_cases hzero : x.stride0 = 0
      · exact .inl hzero
      · refine .inr fun m hm => ?_
        by_cases hlong : indices.dtype = .int64
        · obtain ⟨-, hlt⟩ := hlast.resolve_left hzero
          obtain ⟨hnonneg, hrow⟩ := range.2 m hm
          rw [lastConverted, if_pos hlong] at hlt
          rw [(loaded_eq_or found mem.indices hm).resolve_right hzero]
          exact ⟨by omega, by omega⟩
        · rw [IndexVector.loaded, if_neg hlong]
          exact range.1 hlong m

/-- Of the nine rows of tiles, the last group has one. -/
theorem gatherGemm_iff_contiguous :
    GathersProduct machineOps ℤ ⟨128, 128, 64, 8⟩ ⟨9, 100, 100, 1, .float16, true⟩
      ⟨1025, 1, .int32, true⟩ ⟨100, 200, 200, 1, .float16, true⟩
      ⟨1025, 200, 200, 1, .float16, true⟩ := by
  refine ((gatherGemm_iff (R := ℤ) ⟨128, 128, 64, 8⟩ ?_ ⟨9, 100, 100, 1, .float16, true⟩
    ⟨100, 200, 200, 1, .float16, true⟩ ⟨1025, 200, 200, 1, .float16, true⟩
    ⟨1025, 1, .int32, true⟩ rfl (by decide) (by decide) (by decide) (by decide)).2 (by decide)
    (by decide) ?_).mpr (by decide)
  · exact ⟨by decide, by decide, by decide, by decide⟩
  · exact ⟨.inl (by decide), .inl (by decide), .inl (by decide), .inr (.inr (by decide)),
      .inr (.inr (by decide)), .inr (.inl (by decide)), .inr (.inr fun _ _ => by decide)⟩

/-- Of two row numbers with a gap, the second is not read. -/
theorem strided_not_gathered :
    checkArgs ⟨2, 1, 1, 1, .float16, true⟩ ⟨2, 2, .int32, true⟩ ⟨1, 1, 1, 1, .float16, true⟩
      ⟨2, 1, 1, 1, .float16, true⟩ = .ok () ∧
    ¬GathersProduct exactOps ℤ ⟨128, 128, 64, 8⟩ ⟨2, 1, 1, 1, .float16, true⟩
      ⟨2, 2, .int32, true⟩ ⟨1, 1, 1, 1, .float16, true⟩ ⟨2, 1, 1, 1, .float16, true⟩ ∧
    ¬GathersProduct machineOps ℤ ⟨128, 128, 64, 8⟩ ⟨2, 1, 1, 1, .float16, true⟩
      ⟨2, 2, .int32, true⟩ ⟨1, 1, 1, 1, .float16, true⟩ ⟨2, 1, 1, 1, .float16, true⟩ := by
  have lost : ¬RowsFound ⟨2, 1, 1, 1, .float16, true⟩ ⟨2, 2, .int32, true⟩ := by decide
  have hc : Config.Proper ⟨128, 128, 64, 8⟩ := ⟨by decide, by decide, by decide, by decide⟩
  have hfit : Unwrapped ⟨128, 128, 64, 8⟩ (launchArgs ⟨2, 1, 1, 1, .float16, true⟩
      ⟨2, 2, .int32, true⟩ ⟨1, 1, 1, 1, .float16, true⟩ ⟨2, 1, 1, 1, .float16, true⟩)
      (fun _ => 0) :=
    ⟨.inl (by decide), .inl (by decide), .inl (by decide), .inr (.inl (by decide)),
      .inr (.inl (by decide)), .inr (.inl (by decide)), .inr (.inr fun _ _ => by decide)⟩
  refine ⟨rfl, fun gathers => lost ?_, fun gathers => lost ?_⟩
  · exact rowsFound_of_gathersProduct hc rfl (by decide) (by decide) (by decide)
      (fun mem _ => agrees_exact mem) gathers
  · exact rowsFound_of_gathersProduct hc rfl (by decide) (by decide) (by decide)
      (fun mem => agrees_straySecond (tuned_of_mem (by decide)) (by decide) hfit) gathers

end Launch

end Gemm
