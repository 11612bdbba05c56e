import Mosaic.Gemm.Kernel
import Mosaic.Gemm.GroupedOrder
import Mosaic.Control.Chunks
import Mathlib.Algebra.Order.Ring.Int
import Mathlib.Data.List.Perm.Basic
import Mathlib.Tactic.Ring

/-!
# The kernel computes the gathered product

With exact indices, the programs of a launch store every element of the output once and nothing
else, and what they store is the product of the gathered rows with the weight.
-/

namespace Gemm

open List Function Finset Int

/-- The integers as an arithmetic on indices. -/
def exactOps : IndexOps ℤ where
  lit n := n
  val n := n
  add a b := a + b
  sub a b := a - b
  mul a b := a * b
  div a b := a.tdiv b
  mod a b := a.tmod b
  min a b := min a b
  toInt64 a := a
  counter _ k := k
  narrow n := n

/-- All block sizes are positive. -/
structure Config.Proper (c : Config) : Prop where
  blockSizeM : 0 < c.blockSizeM
  blockSizeN : 0 < c.blockSizeN
  blockSizeK : 0 < c.blockSizeK
  groupSizeM : 0 < c.groupSizeM

namespace Program

/-- A program of a launch with exact indices. -/
def exact (c : Config) (a : Args) (pid : ℕ) : Program ℤ :=
  ⟨exactOps, c, a, pid⟩

variable {R : Type} [Semiring R] {c : Config} {a : Args} {pid : ℕ} {i j k l : ℕ}

/-! ### The tile -/

/-- The tile of a program. -/
def tile (c : Config) (a : Args) (pid : ℕ) : ℕ × ℕ :=
  GroupedOrder.tile (hostCdiv a.M c.blockSizeM) (hostCdiv a.N c.blockSizeN) c.groupSizeM pid

/-- The row of the output that a lane computes. -/
def row (c : Config) (a : Args) (pid i : ℕ) : ℕ :=
  (tile c a pid).1 * c.blockSizeM + i

/-- The column of the output that a lane computes. -/
def col (c : Config) (a : Args) (pid j : ℕ) : ℕ :=
  (tile c a pid).2 * c.blockSizeN + j

theorem exact_cdiv (x size : ℕ) (hsize : 0 < size) :
    (exact c a pid).cdiv (x : ℤ) size = (hostCdiv x size : ℕ) := by
  have hcast : (x : ℤ) + size - 1 = ((x + size - 1 : ℕ) : ℤ) := by omega
  change Int.tdiv ((x : ℤ) + size - 1) size = _
  rw [hcast, ← ofNat_tdiv]
  rfl

theorem exact_firstPidM (hc : c.Proper) :
    (exact c a pid).firstPidM =
      (GroupedOrder.firstRow (hostCdiv a.N c.blockSizeN) c.groupSizeM pid : ℕ) := by
  change Int.tdiv (pid : ℤ) (c.groupSizeM * (exact c a pid).numPidN) * c.groupSizeM = _
  rw [show (exact c a pid).numPidN = (hostCdiv a.N c.blockSizeN : ℕ) from
    exact_cdiv _ _ hc.blockSizeN, ← natCast_mul, ← ofNat_tdiv, ← natCast_mul]
  rfl

section

variable (hc : c.Proper) (h : pid < gridSize c a)
include hc h

/-- The part of the launch that the last group leaves is not negative. -/
theorem exact_groupSize :
    (exact c a pid).groupSize = (GroupedOrder.groupRows (hostCdiv a.M c.blockSizeM) c.groupSizeM
      (GroupedOrder.firstRow (hostCdiv a.N c.blockSizeN) c.groupSizeM pid) : ℕ) := by
  have hfirst := GroupedOrder.firstRow_lt c.groupSizeM h
  change min ((exact c a pid).numPidM - (exact c a pid).firstPidM) (c.groupSizeM : ℤ) = _
  rw [exact_firstPidM hc, show (exact c a pid).numPidM = (hostCdiv a.M c.blockSizeM : ℕ) from
    exact_cdiv _ _ hc.blockSizeM, GroupedOrder.groupRows]
  omega

theorem exact_pidM : (exact c a pid).pidM = ((tile c a pid).1 : ℕ) := by
  change (exact c a pid).firstPidM + Int.tmod (pid : ℤ) (exact c a pid).groupSize = _
  rw [exact_groupSize hc h, exact_firstPidM hc, ← ofNat_tmod, ← natCast_add]
  rfl

theorem exact_pidN : (exact c a pid).pidN = ((tile c a pid).2 : ℕ) := by
  change Int.tmod (Int.tdiv (pid : ℤ) (exact c a pid).groupSize) (exact c a pid).numPidN = _
  rw [exact_groupSize hc h, show (exact c a pid).numPidN = (hostCdiv a.N c.blockSizeN : ℕ) from
    exact_cdiv _ _ hc.blockSizeN, ← ofNat_tdiv, ← ofNat_tmod]
  rfl

theorem exact_offsM (i : ℕ) : (exact c a pid).offsM i = (row c a pid i : ℕ) := by
  change (exact c a pid).pidM * c.blockSizeM + i = _
  rw [exact_pidM hc h, row]
  push_cast
  rfl

theorem exact_offsN (j : ℕ) : (exact c a pid).offsN j = (col c a pid j : ℕ) := by
  change (exact c a pid).pidN * c.blockSizeN + j = _
  rw [exact_pidN hc h, col]
  push_cast
  rfl

/-! ### Masks and addresses -/

theorem exact_inM (i : ℕ) : (exact c a pid).inM i = decide (row c a pid i < a.M) := by
  rw [inM, exact_offsM hc h]
  exact decide_eq_decide.mpr ofNat_lt

theorem exact_inN (j : ℕ) : (exact c a pid).inN j = decide (col c a pid j < a.N) := by
  rw [inN, exact_offsN hc h]
  exact decide_eq_decide.mpr ofNat_lt

end

theorem exact_rounds (hc : c.Proper) :
    (exact c a pid).rounds = hostCdiv a.K c.blockSizeK := by
  rw [rounds]
  exact congrArg Int.toNat (exact_cdiv _ _ hc.blockSizeK)

theorem exact_inK (k l : ℕ) :
    (exact c a pid).inK k l = decide (k * c.blockSizeK + l < a.K) := by
  refine decide_eq_decide.mpr ?_
  change (l : ℤ) < a.K - k * c.blockSizeK ↔ _
  rw [← natCast_mul]
  omega

section

variable (hc : c.Proper) (h : pid < gridSize c a)
include hc h

theorem exact_xPtr (indices : ℤ → ℤ) (hi : row c a pid i < a.M) (k : ℕ) :
    (exact c a pid).xPtr indices i l k = indices (row c a pid i) * a.strideXm +
      ((k * c.blockSizeK + l : ℕ) : ℤ) * a.strideXk := by
  induction k with
  | zero =>
    change (exact c a pid).rowIndex indices i * a.strideXm + (l : ℤ) * a.strideXk = _
    rw [rowIndex, exact_inM hc h, if_pos (decide_eq_true hi), exact_offsM hc h]
    push_cast
    rw [zero_mul, zero_add]
    rfl
  | succ k ih =>
    rw [xPtr, ih]
    change _ + (c.blockSizeK : ℤ) * a.strideXk = _
    push_cast
    ring

theorem exact_wPtr (k : ℕ) :
    (exact c a pid).wPtr l j k = ((k * c.blockSizeK + l : ℕ) : ℤ) * a.strideWk +
      (col c a pid j : ℤ) * a.strideWn := by
  induction k with
  | zero =>
    change (l : ℤ) * a.strideWk + (exact c a pid).offsN j * a.strideWn = _
    rw [exact_offsN hc h]
    push_cast
    rw [zero_mul, zero_add]
  | succ k ih =>
    rw [wPtr, ih]
    change _ + (c.blockSizeK : ℤ) * a.strideWk = _
    push_cast
    ring

theorem exact_outPtr (i j : ℕ) : (exact c a pid).outPtr i j =
      a.strideOm * (row c a pid i : ℤ) + a.strideOn * (col c a pid j : ℤ) := by
  change (a.strideOm : ℤ) * (exact c a pid).offsM i + a.strideOn * (exact c a pid).offsN j = _
  rw [exact_offsM hc h, exact_offsN hc h]

/-! ### The product -/

end

/-- An element of the gathered product. -/
def gatheredProduct (a : Args) (mem : Memory R) (m n : ℕ) : R :=
  ∑ k ∈ range a.K, mem.x (mem.indices m * a.strideXm + (k : ℤ) * a.strideXk) *
    mem.w ((k : ℤ) * a.strideWk + (n : ℤ) * a.strideWn)

section

variable (hc : c.Proper) (h : pid < gridSize c a) (mem : Memory R) (hi : row c a pid i < a.M)
  (hj : col c a pid j < a.N)
include hc h mem hi hj

/-- A round adds the terms of its columns, as far as there are any. -/
theorem accumulator_succ (k : ℕ) :
    (exact c a pid).accumulator mem i j (k + 1) = (exact c a pid).accumulator mem i j k +
      ∑ l ∈ range c.blockSizeK,
        if k * c.blockSizeK + l < a.K then
          mem.x (mem.indices (row c a pid i) * a.strideXm +
            ((k * c.blockSizeK + l : ℕ) : ℤ) * a.strideXk) *
          mem.w (((k * c.blockSizeK + l : ℕ) : ℤ) * a.strideWk + (col c a pid j : ℤ) * a.strideWn)
        else 0 := by
  rw [accumulator]
  refine congrArg _ (Finset.sum_congr rfl fun l _ => ?_)
  rw [loadX, loadW, exact_inM hc h, exact_inN hc h, exact_inK, decide_eq_true hi,
    decide_eq_true hj, Bool.true_and, Bool.and_true, exact_xPtr hc h _ hi, exact_wPtr hc h]
  by_cases hk : k * c.blockSizeK + l < a.K
  · simp only [hk, decide_true, if_true]
  · simp only [hk, decide_false, Bool.false_eq_true, if_false, mul_zero]

theorem accumulator_eq_range (k : ℕ) :
    (exact c a pid).accumulator mem i j k = ∑ q ∈ range (k * c.blockSizeK),
      if q < a.K then
        mem.x (mem.indices (row c a pid i) * a.strideXm + (q : ℤ) * a.strideXk) *
          mem.w ((q : ℤ) * a.strideWk + (col c a pid j : ℤ) * a.strideWn)
      else 0 := by
  induction k with
  | zero => rw [zero_mul, Finset.sum_range_zero, accumulator]
  | succ k ih => rw [accumulator_succ hc h mem hi hj, ih, Nat.add_one_mul, Finset.sum_range_add]

/-- After the loop the accumulator holds the product. -/
theorem accumulator_eq : (exact c a pid).accumulator mem i j (exact c a pid).rounds =
      gatheredProduct a mem (row c a pid i) (col c a pid j) := by
  have hall : a.K ≤ hostCdiv a.K c.blockSizeK * c.blockSizeK :=
    Chunks.le_chunks_mul _ _ hc.blockSizeK
  rw [exact_rounds hc, accumulator_eq_range hc h mem hi hj, gatheredProduct]
  -- the last round may reach beyond the last column
  refine (Finset.sum_subset (Finset.range_subset_range.mpr hall) fun q _ hq => ?_).symm.trans
    (Finset.sum_congr rfl fun q hq => if_pos (Finset.mem_range.mp hq))
  exact if_neg fun hlt => hq (Finset.mem_range.mpr hlt)

/-! ### The output elements of a program -/

end

/-- The output elements of a program. -/
def cells (c : Config) (a : Args) (pid : ℕ) : List (ℕ × ℕ) :=
  (List.range c.blockSizeM).flatMap fun i =>
    ((List.range c.blockSizeN).filter fun j => row c a pid i < a.M ∧ col c a pid j < a.N).map
      fun j => (row c a pid i, col c a pid j)

/-- The store of an output element. -/
def store (a : Args) (mem : Memory R) (cell : ℕ × ℕ) : ℤ × R :=
  (a.strideOm * (cell.1 : ℤ) + a.strideOn * (cell.2 : ℤ), gatheredProduct a mem cell.1 cell.2)

/-- A program stores its output elements. -/
theorem gatherMatmulKernel_exact (hc : c.Proper) (h : pid < gridSize c a) (mem : Memory R) :
    (exact c a pid).gatherMatmulKernel mem = (cells c a pid).map (store a mem) := by
  rw [gatherMatmulKernel, cells, List.map_flatMap]
  refine List.flatMap_congr fun i _ => ?_
  rw [List.map_map]
  have hfilter : (List.range c.blockSizeN).filter
      (fun j => (exact c a pid).inM i && (exact c a pid).inN j) =
      (List.range c.blockSizeN).filter fun j => row c a pid i < a.M ∧ col c a pid j < a.N := by
    refine List.filter_congr fun j _ => ?_
    rw [exact_inM hc h, exact_inN hc h, Bool.decide_and]
  refine (congrArg _ hfilter).trans (List.map_congr_left fun j hj => ?_)
  obtain ⟨hi, hj⟩ := of_decide_eq_true (List.mem_filter.mp hj).2
  rw [exact_outPtr hc h, accumulator_eq hc h mem hi hj]
  rfl

theorem mem_cells {m n : ℕ} : (m, n) ∈ cells c a pid ↔ ∃ i < c.blockSizeM, ∃ j < c.blockSizeN,
    row c a pid i = m ∧ col c a pid j = n ∧ m < a.M ∧ n < a.N := by
  simp only [cells, List.mem_flatMap, List.mem_map, List.mem_filter, List.mem_range,
    decide_eq_true_eq, Prod.mk.injEq]
  constructor
  · rintro ⟨i, hi, j, ⟨hj, hm, hn⟩, rfl, rfl⟩
    exact ⟨i, hi, j, hj, rfl, rfl, hm, hn⟩
  · rintro ⟨i, hi, j, hj, rfl, rfl, hm, hn⟩
    exact ⟨i, hi, j, ⟨hj, hm, hn⟩, rfl, rfl⟩

/-- An output element tells its tile. -/
theorem tile_of_mem_cells {m n : ℕ} (h : (m, n) ∈ cells c a pid) :
    tile c a pid = (m / c.blockSizeM, n / c.blockSizeN) := by
  obtain ⟨_, hi, _, hj, rfl, rfl, -⟩ := mem_cells.mp h
  refine Prod.ext ?_ ?_
  · change _ = (_ * _ + _) / _
    rw [add_comm, Nat.add_mul_div_right _ _ (Nat.zero_lt_of_lt hi), Nat.div_eq_of_lt hi, zero_add]
  · change _ = (_ * _ + _) / _
    rw [add_comm, Nat.add_mul_div_right _ _ (Nat.zero_lt_of_lt hj), Nat.div_eq_of_lt hj, zero_add]

theorem nodup_cells (pid : ℕ) : (cells c a pid).Nodup := by
  refine nodup_flatMap.mpr ⟨fun i _ => ?_, ?_⟩
  · refine (List.Nodup.filter _ nodup_range).map fun j j' same => ?_
    exact Nat.add_left_cancel (Prod.mk.inj same).2
  · -- different lanes have different rows
    refine nodup_range.imp fun {i i'} hne => ?_
    intro cell hcell hcell'
    obtain ⟨j, -, rfl⟩ := mem_map.mp hcell
    obtain ⟨j', -, same⟩ := mem_map.mp hcell'
    exact hne (Nat.add_left_cancel (Prod.mk.inj same).1).symm

end Program

/-! ### The launch -/

section Launch

variable {R : Type} [Semiring R] {c : Config} {a : Args} {order : List ℕ}

open Program

/-- The elements of a matrix with `M` rows and `N` columns. -/
def outputCells (M N : ℕ) : List (ℕ × ℕ) :=
  List.range M ×ˢ List.range N

theorem mem_outputCells {M N m n : ℕ} : (m, n) ∈ outputCells M N ↔ m < M ∧ n < N := by
  rw [outputCells, List.mem_product, List.mem_range, List.mem_range]

theorem nodup_outputCells (M N : ℕ) : (outputCells M N).Nodup :=
  nodup_range.product nodup_range

theorem div_lt_hostCdiv {x size n : ℕ} (hsize : 0 < size) (h : n < x) :
    n / size < hostCdiv x size := by
  rw [Nat.div_lt_iff_lt_mul hsize]
  exact h.trans_le (Chunks.le_chunks_mul _ _ hsize)

/-- Every element of the output belongs to a program. -/
theorem exists_program (hc : c.Proper) {m n : ℕ} (hm : m < a.M) (hn : n < a.N) :
    ∃ pid < gridSize c a, (m, n) ∈ cells c a pid := by
  have hrow := div_lt_hostCdiv hc.blockSizeM hm
  have hcol := div_lt_hostCdiv hc.blockSizeN hn
  obtain ⟨pid, hpid, htile⟩ := GroupedOrder.tile_surjective (Nat.zero_lt_of_lt hcol)
    hc.groupSizeM hrow hcol
  refine ⟨pid, hpid, mem_cells.mpr ⟨m % c.blockSizeM, Nat.mod_lt _ hc.blockSizeM,
    n % c.blockSizeN, Nat.mod_lt _ hc.blockSizeN, ?_, ?_, hm, hn⟩⟩
  · rw [row, tile, htile, mul_comm]
    exact Nat.div_add_mod m c.blockSizeM
  · rw [col, tile, htile, mul_comm]
    exact Nat.div_add_mod n c.blockSizeN

/-- The programs of a launch have all output elements, each once. -/
theorem cells_perm (hc : c.Proper) (hN : 0 < a.N)
    (horder : order.Perm (List.range (gridSize c a))) :
    (order.flatMap (cells c a)).Perm (outputCells a.M a.N) := by
  have hcols : 0 < hostCdiv a.N c.blockSizeN :=
    Nat.zero_lt_of_lt (div_lt_hostCdiv hc.blockSizeN hN)
  have hlt : ∀ pid ∈ order, pid < gridSize c a := fun pid h =>
    List.mem_range.mp (horder.mem_iff.mp h)
  have hnodup : (order.flatMap (cells c a)).Nodup := by
    refine List.nodup_flatMap.mpr ⟨fun pid _ => nodup_cells pid, ?_⟩
    refine List.Pairwise.imp_of_mem ?_ (horder.nodup_iff.mpr List.nodup_range)
    intro pid pid' hpid hpid' hne ⟨m, n⟩ hcell hcell'
    have same : tile c a pid = tile c a pid' :=
      (tile_of_mem_cells hcell).trans (tile_of_mem_cells hcell').symm
    exact hne (GroupedOrder.tile_injective hcols hc.groupSizeM (hlt pid hpid) (hlt pid' hpid') same)
  refine (List.perm_ext_iff_of_nodup hnodup (nodup_outputCells _ _)).mpr fun ⟨m, n⟩ => ?_
  rw [List.mem_flatMap, mem_outputCells]
  constructor
  · rintro ⟨pid, -, h⟩
    obtain ⟨_, _, _, _, -, -, hm, hn⟩ := mem_cells.mp h
    exact ⟨hm, hn⟩
  · rintro ⟨hm, hn⟩
    obtain ⟨pid, hpid, h⟩ := exists_program hc hm hn
    exact ⟨pid, horder.mem_iff.mpr (List.mem_range.mpr hpid), h⟩

/-- The memory after some stores. -/
def afterStores (stores : List (ℤ × R)) (m : ℤ → R) : ℤ → R :=
  stores.foldl (fun m s => update m s.1 s.2) m

omit [Semiring R] in
theorem afterStores_of_not_mem {stores : List (ℤ × R)} {address : ℤ} (m : ℤ → R)
    (h : address ∉ stores.map Prod.fst) : afterStores stores m address = m address := by
  induction stores generalizing m with
  | nil => rfl
  | cons s rest ih =>
    rw [List.map_cons, List.mem_cons, not_or] at h
    exact (ih _ h.2).trans (update_of_ne h.1 _ _)

omit [Semiring R] in
theorem afterStores_of_mem {stores : List (ℤ × R)} {address : ℤ} {value : R} (m : ℤ → R)
    (distinct : (stores.map Prod.fst).Nodup) (h : (address, value) ∈ stores) :
    afterStores stores m address = value := by
  induction stores generalizing m with
  | nil => cases h
  | cons s rest ih =>
    rw [List.map_cons, List.nodup_cons] at distinct
    rcases List.mem_cons.mp h with rfl | h
    · -- no later store has the same address
      exact (afterStores_of_not_mem _ distinct.1).trans (update_self ..)
    · exact ih _ distinct.2 h

/-- The stores of a launch, up to their order. -/
theorem gatherGemm_perm (hc : c.Proper) {x weight out : Matrix} {indices : IndexVector}
    (checked : checkArgs x indices weight out = .ok ()) (hN : 0 < weight.cols) (mem : Memory R)
    (horder : order.Perm (List.range (gridSize c (launchArgs x indices weight out)))) :
    ∃ stores, gatherGemm exactOps c x indices weight out mem order = .ok stores ∧
      stores.Perm ((outputCells indices.length weight.cols).map
        (store (launchArgs x indices weight out)
          { mem with indices := indices.loaded mem.indices })) := by
  refine ⟨_, by rw [gatherGemm, checked]; rfl, ?_⟩
  have hkernel : order.flatMap (fun pid => (exact c (launchArgs x indices weight out)
      pid).gatherMatmulKernel { mem with indices := indices.loaded mem.indices }) =
        (order.flatMap (cells c (launchArgs x indices weight out))).map
          (store (launchArgs x indices weight out)
            { mem with indices := indices.loaded mem.indices }) := by
    rw [List.map_flatMap]
    refine List.flatMap_congr fun pid hpid => ?_
    exact gatherMatmulKernel_exact hc (List.mem_range.mp (horder.mem_iff.mp hpid)) _
  exact (List.Perm.of_eq hkernel).trans ((cells_perm hc hN horder).map _)

/-- Stores of all elements at distinct addresses leave the elements and nothing else. -/
theorem afterStores_of_perm {M N : ℕ} {stores : List (ℤ × R)} {address : ℕ → ℕ → ℤ}
    {value : ℕ → ℕ → R} (before : ℤ → R)
    (hperm : stores.Perm ((outputCells M N).map fun cell =>
      (address cell.1 cell.2, value cell.1 cell.2)))
    (distinct : ∀ m < M, ∀ n < N, ∀ m' < M, ∀ n' < N,
      address m n = address m' n' → m = m' ∧ n = n') :
    (∀ m < M, ∀ n < N, afterStores stores before (address m n) = value m n) ∧
      ∀ other, (∀ m < M, ∀ n < N, other ≠ address m n) →
        afterStores stores before other = before other := by
  have hkeys : (stores.map Prod.fst).Perm
      ((outputCells M N).map fun cell => address cell.1 cell.2) := by
    refine (hperm.map Prod.fst).trans (List.Perm.of_eq ?_)
    rw [List.map_map]
    rfl
  have hnodup : (stores.map Prod.fst).Nodup := by
    refine hkeys.nodup_iff.mpr (List.Nodup.map_on ?_ (nodup_outputCells _ _))
    rintro ⟨m, n⟩ h ⟨m', n'⟩ h' same
    obtain ⟨hm, hn⟩ := mem_outputCells.mp h
    obtain ⟨hm', hn'⟩ := mem_outputCells.mp h'
    obtain ⟨rfl, rfl⟩ := distinct m hm n hn m' hm' n' hn' same
    rfl
  refine ⟨fun m hm n hn => afterStores_of_mem before hnodup ?_, fun other hother =>
    afterStores_of_not_mem before fun h => ?_⟩
  · exact hperm.mem_iff.mpr (List.mem_map.mpr ⟨(m, n), mem_outputCells.mpr ⟨hm, hn⟩, rfl⟩)
  · obtain ⟨⟨m, n⟩, hcell, rfl⟩ := List.mem_map.mp (hkeys.mem_iff.mp h)
    obtain ⟨hm, hn⟩ := mem_outputCells.mp hcell
    exact hother m hm n hn rfl

/-- The tile of every program is one of the grid, and every tile is that of one program. -/
theorem exact_tiles (hc : c.Proper) (hN : 1 ≤ a.N) :
    (∀ pid < gridSize c a, ∃ m < hostCdiv a.M c.blockSizeM, ∃ n < hostCdiv a.N c.blockSizeN,
      tile c a pid = (m, n)) ∧
    ∀ m < hostCdiv a.M c.blockSizeM, ∀ n < hostCdiv a.N c.blockSizeN,
      ∃! pid, pid < gridSize c a ∧ tile c a pid = (m, n) := by
  have hcols : 0 < hostCdiv a.N c.blockSizeN :=
    Nat.zero_lt_of_lt (div_lt_hostCdiv hc.blockSizeN hN)
  refine ⟨fun pid h => ?_, fun m hm n hn => ?_⟩
  · obtain ⟨hrow, hcol⟩ := GroupedOrder.tile_mem hcols hc.groupSizeM h
    exact ⟨_, hrow, _, hcol, rfl⟩
  · obtain ⟨pid, hpid, htile⟩ := GroupedOrder.tile_surjective hcols hc.groupSizeM hm hn
    exact ⟨pid, ⟨hpid, htile⟩, fun pid' ⟨hpid', hsame⟩ =>
      GroupedOrder.tile_injective hcols hc.groupSizeM hpid' hpid (hsame.trans htile.symm)⟩

end Launch

end Gemm
