import Mosaic.Pool.ActivationMemoryPool

/-!
# The pool on virtual memory

The pool and its allocator round in different units and keep a counter each: the pool counts in
chunks, capped at its own size, and the allocator in units of the driver. What the pool believes
to be mapped is never more than what the allocator has mapped, and the mapped segments tile a
prefix of the reserved addresses, after any number of calls.

The results are about a device whose driver calls succeed. A reservation of no bytes is not
granted, which is what rules out a pool size that wraps around when it is rounded.
-/

namespace Pool

/-- Every call of the driver that maps memory succeeds. -/
def succeeds : ℕ → ℕ → Bool := fun _ _ => true

/-! ### The allocator -/

theorem VMMAllocator.reserve_eq_ok {grant : ℕ → Bool} {granularity size : ℕ} {a : VMMAllocator}
    (h : (VMMAllocator.new granularity).reserve grant size = .ok a) :
    grant (alignUp size granularity) = true ∧
      a = ⟨true, granularity, alignUp size granularity, 0, []⟩ := by
  change (if grant (alignUp size granularity) then
    Except.ok ⟨true, granularity, alignUp size granularity, 0, []⟩
    else .error (VMMError.driver 0 (alignUp size granularity))) = .ok a at h
  split at h
  · rename_i hgrant
    cases h
    exact ⟨hgrant, rfl⟩
  · cases h

/-- Mapping a prefix of the reserved addresses extends the tiling by what is missing. -/
theorem VMMAllocator.mapPhysical_prefix {a : VMMAllocator} {size : ℕ}
    (ready : a.initialized = true) (tiles : Tiles a.segments a.mappedSize)
    (within : a.mappedSize ≤ a.reservedSize) (hpos : 0 < a.granularity)
    (exact : size + a.granularity - 1 < 2 ^ 64)
    (fits : alignUp size a.granularity ≤ a.reservedSize) :
    ∃ a', a.mapPhysical succeeds 0 size = .ok a' ∧ a'.initialized = true ∧
      a'.granularity = a.granularity ∧ a'.reservedSize = a.reservedSize ∧
      Tiles a'.segments a'.mappedSize ∧ a'.mappedSize ≤ a'.reservedSize ∧
      size ≤ a'.mappedSize ∧ a.mappedSize ≤ a'.mappedSize := by
  have hzero : alignUp 0 a.granularity = 0 := by
    rw [alignUp_eq (by omega), zero_add, Nat.div_eq_of_lt (by omega), zero_mul]
  have hstop : (alignUp 0 a.granularity + alignUp size a.granularity) % 2 ^ 64 =
      alignUp size a.granularity := by
    rw [hzero, zero_add, Nat.mod_eq_of_lt (alignUp_lt exact)]
  have hle := le_alignUp hpos exact
  unfold mapPhysical
  simp only [ready, hstop, not_lt.mpr fits, succeeds, Bool.not_true, Bool.false_eq_true, if_false,
    if_true]
  split
  · exact ⟨a, rfl, ready, rfl, rfl, tiles, within, by omega, le_rfl⟩
  · -- the new segment begins where the mapped prefix ends
    rename_i hmore
    refine ⟨_, rfl, rfl, rfl, rfl, ?_, fits, hle, (not_le.mp hmore).le⟩
    have htile := Tiles.cons (alignUp size a.granularity - a.mappedSize) tiles
    rwa [Nat.add_sub_cancel' (by omega)] at htile

namespace ActivationMemoryPool

/-! ### Chunks -/

/-- The size that the pool maps covers what is required and stays within the pool. -/
theorem le_chunked {required chunk poolSize : ℕ} (hchunk : 0 < chunk)
    (hfits : required ≤ poolSize) :
    required ≤ min ((required + chunk - 1) / chunk * chunk) poolSize := by
  have hdiv := Nat.div_add_mod (required + chunk - 1) chunk
  have hmod := Nat.mod_lt (required + chunk - 1) hchunk
  rw [mul_comm] at hdiv
  omega

/-! ### The invariant -/

/-- The pool works on the allocator, and what it counts as mapped is mapped. -/
structure OnVmm (pool : ActivationMemoryPool) (a : VMMAllocator) : Prop where
  initialized : pool.initialized = true
  useVmm : pool.useVmm = true
  allocator : pool.vmmAllocator = some a
  chunk_pos : 0 < pool.vmmChunkSize
  reserved : a.initialized = true
  granularity_pos : 0 < a.granularity
  exact : pool.poolSize + a.granularity - 1 < 2 ^ 64
  reservedSize : a.reservedSize = alignUp pool.poolSize a.granularity
  tiles : Tiles a.segments a.mappedSize
  current_le : pool.currentMappedSize ≤ a.mappedSize
  mapped_le : a.mappedSize ≤ a.reservedSize

variable {pool : ActivationMemoryPool} {a : VMMAllocator}

/-- An initialised pool has reserved its addresses and mapped none of them. -/
theorem onVmm_of_allocateBuffer {device : DeviceMemory} {granularity : ℕ}
    {sized : ActivationMemoryPool} (hzero : device.grant 0 = false) (hpos : 0 < granularity)
    (hchunk : 0 < sized.vmmChunkSize) (hvmm : sized.useVmm = true)
    (h : sized.allocateBuffer device granularity = .ok pool) :
    ∃ a, OnVmm { pool with initialized := true } a := by
  simp only [allocateBuffer, allocateVmmPool, hvmm, Bool.not_true, Bool.false_eq_true, if_true,
    if_false] at h
  split at h
  · cases h
  · rename_i hsize
    split at h
    · cases h
    · rename_i allocator hreserve
      cases h
      obtain ⟨hgrant, rfl⟩ := VMMAllocator.reserve_eq_ok hreserve
      have hreserved : 0 < alignUp sized.poolSize granularity := by
        rcases Nat.eq_zero_or_pos (alignUp sized.poolSize granularity) with hnone | hsome
        · rw [hnone, hzero] at hgrant
          cases hgrant
        · exact hsome
      exact ⟨_, rfl, rfl, rfl, hchunk, rfl, hpos,
        lt_of_alignUp_pos (not_le.mp hsize) hreserved, rfl, .nil, le_rfl, Nat.zero_le _⟩

theorem onVmm_of_initializePool {device : DeviceMemory} {granularity chunk : ℕ}
    {sizes : PoolSizes} (hzero : device.grant 0 = false) (hpos : 0 < granularity)
    (hchunk : 0 < chunk)
    (h : (ActivationMemoryPool.new true chunk).initializePool device granularity sizes =
      .ok pool) : ∃ a, OnVmm pool a := by
  simp only [initializePool, new, Bool.false_eq_true, if_false] at h
  split at h
  · cases h
  · -- either the first size was granted or the reduced one
    rename_i allocated hallocated
    cases h
    split at hallocated
    · rename_i hbuffer
      cases hallocated
      exact onVmm_of_allocateBuffer hzero hpos hchunk rfl hbuffer
    · cases hallocated
    · split at hallocated
      · cases hallocated
      · exact onVmm_of_allocateBuffer hzero hpos hchunk rfl hallocated

/-! ### Calls -/

/-- A call within the pool succeeds, keeps the invariant, and what it hands out is mapped. -/
theorem OnVmm.allocate (h : OnVmm pool a) {required : ℕ} (fits : required ≤ pool.poolSize) :
    ∃ pool' a', pool.allocateForTokensWithSize succeeds required = .ok (pool', required) ∧
      OnVmm pool' a' ∧ pool'.poolSize = pool.poolSize ∧ required ≤ pool'.currentMappedSize ∧
      a.mappedSize ≤ a'.mappedSize := by
  have hcovers := le_chunked h.chunk_pos fits
  simp only [allocateForTokensWithSize, ensureMapped, h.initialized, h.useVmm, h.allocator,
    not_lt.mpr fits, h.chunk_pos.ne', Bool.not_true, Bool.false_eq_true, if_false, if_true]
  by_cases hmapped : required ≤ pool.currentMappedSize
  · exact ⟨pool, a, by simp [hmapped, min_eq_left fits], h, rfl, hmapped, le_rfl⟩
  · have hmore : ¬ min ((required + pool.vmmChunkSize - 1) / pool.vmmChunkSize *
        pool.vmmChunkSize) pool.poolSize ≤ pool.currentMappedSize := by
      omega
    simp only [hmapped, hmore, if_false]
    generalize hnew : min ((required + pool.vmmChunkSize - 1) / pool.vmmChunkSize *
      pool.vmmChunkSize) pool.poolSize = newMappedSize at *
    have hpool : newMappedSize ≤ pool.poolSize := hnew ▸ min_le_right _ _
    have hexact : newMappedSize + a.granularity - 1 < 2 ^ 64 := by
      have := h.exact
      omega
    have hreserved : alignUp newMappedSize a.granularity ≤ a.reservedSize := by
      rw [h.reservedSize]
      exact alignUp_mono hpool h.exact
    obtain ⟨a', hok, hinit, hgran, hsize, htiles, hle, hcover, hmono⟩ :=
      VMMAllocator.mapPhysical_prefix h.reserved h.tiles h.mapped_le h.granularity_pos hexact
        hreserved
    rw [hok]
    refine ⟨{ pool with vmmAllocator := some a', currentMappedSize := newMappedSize }, a',
      by simp [min_eq_left fits, h.initialized, h.useVmm], ?_, rfl, hcovers, hmono⟩
    exact ⟨h.initialized, h.useVmm, rfl, h.chunk_pos, hinit, hgran ▸ h.granularity_pos,
      hgran ▸ h.exact, by rw [hsize, hgran]; exact h.reservedSize, htiles, hcover, hle⟩

/-- The pool after one call after the other. A call that raises changes nothing. -/
def afterCalls (pool : ActivationMemoryPool) : List ℕ → ActivationMemoryPool
  | [] => pool
  | required :: calls =>
    match pool.allocateForTokensWithSize succeeds required with
    | .error _ => pool.afterCalls calls
    | .ok (pool, _) => pool.afterCalls calls

theorem OnVmm.afterCalls (h : OnVmm pool a) (calls : List ℕ) :
    ∃ a', OnVmm (pool.afterCalls calls) a' ∧
      (pool.afterCalls calls).poolSize = pool.poolSize := by
  induction calls generalizing pool a with
  | nil => exact ⟨a, h, rfl⟩
  | cons required calls ih =>
    unfold ActivationMemoryPool.afterCalls
    by_cases fits : required ≤ pool.poolSize
    · obtain ⟨_, a', hok, h', hsize, -, -⟩ := h.allocate fits
      rw [hok, ← hsize]
      exact ih h'
    · have hraise : pool.allocateForTokensWithSize succeeds required =
          .error (.exceedsPool required pool.poolSize) := by
        simp [allocateForTokensWithSize, h.initialized, not_le.mp fits]
      rw [hraise]
      exact ih h

/-- In every state that calls lead to, the mapped segments are disjoint and tile a prefix of the
reserved addresses, the pool counts no more than is mapped, and every further call within the
pool succeeds, hands out mapped bytes only, and takes no mapping back. -/
theorem vmm_pool_backed {device : DeviceMemory} {granularity chunk : ℕ} {sizes : PoolSizes}
    {pool : ActivationMemoryPool} (hzero : device.grant 0 = false) (hpos : 1 ≤ granularity)
    (hchunk : 1 ≤ chunk)
    (init : (ActivationMemoryPool.new true chunk).initializePool device granularity sizes =
      .ok pool) (calls : List ℕ) :
    ∃ a, (pool.afterCalls calls).vmmAllocator = some a ∧
      a.segments.Pairwise Segment.Disjoint ∧
      (∀ b, Backed a.segments b ↔ b < a.mappedSize) ∧
      (pool.afterCalls calls).currentMappedSize ≤ a.mappedSize ∧
      a.mappedSize ≤ a.reservedSize ∧
      ∀ required ≤ pool.poolSize, ∃ pool' a',
        (pool.afterCalls calls).allocateForTokensWithSize succeeds required =
          .ok (pool', required) ∧
        pool'.vmmAllocator = some a' ∧ (∀ b < required, Backed a'.segments b) ∧
        a.mappedSize ≤ a'.mappedSize := by
  obtain ⟨_, h₀⟩ := onVmm_of_initializePool hzero hpos hchunk init
  obtain ⟨a, h, hsize⟩ := h₀.afterCalls calls
  refine ⟨a, h.allocator, h.tiles.pairwise_disjoint, h.tiles.backed_iff, h.current_le,
    h.mapped_le, ?_⟩
  intro required fits
  obtain ⟨pool', a', hok, h', -, hcurrent, hmono⟩ := h.allocate (hsize ▸ fits)
  refine ⟨pool', a', hok, h'.allocator, ?_, hmono⟩
  intro b hb
  have := h'.current_le
  exact (h'.tiles.backed_iff b).mpr (by omega)

/-- A pool of ten bytes in chunks of four, on pages of three, after calls that grow and shrink
and one that is too large. -/
theorem vmm_pool_backed_ten_bytes :
    ∃ pool, (ActivationMemoryPool.new true 4).initializePool ⟨(0 < ·), fun _ => true⟩ 3
        ⟨some 10, 0, 0⟩ = .ok pool ∧
      ∃ a, (pool.afterCalls [5, 2, 11]).vmmAllocator = some a ∧ a.mappedSize = 9 ∧
        ∀ b, Backed a.segments b ↔ b < a.mappedSize := by
  refine ⟨_, rfl, _, rfl, rfl, ?_⟩
  have init : (ActivationMemoryPool.new true 4).initializePool ⟨(0 < ·), fun _ => true⟩ 3
      ⟨some 10, 0, 0⟩ = .ok _ := rfl
  obtain ⟨a, ha, -, htile, -⟩ := vmm_pool_backed rfl (by decide) (by decide) init [5, 2, 11]
  cases ha
  exact htile

end ActivationMemoryPool

end Pool
