import Mosaic.Graph.MemoryAnalyzer
import Mosaic.Pool.VmmAllocator

/-!
# The activation memory pool

The pool is one buffer of bytes. A forward pass takes a prefix of it and interprets ranges of
the prefix as tensors.

A range of bytes can be seen as a tensor only if it lies inside the prefix and if its first
byte is a multiple of the size of an element.
-/

namespace Pool

open Graph

/-- The exceptions of the pool. -/
inductive PoolError where
  | notInitialized
  | exceedsPool (requiredMemory poolSize : ℕ)
  | zeroChunkSize
  | vmmDisabled
  | notSizeT (size : ℕ)
  | outOfMemory
  | vmm (error : VMMError)
  | outOfRange
  | misaligned (offset elementSize : ℕ)
  deriving DecidableEq, Repr

/-- The text of the exception, given how byte counts are shown in megabytes. Two of them come from
the tensor library, when a buffer cannot be allocated and when a view changes the size of the
elements, and one from the binding of the allocator. -/
def PoolError.message (mb : ℕ → String) : PoolError → String
  | .notInitialized => "ActivationPool未初始化"
  | .exceedsPool requiredMemory poolSize =>
    "请求的显存(" ++ mb requiredMemory ++ "MB) 超过池大小(" ++ mb poolSize ++ "MB)"
  | .zeroChunkSize => "integer division or modulo by zero"
  | .vmmDisabled => "VMM mode not enabled or vmm_allocator not available"
  | .notSizeT size => s!"reserve(): incompatible function arguments: {size}"
  | .outOfMemory => "CUDA out of memory"
  | .vmm error => error.message
  | .outOfRange => "Tensor视图超出分配的显存范围"
  | .misaligned offset elementSize =>
    s!"self.storage_offset() must be divisible by {elementSize}, but got {offset}"

/-- The pool. With virtual memory the buffer is only reserved, and its first `currentMappedSize`
bytes have been mapped. -/
structure ActivationMemoryPool where
  initialized : Bool
  poolSize : ℕ
  useVmm : Bool
  vmmAllocator : Option VMMAllocator
  vmmChunkSize : ℕ
  currentMappedSize : ℕ
  deriving DecidableEq, Repr

/-- What the device can do: reserve a range of addresses, and allocate a buffer at once. -/
structure DeviceMemory where
  grant : ℕ → Bool
  empty : ℕ → Bool

/-- The sizes a pool can get: the one it is given, the share of the free memory it takes
otherwise, and the smaller share it takes when that one is refused. -/
structure PoolSizes where
  totalBytes : Option ℕ
  detected : ℕ
  reduced : ℕ

namespace ActivationMemoryPool

/-- A pool as its constructor leaves it. -/
def new (useVmm : Bool) (vmmChunkSize : ℕ) : ActivationMemoryPool where
  initialized := false
  poolSize := 0
  useVmm := useVmm
  vmmAllocator := none
  vmmChunkSize := vmmChunkSize
  currentMappedSize := 0

/-- Reserve the addresses of the pool. Nothing is mapped at first. -/
def allocateVmmPool (device : DeviceMemory) (granularity : ℕ) (pool : ActivationMemoryPool) :
    Except PoolError ActivationMemoryPool :=
  if !pool.useVmm then .error .vmmDisabled
  -- the binding takes the size as a `size_t`
  else if 2 ^ 64 ≤ pool.poolSize then .error (.notSizeT pool.poolSize)
  else
    match (VMMAllocator.new granularity).reserve device.grant pool.poolSize with
    | .error error => .error (.vmm error)
    | .ok allocator => .ok { pool with vmmAllocator := some allocator, currentMappedSize := 0 }

/-- The buffer of the pool, in either mode. -/
def allocateBuffer (device : DeviceMemory) (granularity : ℕ) (pool : ActivationMemoryPool) :
    Except PoolError ActivationMemoryPool :=
  if pool.useVmm then pool.allocateVmmPool device granularity
  else if device.empty pool.poolSize then .ok pool
  else .error .outOfMemory

/-- Initialise the pool, once. A size that was found in the free memory is reduced when the
allocation fails; a wrong type of argument is not caught. -/
def initializePool (device : DeviceMemory) (granularity : ℕ) (pool : ActivationMemoryPool)
    (sizes : PoolSizes) : Except PoolError ActivationMemoryPool :=
  if pool.initialized then .ok pool
  else
    let sized := { pool with poolSize := sizes.totalBytes.getD sizes.detected }
    let allocated : Except PoolError ActivationMemoryPool :=
      match sized.allocateBuffer device granularity with
      | .ok pool => .ok pool
      | .error (.notSizeT size) => .error (.notSizeT size)
      | .error error =>
        match sizes.totalBytes with
        | some _ => .error error
        | none => { pool with poolSize := sizes.reduced }.allocateBuffer device granularity
    match allocated with
    | .error error => .error error
    | .ok pool => .ok { pool with initialized := true }

/-- Map at least the first `requiredBytes` bytes, in whole chunks as far as the pool reaches. -/
def ensureMapped (driver : ℕ → ℕ → Bool) (pool : ActivationMemoryPool) (requiredBytes : ℕ) :
    Except PoolError ActivationMemoryPool :=
  match pool.useVmm, pool.vmmAllocator with
  | true, some allocator =>
    if requiredBytes ≤ pool.currentMappedSize then .ok pool
    else if pool.vmmChunkSize = 0 then .error .zeroChunkSize
    else
      let chunks := (requiredBytes + pool.vmmChunkSize - 1) / pool.vmmChunkSize
      -- the last chunk may reach beyond the pool
      let newMappedSize := min (chunks * pool.vmmChunkSize) pool.poolSize
      if newMappedSize ≤ pool.currentMappedSize then .ok pool
      else
        -- the allocator keeps a counter of its own and maps only what it has not mapped yet
        match allocator.mapPhysical driver 0 newMappedSize with
        | .error error => .error (.vmm error)
        | .ok allocator =>
          .ok { pool with vmmAllocator := some allocator, currentMappedSize := newMappedSize }
  | _, _ => .ok pool

/-- Take the first `requiredMemory` bytes of the pool. The result is the pool and the length of
the buffer, which starts where the pool starts. -/
def allocateForTokensWithSize (driver : ℕ → ℕ → Bool) (pool : ActivationMemoryPool)
    (requiredMemory : ℕ) : Except PoolError (ActivationMemoryPool × ℕ) :=
  if !pool.initialized then .error .notInitialized
  else if requiredMemory > pool.poolSize then .error (.exceedsPool requiredMemory pool.poolSize)
  else
    let mapped := if pool.useVmm then pool.ensureMapped driver requiredMemory else .ok pool
    match mapped with
    | .error error => .error error
    | .ok pool => .ok (pool, min requiredMemory pool.poolSize)

theorem ensureMapped_poolSize {driver : ℕ → ℕ → Bool} {pool pool' : ActivationMemoryPool}
    {requiredBytes : ℕ} (h : pool.ensureMapped driver requiredBytes = .ok pool') :
    pool'.poolSize = pool.poolSize := by
  unfold ensureMapped at h
  split at h
  · split at h
    · cases h
      rfl
    · split at h
      · cases h
      · dsimp only at h
        split at h
        · cases h
          rfl
        · split at h
          · cases h
          · cases h
            rfl
  · cases h
    rfl

/-- A buffer that the pool hands out has the required length and lies in the pool. -/
theorem allocateForTokensWithSize_eq_ok {driver : ℕ → ℕ → Bool}
    {pool pool' : ActivationMemoryPool} {requiredMemory buffer : ℕ}
    (h : pool.allocateForTokensWithSize driver requiredMemory = .ok (pool', buffer)) :
    buffer = requiredMemory ∧ requiredMemory ≤ pool.poolSize ∧ pool'.poolSize = pool.poolSize := by
  unfold allocateForTokensWithSize at h
  split at h
  · cases h
  · split at h
    · cases h
    · rename_i hfits
      have hle : requiredMemory ≤ pool.poolSize := by omega
      dsimp only at h
      split at h
      · cases h
      · rename_i mapped hmapped
        cases h
        have hsize : pool'.poolSize = pool.poolSize := by
          split at hmapped
          · exact ensureMapped_poolSize hmapped
          · cases hmapped
            rfl
        exact ⟨by rw [hsize]; exact min_eq_left hle, hle, hsize⟩

/-- Without virtual memory every request that fits succeeds and changes nothing. -/
theorem exists_allocateForTokensWithSize (driver : ℕ → ℕ → Bool) {pool : ActivationMemoryPool}
    {requiredMemory : ℕ} (ready : pool.initialized = true) (plain : pool.useVmm = false)
    (fits : requiredMemory ≤ pool.poolSize) :
    pool.allocateForTokensWithSize driver requiredMemory = .ok (pool, requiredMemory) := by
  have hfits : ¬ requiredMemory > pool.poolSize := by omega
  simp [allocateForTokensWithSize, ready, plain, hfits, min_eq_left fits]

end ActivationMemoryPool

/-! ### Tensor views -/

/-- A range of the pool seen as a tensor. -/
structure TensorView where
  start : ℕ
  bytes : ℕ
  shape : List ℕ
  dtype : Dtype
  deriving DecidableEq, Repr

/-- See the bytes of a buffer from `offsetBytes` on as a tensor. The buffer starts where the pool
starts, so the offset decides about the alignment. -/
def getTensorView (buffer : ℕ) (shape : List ℕ) (dtype : Dtype) (offsetBytes : ℕ) :
    Except PoolError TensorView :=
  let elementSize := dtype.bytesPerElement
  let requiredBytes := shape.prod * elementSize
  if offsetBytes + requiredBytes > buffer then .error .outOfRange
  else if offsetBytes % elementSize ≠ 0 then .error (.misaligned offsetBytes elementSize)
  else .ok ⟨offsetBytes, requiredBytes, shape, dtype⟩

/-- The views of all entries of a plan, in the order of the plan. -/
def tensorViews {ν : Type} (buffer : ℕ) (plan : ReusePlan ν) :
    Except PoolError (List (ν × TensorView)) :=
  plan.entries.mapM fun entry => do
    let view ← getTensorView buffer entry.2.shape entry.2.dtype entry.2.offset
    return (entry.1, view)

/-- The view of an entry. -/
def entryView (entry : PlanEntry) : TensorView :=
  ⟨entry.offset, entry.shape.prod * entry.dtype.bytesPerElement, entry.shape, entry.dtype⟩

theorem getTensorView_entry {buffer : ℕ} {entry : PlanEntry}
    (inside : entry.offset + entry.shape.prod * entry.dtype.bytesPerElement ≤ buffer)
    (aligned : entry.dtype.bytesPerElement ∣ entry.offset) :
    getTensorView buffer entry.shape entry.dtype entry.offset = .ok (entryView entry) := by
  have haligned := Nat.mod_eq_zero_of_dvd aligned
  simp [getTensorView, entryView, haligned, not_lt.mpr inside]

/-- When every entry of a plan fits into the buffer and is aligned, all its views exist. -/
theorem tensorViews_eq_ok {ν : Type} {buffer : ℕ} {plan : ReusePlan ν}
    (inside : ∀ entry ∈ plan.entries,
      entry.2.offset + entry.2.shape.prod * entry.2.dtype.bytesPerElement ≤ buffer)
    (aligned : ∀ entry ∈ plan.entries, entry.2.dtype.bytesPerElement ∣ entry.2.offset) :
    tensorViews buffer plan = .ok (plan.entries.map fun entry => (entry.1, entryView entry.2)) := by
  apply Fallible.mapM_eq_ok
  intro entry hentry
  rw [getTensorView_entry (inside entry hentry) (aligned entry hentry)]
  rfl

end Pool
