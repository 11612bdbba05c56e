import Mathlib.Data.List.Pairwise
import Mathlib.Order.Lattice
import Mathlib.Tactic.NormNum

/-!
# The virtual memory allocator

The allocator reserves a range of virtual addresses and maps physical memory into it on demand.
Sizes are rounded up to the granularity of the driver. All mapped memory is one prefix of the
reserved range, which grows segment by segment.

Whether the driver can create and map a segment depends on the physical memory of the device,
so its answers are a parameter.
-/

namespace Pool

/-- The exceptions of the allocator. -/
inductive VMMError where
  | alreadyInitialized
  | notInitialized
  | exceedsReserved
  | driver (offset size : ℕ)
  deriving DecidableEq, Repr

/-- The text of the exception. What the driver reports is not part of the model. -/
def VMMError.message : VMMError → String
  | .alreadyInitialized => "VMMAllocator already initialized"
  | .notInitialized => "VMMAllocator not initialized"
  | .exceedsReserved => "Map size exceeds reserved size"
  | .driver _ _ => "CUDA Driver API error"

/-- A mapped range of the reserved addresses. -/
structure Segment where
  offset : ℕ
  size : ℕ
  deriving DecidableEq, Repr

/-- The allocator. The segments are those of the driver, latest first. -/
structure VMMAllocator where
  initialized : Bool
  granularity : ℕ
  reservedSize : ℕ
  mappedSize : ℕ
  segments : List Segment
  deriving DecidableEq, Repr

/-- Round up to a multiple of the granularity, in the arithmetic of `size_t`. -/
def alignUp (size granularity : ℕ) : ℕ :=
  (size + granularity - 1) % 2 ^ 64 / granularity * granularity

/-- A new allocator, for a device with the given granularity. -/
def VMMAllocator.new (granularity : ℕ) : VMMAllocator :=
  ⟨false, granularity, 0, 0, []⟩

/-- Reserve a range of virtual addresses. No physical memory is behind it yet. -/
def VMMAllocator.reserve (grant : ℕ → Bool) (a : VMMAllocator) (reserveSize : ℕ) :
    Except VMMError VMMAllocator :=
  if a.initialized then .error .alreadyInitialized
  else
    let reservedSize := alignUp reserveSize a.granularity
    if grant reservedSize then
      .ok { a with reservedSize, initialized := true, mappedSize := 0, segments := [] }
    else .error (.driver 0 reservedSize)

/-- Map everything below `offset + size` that is not mapped yet. -/
def VMMAllocator.mapPhysical (driver : ℕ → ℕ → Bool) (a : VMMAllocator) (offset size : ℕ) :
    Except VMMError VMMAllocator :=
  if !a.initialized then .error .notInitialized
  else
    -- where the mapping has to reach; the offset is rounded up as well
    let stop := (alignUp offset a.granularity + alignUp size a.granularity) % 2 ^ 64
    if stop > a.reservedSize then .error .exceedsReserved
    else if stop ≤ a.mappedSize then .ok a
    else
      let newSize := stop - a.mappedSize
      if driver a.mappedSize newSize then
        .ok { a with
          mappedSize := stop
          segments := ⟨a.mappedSize, newSize⟩ :: a.segments }
      else .error (.driver a.mappedSize newSize)

/-! ### Rounding -/

theorem alignUp_eq_zero_of_wrap {size granularity : ℕ} (hsize : size < 2 ^ 64)
    (wrap : 2 ^ 64 ≤ size + granularity - 1) : alignUp size granularity = 0 := by
  have hlt : (size + granularity - 1) % 2 ^ 64 < granularity := by
    rcases lt_or_ge (2 ^ 64) granularity with hlarge | hsmall
    · exact (Nat.mod_lt _ (by norm_num)).trans hlarge
    · rw [Nat.mod_eq_sub_mod wrap, Nat.mod_eq_of_lt (by omega)]
      omega
  rw [alignUp, Nat.div_eq_of_lt hlt, zero_mul]

/-- Rounding wraps around only to zero. -/
theorem lt_of_alignUp_pos {size granularity : ℕ} (hsize : size < 2 ^ 64)
    (hpos : 0 < alignUp size granularity) : size + granularity - 1 < 2 ^ 64 := by
  by_contra hwrap
  have := alignUp_eq_zero_of_wrap hsize (not_lt.mp hwrap)
  omega

section Exact

variable {size granularity : ℕ}

theorem alignUp_eq (exact : size + granularity - 1 < 2 ^ 64) :
    alignUp size granularity = (size + granularity - 1) / granularity * granularity := by
  rw [alignUp, Nat.mod_eq_of_lt exact]

theorem le_alignUp (hpos : 0 < granularity) (exact : size + granularity - 1 < 2 ^ 64) :
    size ≤ alignUp size granularity := by
  have hdiv := Nat.div_add_mod (size + granularity - 1) granularity
  have hmod := Nat.mod_lt (size + granularity - 1) hpos
  rw [alignUp_eq exact, mul_comm]
  omega

theorem alignUp_lt (exact : size + granularity - 1 < 2 ^ 64) :
    alignUp size granularity < 2 ^ 64 := by
  rw [alignUp_eq exact]
  exact (Nat.div_mul_le_self _ _).trans_lt exact

/-- Rounding keeps the order, below a size that does not wrap around. -/
theorem alignUp_mono {size' : ℕ} (hle : size ≤ size')
    (exact : size' + granularity - 1 < 2 ^ 64) :
    alignUp size granularity ≤ alignUp size' granularity := by
  rw [alignUp_eq exact, alignUp_eq (by omega)]
  exact Nat.mul_le_mul_right _ (Nat.div_le_div_right (by omega))

end Exact

/-! ### Segments -/

/-- The byte lies in the segment. -/
def Segment.Has (s : Segment) (b : ℕ) : Prop :=
  s.offset ≤ b ∧ b < s.offset + s.size

/-- No byte lies in both segments. -/
def Segment.Disjoint (s t : Segment) : Prop :=
  ∀ b, s.Has b → ¬ t.Has b

/-- Some segment backs the byte. -/
def Backed (segments : List Segment) (b : ℕ) : Prop :=
  ∃ s ∈ segments, s.Has b

/-- The segments lie end to end, from the first address up to `stop`, latest first. -/
inductive Tiles : List Segment → ℕ → Prop where
  | nil : Tiles [] 0
  | cons {segments : List Segment} {stop : ℕ} (size : ℕ) (h : Tiles segments stop) :
    Tiles (⟨stop, size⟩ :: segments) (stop + size)

namespace Tiles

variable {segments : List Segment} {stop : ℕ}

theorem backed_iff (h : Tiles segments stop) (b : ℕ) : Backed segments b ↔ b < stop := by
  induction h with
  | nil => simp [Backed]
  | cons size _ ih =>
    rename_i segments stop _
    have hcons : Backed (⟨stop, size⟩ :: segments) b ↔
        (stop ≤ b ∧ b < stop + size) ∨ Backed segments b := by
      simp [Backed, Segment.Has]
    rw [hcons, ih]
    omega

theorem pairwise_disjoint (h : Tiles segments stop) : segments.Pairwise Segment.Disjoint := by
  induction h with
  | nil => exact .nil
  | cons size tiles ih =>
    refine .cons ?_ ih
    intro s hs b hlatest hearlier
    have := (tiles.backed_iff b).mp ⟨s, hs, hearlier⟩
    exact absurd hlatest.1 (by simpa using this)

end Tiles

end Pool
