import Mosaic.Pool.VmmPool

/-!
# The virtual memory allocator under failures

Mapping takes three calls of the driver, and each of them may fail. The allocator has one counter
for what is mapped, and no list of segments; it stores no handles either. Here every call keeps
the state it leaves behind, also when it throws, and the segments are those the driver has mapped
in the reserved range.

The driver maps a range only if nothing of it is mapped, and unmaps a range only if it consists
of whole segments without a gap.
-/

namespace Pool

/-! ### The driver -/

/-- What the driver answers to the three calls that map memory. -/
structure DriverAnswers where
  create : Bool
  map : Bool
  setAccess : Bool
  deriving DecidableEq, Repr

/-- Some segment meets the range. -/
def overlaps (segments : List Segment) (offset size : ℕ) : Bool :=
  segments.any fun s => decide (s.offset < offset + size ∧ offset < s.offset + s.size)

/-- The segment lies within the range. -/
def Segment.inside (offset size : ℕ) (s : Segment) : Bool :=
  decide (offset ≤ s.offset ∧ s.offset + s.size ≤ offset + size)

/-- The range consists of whole segments and has no gap. -/
def wholeSegments (segments : List Segment) (offset size : ℕ) : Bool :=
  decide (0 < size) &&
    (segments.all fun s => s.inside offset size || !overlaps [s] offset size) &&
    decide (((segments.filter (Segment.inside offset size)).map Segment.size).sum = size)

/-- Unmap a range, if it consists of whole segments. -/
def unmap (segments : List Segment) (offset size : ℕ) : Except VMMError (List Segment) :=
  if wholeSegments segments offset size then
    .ok (segments.filter fun s => !s.inside offset size)
  else .error (.driver offset size)

/-! ### Calls -/

namespace VMMAllocator

/-- Reserve a range of addresses. The size is stored before the driver is asked. -/
def reserveWith (granted : Bool) (a : VMMAllocator) (reserveSize : ℕ) :
    Except VMMError Unit × VMMAllocator :=
  if a.initialized then (.error .alreadyInitialized, a)
  else
    let a := { a with reservedSize := alignUp reserveSize a.granularity }
    if granted && decide (a.reservedSize ≠ 0) then
      (.ok (), { a with initialized := true, mappedSize := 0, segments := [] })
    else (.error (.driver 0 a.reservedSize), a)

/-- Map everything below `offset + size` that the allocator does not count as mapped. -/
def mapPhysicalWith (answers : DriverAnswers) (a : VMMAllocator) (offset size : ℕ) :
    Except VMMError Unit × VMMAllocator :=
  if !a.initialized then (.error .notInitialized, a)
  else
    let stop := (alignUp offset a.granularity + alignUp size a.granularity) % 2 ^ 64
    if stop > a.reservedSize then (.error .exceedsReserved, a)
    else if stop ≤ a.mappedSize then (.ok (), a)
    else
      let newSize := stop - a.mappedSize
      if !answers.create then (.error (.driver a.mappedSize newSize), a)
      else if !answers.map || overlaps a.segments a.mappedSize newSize then
        (.error (.driver a.mappedSize newSize), a)
      else
        -- the range is mapped from here on, also when the access cannot be set
        let mapped := { a with segments := ⟨a.mappedSize, newSize⟩ :: a.segments }
        if !answers.setAccess then (.error (.driver a.mappedSize newSize), mapped)
        else (.ok (), { mapped with mappedSize := stop })

/-- Unmap a range. The counter of the allocator stays as it is. -/
def unmapPhysical (a : VMMAllocator) (offset size : ℕ) : Except VMMError Unit × VMMAllocator :=
  if !a.initialized then (.error .notInitialized, a)
  else
    let alignedOffset := alignUp offset a.granularity
    let alignedSize := alignUp size a.granularity
    if (alignedOffset + alignedSize) % 2 ^ 64 > a.mappedSize then (.ok (), a)
    else
      match unmap a.segments alignedOffset alignedSize with
      | .error error => (.error error, a)
      | .ok segments => (.ok (), { a with segments })

/-- Unmap everything and give the addresses back. Errors of the driver are only printed. -/
def free (a : VMMAllocator) : Except VMMError Unit × VMMAllocator :=
  if !a.initialized then (.ok (), a)
  else
    let segments :=
      if a.mappedSize > 0 then
        match unmap a.segments 0 a.mappedSize with
        | .error _ => a.segments
        | .ok segments => segments
      else a.segments
    (.ok (), { a with reservedSize := 0, mappedSize := 0, initialized := false, segments })

end VMMAllocator

/-- A call of the allocator, with what the driver answers. -/
inductive VMMCall where
  | reserve (size : ℕ) (granted : Bool)
  | mapPhysical (offset size : ℕ) (answers : DriverAnswers)
  | unmapPhysical (offset size : ℕ)
  | free
  deriving DecidableEq, Repr

namespace VMMAllocator

def call (a : VMMAllocator) : VMMCall → Except VMMError Unit × VMMAllocator
  | .reserve size granted => a.reserveWith granted size
  | .mapPhysical offset size answers => a.mapPhysicalWith answers offset size
  | .unmapPhysical offset size => a.unmapPhysical offset size
  | .free => a.free

/-- The allocator after one call after the other. -/
def after (a : VMMAllocator) (calls : List VMMCall) : VMMAllocator :=
  calls.foldl (fun a c => (a.call c).2) a

/-! ### Promises -/

/-- What the allocator counts as mapped is exactly what is mapped. -/
def Recorded (a : VMMAllocator) : Prop :=
  ∀ b, Backed a.segments b ↔ b < a.mappedSize

/-- A call that throws changes nothing, and a mapping that returns has mapped its bytes. -/
structure Transactional (a : VMMAllocator) (c : VMMCall) : Prop where
  unchanged : ∀ error, (a.call c).1 = .error error → (a.call c).2 = a
  mapped : ∀ offset size answers, c = .mapPhysical offset size answers →
    (a.call c).1 = .ok () → ∀ b, offset ≤ b → b < offset + size → Backed (a.call c).2.segments b

/-- The rounded end of the range does not wrap around. -/
def NoWrap (a : VMMAllocator) (offset size : ℕ) : Prop :=
  offset + a.granularity - 1 < 2 ^ 64 ∧ size + a.granularity - 1 < 2 ^ 64 ∧
    alignUp offset a.granularity + alignUp size a.granularity < 2 ^ 64

/-- A mapping up to the rounded end asks the driver. -/
def AsksDriver (a : VMMAllocator) (offset size : ℕ) : Prop :=
  a.mappedSize < alignUp offset a.granularity + alignUp size a.granularity ∧
    alignUp offset a.granularity + alignUp size a.granularity ≤ a.reservedSize

/-- The calls that do not reach a defect: a reservation is granted, what was mapped can be
accessed, sizes do not wrap around, and nothing that is mapped is unmapped on its own. Before a
reservation there is nothing to map and nothing to unmap. -/
def Safe (a : VMMAllocator) : VMMCall → Prop
  | .reserve _ granted => a.initialized = true ∨ granted = true
  | .mapPhysical offset size answers => a.initialized = true → a.NoWrap offset size ∧
    (a.AsksDriver offset size → answers.create → answers.map → answers.setAccess)
  | .unmapPhysical offset size => a.initialized = true →
    wholeSegments a.segments (alignUp offset a.granularity) (alignUp size a.granularity) = false
  | .free => True

/-- Every call is safe in the state it is made in. -/
def SafeRun (a : VMMAllocator) : List VMMCall → Prop
  | [] => True
  | c :: calls => a.Safe c ∧ SafeRun (a.call c).2 calls

/-! ### Tiled mappings -/

end VMMAllocator

namespace Tiles

variable {segments : List Segment} {stop : ℕ}

section

variable (h : Tiles segments stop)
include h

theorem stop_le : ∀ s ∈ segments, s.offset + s.size ≤ stop := by
  induction h with
  | nil => simp
  | cons size _ ih =>
    intro s hs
    rcases List.mem_cons.mp hs with rfl | hs
    · exact le_rfl
    · have := ih s hs
      omega

theorem sum_size : (segments.map Segment.size).sum = stop := by
  induction h with
  | nil => rfl
  | cons size _ ih =>
    rw [List.map_cons, List.sum_cons, ih, add_comm]

/-- Nothing is mapped behind the tiling. -/
theorem overlaps_eq_false (size : ℕ) : overlaps segments stop size = false := by
  simp only [overlaps, List.any_eq_false, decide_eq_true_eq]
  intro s hs
  have := h.stop_le s hs
  omega

theorem inside : ∀ s ∈ segments, s.inside 0 stop = true := by
  intro s hs
  have := h.stop_le s hs
  simp only [Segment.inside, decide_eq_true_eq]
  omega

/-- The driver unmaps the whole tiling at once. -/
theorem unmap_all (hpos : 0 < stop) : unmap segments 0 stop = .ok [] := by
  have hwhole : wholeSegments segments 0 stop = true := by
    have hfilter : segments.filter (Segment.inside 0 stop) = segments :=
      List.filter_eq_self.mpr h.inside
    simp only [wholeSegments, hfilter, h.sum_size, hpos, Bool.and_eq_true, List.all_eq_true,
      Bool.or_eq_true, decide_true, and_true, true_and]
    exact fun s hs => .inl (h.inside s hs)
  have hrest : segments.filter (fun s => !s.inside 0 stop) = [] := by
    simpa [List.filter_eq_nil_iff] using h.inside
  rw [unmap, if_pos hwhole, hrest]

end

end Tiles

/-! ### Safe calls -/

namespace VMMAllocator

/-- The mapping is a tiling that ends at the counter, and there is none before a reservation. -/
structure Tiled (a : VMMAllocator) : Prop where
  granularity_pos : 0 < a.granularity
  tiles : Tiles a.segments a.mappedSize
  idle : a.initialized = false → a.reservedSize = 0 ∧ a.mappedSize = 0

variable {a : VMMAllocator}

theorem Tiled.recorded (h : a.Tiled) : a.Recorded := h.tiles.backed_iff

theorem tiled_new {granularity : ℕ} (hpos : 0 < granularity) : (new granularity).Tiled :=
  ⟨hpos, .nil, fun _ => ⟨rfl, rfl⟩⟩

section

variable (h : a.Tiled) {size : ℕ} {granted : Bool} (safe : a.Safe (.reserve size granted))
include h safe

/-- A reservation that is not granted because it has no bytes stores the size that was there. -/
theorem reserveWith_cases : (∃ error, a.call (.reserve size granted) = (.error error, a)) ∨
    a.call (.reserve size granted) = (.ok (), ⟨true, a.granularity,
      alignUp size a.granularity, 0, []⟩) := by
  simp only [call, reserveWith]
  split
  · exact .inl ⟨_, rfl⟩
  · rename_i hinit
    have hidle := h.idle (by simpa using hinit)
    have hgranted : granted = true := safe.resolve_left (by simpa using hinit)
    split
    · exact .inr rfl
    · rename_i hrefused
      have hzero : alignUp size a.granularity = 0 := by simpa [hgranted] using hrefused
      refine .inl ⟨_, Prod.ext rfl ?_⟩
      obtain ⟨_, granularity, _, _, _⟩ := a
      simp only [mk.injEq, true_and, and_true]
      exact hzero.trans hidle.1.symm

theorem reserveWith_safe :
    (a.call (.reserve size granted)).2.Tiled ∧ a.Transactional (.reserve size granted) := by
  rcases reserveWith_cases h safe with ⟨error, hcall⟩ | hcall
  · exact ⟨by rw [hcall]; exact h, ⟨fun _ _ => by rw [hcall], nofun⟩⟩
  · refine ⟨by rw [hcall]; exact ⟨h.granularity_pos, .nil, nofun⟩, ⟨?_, nofun⟩⟩
    intro error herror
    rw [hcall] at herror
    cases herror

end

variable {offset size : ℕ}

/-- A mapping either leaves everything as it is or extends the tiling up to the rounded end. -/
theorem mapPhysicalWith_cases (h : a.Tiled) {answers : DriverAnswers}
    (safe : a.Safe (.mapPhysical offset size answers)) :
    let stop := alignUp offset a.granularity + alignUp size a.granularity
    (∃ error, a.call (.mapPhysical offset size answers) = (.error error, a)) ∨
    (a.call (.mapPhysical offset size answers) = (.ok (), a) ∧ a.initialized = true ∧
      stop ≤ a.mappedSize) ∨
    (a.call (.mapPhysical offset size answers) = (.ok (), { a with
        mappedSize := stop
        segments := ⟨a.mappedSize, stop - a.mappedSize⟩ :: a.segments }) ∧
      a.initialized = true ∧ a.mappedSize < stop) := by
  intro stop
  by_cases hinit : a.initialized = true
  · obtain ⟨⟨-, -, hstop⟩, haccess⟩ := safe hinit
    have hmod : (alignUp offset a.granularity + alignUp size a.granularity) % 2 ^ 64 = stop :=
      Nat.mod_eq_of_lt hstop
    simp only [call, mapPhysicalWith, hmod, h.tiles.overlaps_eq_false, Bool.or_false, hinit,
      Bool.not_true, Bool.false_eq_true, if_false]
    split
    · exact .inl ⟨_, rfl⟩
    · rename_i hroom
      split
      · rename_i hle
        exact .inr (.inl ⟨rfl, trivial, hle⟩)
      · rename_i hmore
        split
        · exact .inl ⟨_, rfl⟩
        · rename_i hcreate
          split
          · exact .inl ⟨_, rfl⟩
          · rename_i hmap
            have hset := haccess ⟨not_le.mp hmore, not_lt.mp hroom⟩ (by simpa using hcreate)
              (by simpa using hmap)
            simp only [hset, Bool.not_true, Bool.false_eq_true, if_false]
            exact .inr (.inr ⟨trivial, trivial, not_le.mp hmore⟩)
  · exact .inl ⟨.notInitialized, if_pos (by simpa using hinit)⟩

theorem mapPhysicalWith_safe (h : a.Tiled) {answers : DriverAnswers}
    (safe : a.Safe (.mapPhysical offset size answers)) :
    (a.call (.mapPhysical offset size answers)).2.Tiled ∧
      a.Transactional (.mapPhysical offset size answers) := by
  have le_rounded (hinit : a.initialized = true) : offset ≤ alignUp offset a.granularity ∧
      size ≤ alignUp size a.granularity :=
    have ⟨⟨hoff, hsize, _⟩, _⟩ := safe hinit
    ⟨le_alignUp h.granularity_pos hoff, le_alignUp h.granularity_pos hsize⟩
  rcases mapPhysicalWith_cases h safe with ⟨error, hcall⟩ | ⟨hcall, hinit, hle⟩ |
    ⟨hcall, hinit, hlt⟩
  · refine ⟨by rw [hcall]; exact h, ⟨fun _ _ => by rw [hcall], ?_⟩⟩
    intro _ _ _ _ hok
    rw [hcall] at hok
    cases hok
  · obtain ⟨hstart, hlen⟩ := le_rounded hinit
    refine ⟨by rw [hcall]; exact h, ⟨fun _ _ => by rw [hcall], ?_⟩⟩
    rintro _ _ _ ⟨⟩ - b - hb
    rw [hcall]
    exact (h.tiles.backed_iff b).mpr (by omega)
  · obtain ⟨hstart, hlen⟩ := le_rounded hinit
    have htiles := Tiles.cons (alignUp offset a.granularity + alignUp size a.granularity -
      a.mappedSize) h.tiles
    rw [Nat.add_sub_cancel' hlt.le] at htiles
    refine ⟨?_, ⟨?_, ?_⟩⟩
    · rw [hcall]
      exact ⟨h.granularity_pos, htiles, fun hidle => absurd hinit (by simpa using hidle)⟩
    · intro error herror
      rw [hcall] at herror
      cases herror
    · rintro _ _ _ ⟨⟩ - b - hb
      rw [hcall]
      exact (htiles.backed_iff b).mpr (by omega)

theorem unmapPhysical_safe (h : a.Tiled) (safe : a.Safe (.unmapPhysical offset size)) :
    (a.call (.unmapPhysical offset size)).2.Tiled ∧
      a.Transactional (.unmapPhysical offset size) := by
  -- the driver refuses every such range, so the state stays as it is
  have hsame : (a.call (.unmapPhysical offset size)).2 = a := by
    by_cases hinit : a.initialized = true
    · simp only [call, unmapPhysical, unmap, safe hinit, hinit, Bool.false_eq_true, if_false]
      split
      · rfl
      · split <;> rfl
    · rw [call, unmapPhysical, if_pos (by simpa using hinit)]
  exact ⟨by rw [hsame]; exact h, ⟨fun _ _ => hsame, nofun⟩⟩

theorem free_safe (h : a.Tiled) : (a.call .free).2.Tiled ∧ a.Transactional .free := by
  have hok : (a.call .free).1 = .ok () := by
    simp only [call, free]
    split <;> rfl
  refine ⟨?_, ⟨fun error herror => ?_, nofun⟩⟩
  · simp only [call, free]
    split
    · exact h
    · refine ⟨h.granularity_pos, ?_, fun _ => ⟨rfl, rfl⟩⟩
      have htiles := h.tiles
      rcases Nat.eq_zero_or_pos a.mappedSize with hzero | hpos
      · simp only [hzero, lt_irrefl, if_false]
        exact hzero ▸ htiles
      · simp only [hpos, if_true, htiles.unmap_all hpos]
        exact .nil
  · rw [hok] at herror
    cases herror

/-- A safe call keeps the tiling and its promises. -/
theorem Tiled.call (h : a.Tiled) {c : VMMCall} (safe : a.Safe c) :
    (a.call c).2.Tiled ∧ a.Transactional c := by
  cases c with
  | reserve size granted => exact reserveWith_safe h safe
  | mapPhysical offset size answers => exact mapPhysicalWith_safe h safe
  | unmapPhysical offset size => exact unmapPhysical_safe h safe
  | free => exact free_safe h

/-! ### Runs -/

theorem Tiled.after (h : a.Tiled) {calls : List VMMCall} (safe : a.SafeRun calls) :
    (a.after calls).Tiled ∧
      ∀ done c rest, calls = done ++ c :: rest →
        (a.after done).Tiled ∧ (a.after done).Transactional c := by
  induction calls generalizing a with
  | nil => exact ⟨h, by simp⟩
  | cons c calls ih =>
    obtain ⟨hstep, htrans⟩ := h.call safe.1
    obtain ⟨hend, hrest⟩ := ih hstep safe.2
    refine ⟨hend, ?_⟩
    intro done c' rest heq
    cases done with
    | nil =>
      obtain ⟨rfl, -⟩ := List.cons.inj heq
      exact ⟨h, htrans⟩
    | cons d done =>
      obtain ⟨rfl, hcalls⟩ := List.cons.inj heq
      exact hrest done c' rest hcalls

/-- In every run of safe calls, whatever the driver answers, the allocator counts exactly what is
mapped, a mapping that returns has mapped its bytes, and a call that throws changes nothing. -/
theorem consistent_of_safe {granularity : ℕ} (hpos : 1 ≤ granularity) {calls : List VMMCall}
    (safe : (new granularity).SafeRun calls) :
    ((new granularity).after calls).Recorded ∧
      ∀ done c rest, calls = done ++ c :: rest →
        ((new granularity).after done).Recorded ∧
          ((new granularity).after done).Transactional c := by
  obtain ⟨hend, hsteps⟩ := (tiled_new hpos).after safe
  refine ⟨hend.recorded, ?_⟩
  intro done c rest heq
  obtain ⟨htiled, htrans⟩ := hsteps done c rest heq
  exact ⟨htiled.recorded, htrans⟩

/-- A creation that fails is repeated, a sub-range is refused, and everything is given back. -/
theorem consistent_of_safe_retry :
    let calls := [VMMCall.reserve 4 true, .mapPhysical 0 3 ⟨false, true, true⟩,
      .mapPhysical 0 3 ⟨true, true, true⟩, .unmapPhysical 2 2, .free]
    (new 2).SafeRun calls ∧ ((new 2).after (calls.take 4)).mappedSize = 4 ∧
      ((new 2).after calls).Recorded := by
  have safe : (new 2).SafeRun [VMMCall.reserve 4 true, .mapPhysical 0 3 ⟨false, true, true⟩,
      .mapPhysical 0 3 ⟨true, true, true⟩, .unmapPhysical 2 2, .free] := by
    refine ⟨.inr rfl, fun _ => ⟨?_, nofun⟩, fun _ => ⟨?_, fun _ _ _ => rfl⟩, fun _ => rfl, trivial,
      trivial⟩
    · exact ⟨by decide, by decide, by decide⟩
    · exact ⟨by decide, by decide, by decide⟩
  exact ⟨safe, rfl, (consistent_of_safe (by decide) safe).1⟩

/-- Four bytes are mapped and unmapped again. The counter stays at four, so that mapping them once
more returns at once, with none of them mapped. And when the access to four bytes cannot be set,
the call throws with the bytes mapped. -/
theorem unmapped_bytes_counted :
    let unmapped := (new 2).after [.reserve 4 true, .mapPhysical 0 4 ⟨true, true, true⟩,
      .unmapPhysical 0 4]
    let reserved := (new 2).after [.reserve 4 true]
    ¬ unmapped.Recorded ∧
      ¬ unmapped.Transactional (.mapPhysical 0 4 ⟨true, true, true⟩) ∧
      ¬ reserved.Transactional (.mapPhysical 0 4 ⟨true, true, false⟩) := by
  intro unmapped reserved
  refine ⟨fun h => ?_, fun h => ?_, fun h => ?_⟩
  · obtain ⟨s, hs, -⟩ := (h 0).mpr (by decide)
    cases hs
  · have hreturns : (unmapped.call (.mapPhysical 0 4 ⟨true, true, true⟩)).1 = .ok () := by
      decide +kernel
    have hempty : (unmapped.call (.mapPhysical 0 4 ⟨true, true, true⟩)).2.segments = [] := by
      decide +kernel
    obtain ⟨s, hs, -⟩ := h.mapped 0 4 _ rfl hreturns 0 (by decide) (by decide)
    rw [hempty] at hs
    cases hs
  · have hthrows : (reserved.call (.mapPhysical 0 4 ⟨true, true, false⟩)).1 =
        .error (.driver 0 4) := by
      decide +kernel
    have hsame := h.unchanged _ hthrows
    exact absurd (congrArg VMMAllocator.segments hsame) (by decide)

end VMMAllocator

end Pool
