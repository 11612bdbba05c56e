import Mathlib.Data.List.Perm.Basic
import Mathlib.Data.List.Nodup
import Mathlib.Data.Set.Basic
import Mathlib.Logic.Function.Basic

/-!
# Running tensor programs in one shared arena

A program reads and writes parts of named tensors. Its reference meaning gives every tensor a
buffer of its own, and every operation reads all its inputs before it stores anything. The
arena run keeps all tensors in one array of cells, at given base addresses, and executes an
operation as a real kernel does: it stores its output piece by piece, in any order, and reads
its inputs from the arena as they are at that moment. The two agree only where no store hits
a cell that is still needed, so agreement is tracked as a list of views whose arena cells hold
their reference values. What is observed of a run is everything its operations read.
-/

namespace Arena

variable {ν α : Type*}

/-- The `len` cells of `tensor` from `lo` on. -/
structure View (ν : Type*) where
  tensor : ν
  lo : ℕ
  len : ℕ
  deriving DecidableEq, Repr

namespace View

/-- Cell `i` of `tensor` belongs to the view. -/
def Has (v : View ν) (tensor : ν) (i : ℕ) : Prop :=
  tensor = v.tensor ∧ v.lo ≤ i ∧ i < v.lo + v.len

instance [DecidableEq ν] (v : View ν) (tensor : ν) (i : ℕ) : Decidable (v.Has tensor i) :=
  inferInstanceAs (Decidable (_ ∧ _ ∧ _))

/-- The first address of the view under the base addresses `base`. -/
def addr (base : ν → ℕ) (v : View ν) : ℕ :=
  base v.tensor + v.lo

/-- The view lies inside `u`. -/
def Within (v u : View ν) : Prop :=
  v.tensor = u.tensor ∧ u.lo ≤ v.lo ∧ v.lo + v.len ≤ u.lo + u.len

/-- Granule `j` of the view, in granules of `size` cells. -/
def granule (size j : ℕ) (v : View ν) : View ν :=
  ⟨v.tensor, v.lo + j * size, size⟩

@[simp] theorem granule_tensor (size j : ℕ) (v : View ν) :
    (v.granule size j).tensor = v.tensor := rfl

@[simp] theorem granule_lo (size j : ℕ) (v : View ν) :
    (v.granule size j).lo = v.lo + j * size := rfl

@[simp] theorem granule_len (size j : ℕ) (v : View ν) : (v.granule size j).len = size := rfl

end View

/-- Two views occupy no common address. -/
def Apart (base : ν → ℕ) (v w : View ν) : Prop :=
  v.len = 0 ∨ w.len = 0 ∨ v.addr base + v.len ≤ w.addr base ∨ w.addr base + w.len ≤ v.addr base

variable {base : ν → ℕ}

theorem Apart.symm {v w : View ν} (h : Apart base v w) : Apart base w v := by
  unfold Apart at h ⊢
  omega

/-- One buffer for each tensor. -/
abbrev Store (ν α : Type*) := ν → ℕ → α

/-- The shared array of cells. -/
abbrev Mem (α : Type*) := ℕ → α

/-- The contents of a view in separate buffers. -/
def Store.read (σ : Store ν α) (v : View ν) : List α :=
  (List.range v.len).map fun i => σ v.tensor (v.lo + i)

/-- The contents of a view in the arena. -/
def Mem.read (base : ν → ℕ) (m : Mem α) (v : View ν) : List α :=
  (List.range v.len).map fun i => m (v.addr base + i)

/-- Store `value` in the cells of a view. -/
def Mem.write (base : ν → ℕ) (v : View ν) (value : ν → ℕ → α) (m : Mem α) : Mem α :=
  fun a => if v.addr base ≤ a ∧ a < v.addr base + v.len then value v.tensor (a - base v.tensor)
    else m a

/-- What a kernel reads, what it writes, and the value it stores in each cell. -/
structure Kernel (ν α : Type*) where
  reads : List (View ν)
  writes : List (View ν)
  value : List (List α) → ν → ℕ → α

/-- An operation of a tensor program.

* `kernel` may read all of its inputs for every cell it stores.
* `elementwise` computes granule `j` of its output from granule `j` of each input.
* `inPlace` replaces the contents of a view by a function of them.
* `rebind` lets one name denote the memory of another from here on.
* `emit` hands the contents of a view to the outside. -/
inductive Op (ν α : Type*) where
  | kernel (k : Kernel ν α)
  | elementwise (size count : ℕ) (reads : List (View ν)) (out : View ν)
      (value : List (List α) → ℕ → α)
  | inPlace (v : View ν) (value : List α → ℕ → α)
  | rebind (name source : ν) (len : ℕ)
  | emit (v : View ν)

/-! ### Reference meaning -/

section Reference

variable [DecidableEq ν]

/-- All inputs are read before anything is stored. -/
def Kernel.eval (k : Kernel ν α) (σ : Store ν α) : Store ν α :=
  fun tensor i => if ∃ w ∈ k.writes, w.Has tensor i then k.value (k.reads.map σ.read) tensor i
    else σ tensor i

/-- One operation on separate buffers, with the contents of what it reads. -/
def Op.eval : Op ν α → Store ν α → Store ν α × List (List α)
  | .kernel k, σ => (k.eval σ, k.reads.map σ.read)
  | .elementwise size _ reads out value, σ =>
    -- cell `i` is computed from the granule it lies in
    (fun tensor i => if out.Has tensor i then
        value (reads.map fun v => σ.read (v.granule size ((i - out.lo) / size)))
          ((i - out.lo) % size)
      else σ tensor i, reads.map σ.read)
  | .inPlace v value, σ =>
    (fun tensor i => if v.Has tensor i then value (σ.read v) (i - v.lo) else σ tensor i,
      [σ.read v])
  | .rebind name source len, σ =>
    -- with separate buffers, sharing memory is copying
    (fun tensor i => if tensor = name ∧ i < len then σ source i else σ tensor i, [])
  | .emit v, σ => (σ, [σ.read v])

/-- A program on separate buffers, with everything its operations read, in order. -/
def evalAll : List (Op ν α) → Store ν α → Store ν α × List (List α)
  | [], σ => (σ, [])
  | op :: rest, σ =>
    let after := op.eval σ
    let final := evalAll rest after.1
    (final.1, after.2 ++ final.2)

theorem evalAll_append (ops ops' : List (Op ν α)) (σ : Store ν α) :
    evalAll (ops ++ ops') σ =
      ((evalAll ops' (evalAll ops σ).1).1,
        (evalAll ops σ).2 ++ (evalAll ops' (evalAll ops σ).1).2) := by
  induction ops generalizing σ with
  | nil => rfl
  | cons op rest ih => simp [evalAll, ih]

end Reference

/-! ### Arena runs -/

section ArenaRun

variable (base : ν → ℕ)

/-- The pieces lie inside the written views and reach every cell of them. -/
structure Covers (writes pieces : List (View ν)) : Prop where
  inside : ∀ p ∈ pieces, ∃ w ∈ writes, p.Within w
  reaches : ∀ w ∈ writes, ∀ i, w.Has w.tensor i → ∃ p ∈ pieces, p.Has w.tensor i

theorem Covers.refl (writes : List (View ν)) : Covers writes writes where
  inside p hp := ⟨p, hp, rfl, le_rfl, le_rfl⟩
  reaches w hw _ hi := ⟨w, hw, hi⟩

/-- Store one piece, reading the inputs from the arena as it is now. -/
def Kernel.storePiece (k : Kernel ν α) (m : Mem α) (piece : View ν) : Mem α :=
  m.write base piece (k.value (k.reads.map (m.read base)))

/-- Store granule `j` of an elementwise output, reading granule `j` of the inputs now. -/
def storeGranule (size : ℕ) (reads : List (View ν)) (out : View ν)
    (value : List (List α) → ℕ → α) (m : Mem α) (j : ℕ) : Mem α :=
  m.write base (out.granule size j)
    fun _ i => value (reads.map fun v => m.read base (v.granule size j)) (i - out.lo - j * size)

/-- One operation in the arena, with the contents of what it reads when it starts. The order in
which a kernel stores its pieces is free. -/
inductive Op.Step : Op ν α → Mem α → List (List α) → Mem α → Prop where
  | kernel {k : Kernel ν α} {m : Mem α} {pieces : List (View ν)}
      (covers : Covers k.writes pieces) :
      Step (.kernel k) m (k.reads.map (m.read base)) (pieces.foldl (k.storePiece base) m)
  | elementwise {size count : ℕ} {reads : List (View ν)} {out : View ν}
      {value : List (List α) → ℕ → α} {m : Mem α} {order : List ℕ}
      (perm : order.Perm (List.range count)) :
      Step (.elementwise size count reads out value) m (reads.map (m.read base))
        (order.foldl (storeGranule base size reads out value) m)
  | inPlace {v : View ν} {value : List α → ℕ → α} {m : Mem α} :
      Step (.inPlace v value) m [m.read base v]
        (m.write base v fun _ i => value (m.read base v) (i - v.lo))
  | rebind {name source : ν} {len : ℕ} {m : Mem α} : Step (.rebind name source len) m [] m
  | emit {v : View ν} {m : Mem α} : Step (.emit v) m [m.read base v] m

/-- A program in the arena, with everything its operations read, in order. -/
inductive Exec : List (Op ν α) → Mem α → List (List α) → Mem α → Prop where
  | nil {m : Mem α} : Exec [] m [] m
  | cons {op : Op ν α} {rest : List (Op ν α)} {m m' m'' : Mem α} {out outs : List (List α)}
      (head : op.Step base m out m') (tail : Exec rest m' outs m'') :
      Exec (op :: rest) m (out ++ outs) m''

variable {base}

theorem Op.exists_step (base : ν → ℕ) (op : Op ν α) (m : Mem α) :
    ∃ out m', op.Step base m out m' := by
  cases op with
  | kernel k => exact ⟨_, _, .kernel (.refl _)⟩
  | elementwise size count reads out value => exact ⟨_, _, .elementwise (.refl _)⟩
  | inPlace v value => exact ⟨_, _, .inPlace⟩
  | rebind name source len => exact ⟨_, _, .rebind⟩
  | emit v => exact ⟨_, _, .emit⟩

/-- Every program has an arena run. -/
theorem exists_exec (ops : List (Op ν α)) (m : Mem α) : ∃ outs m', Exec base ops m outs m' := by
  induction ops generalizing m with
  | nil => exact ⟨_, _, .nil⟩
  | cons op rest ih =>
    obtain ⟨_, m', hop⟩ := op.exists_step base m
    obtain ⟨outs, _, hrest⟩ := ih m'
    exact ⟨_, _, .cons hop hrest⟩

theorem exec_append {ops ops' : List (Op ν α)} {m m'' : Mem α} {outs : List (List α)}
    (h : Exec base (ops ++ ops') m outs m'') :
    ∃ m' first second, Exec base ops m first m' ∧ Exec base ops' m' second m'' ∧
      outs = first ++ second := by
  induction ops generalizing m outs with
  | nil => exact ⟨m, [], outs, .nil, h, rfl⟩
  | cons op rest ih =>
    cases h with
    | cons head tail =>
      obtain ⟨m', first, second, hfirst, hsecond, rfl⟩ := ih tail
      exact ⟨m', _, second, .cons head hfirst, hsecond, by simp⟩

end ArenaRun

/-! ### Agreement on a list of views -/

section Agreement

variable {base : ν → ℕ} {m : Mem α} {σ : Store ν α} {u v w : View ν}

/-- The arena cells of the view hold its reference contents. -/
def Holds (base : ν → ℕ) (m : Mem α) (σ : Store ν α) (v : View ν) : Prop :=
  ∀ i < v.len, m (v.addr base + i) = σ v.tensor (v.lo + i)

/-- The arena holds the reference contents of every listed view. -/
def Sync (base : ν → ℕ) (L : List (View ν)) (m : Mem α) (σ : Store ν α) : Prop :=
  ∀ v ∈ L, Holds base m σ v

/-- Some listed view contains `v`. -/
def Covered (L : List (View ν)) (v : View ν) : Prop :=
  ∃ u ∈ L, v.Within u

variable {L : List (View ν)}

theorem Covered.of_mem (h : v ∈ L) : Covered L v :=
  ⟨v, h, rfl, le_rfl, le_rfl⟩

theorem Holds.read_eq (h : Holds base m σ v) : m.read base v = σ.read v :=
  List.map_congr_left fun i hi => h i (List.mem_range.mp hi)

theorem map_read_eq {views : List (View ν)} (h : ∀ v ∈ views, Holds base m σ v) :
    views.map (m.read base) = views.map σ.read :=
  List.map_congr_left fun v hv => (h v hv).read_eq

theorem Holds.within (h : Holds base m σ u) (hin : v.Within u) : Holds base m σ v := by
  obtain ⟨htensor, hlo, hhi⟩ := hin
  intro i hi
  have := h (v.lo - u.lo + i) (by omega)
  simp only [View.addr, htensor] at this ⊢
  rwa [show base u.tensor + u.lo + (v.lo - u.lo + i) = base u.tensor + v.lo + i by omega,
    show u.lo + (v.lo - u.lo + i) = v.lo + i by omega] at this

theorem Sync.covered (h : Sync base L m σ) (hv : Covered L v) : Holds base m σ v := by
  obtain ⟨u, hu, hin⟩ := hv
  exact (h u hu).within hin

theorem write_of_not_mem {value : ν → ℕ → α} {a : ℕ}
    (h : ¬ (w.addr base ≤ a ∧ a < w.addr base + w.len)) : m.write base w value a = m a :=
  if_neg h

theorem write_of_has {value : ν → ℕ → α} {tensor : ν} {i : ℕ} (h : w.Has tensor i) :
    m.write base w value (base tensor + i) = value tensor i := by
  obtain ⟨rfl, hlo, hhi⟩ := h
  rw [Mem.write, if_pos (by simp only [View.addr]; omega), Nat.add_sub_cancel_left]

/-- A store leaves every view that shares no address with it alone. -/
theorem Holds.write (h : Holds base m σ v) (hapart : Apart base v w) (value : ν → ℕ → α) :
    Holds base (m.write base w value) σ v := by
  intro i hi
  rw [write_of_not_mem (by unfold Apart at hapart; omega)]
  exact h i hi

theorem Apart.within_right (h : Apart base v u) (hin : w.Within u) : Apart base v w := by
  obtain ⟨htensor, hlo, hhi⟩ := hin
  unfold Apart View.addr at *
  rw [htensor]
  omega

theorem Apart.within_left (h : Apart base u v) (hin : w.Within u) : Apart base w v :=
  (h.symm.within_right hin).symm

/-- Only the base addresses of the two tensors matter. -/
theorem Apart.congr_base {base' : ν → ℕ} (h : Apart base v w) (hv : base' v.tensor = base v.tensor)
    (hw : base' w.tensor = base w.tensor) : Apart base' v w := by
  unfold Apart View.addr at *
  rwa [hv, hw]

/-- Views of one address in common are not apart. -/
theorem Apart.not_has (h : Apart base v w) {i : ℕ} (hi : i < v.len) :
    ¬ w.Has v.tensor (v.lo + i) := by
  rintro ⟨htensor, hlo, hhi⟩
  unfold Apart View.addr at h
  rw [htensor] at h
  omega

/-- The cells of a list of views. -/
def cells (L : List (View ν)) : Set (ν × ℕ) :=
  {c | ∃ v ∈ L, v.Has c.1 c.2}

theorem sync_iff : Sync base L m σ ↔ ∀ c ∈ cells L, m (base c.1 + c.2) = σ c.1 c.2 := by
  constructor
  · rintro h ⟨tensor, i⟩ ⟨v, hv, rfl, hlo, hhi⟩
    have := h v hv (i - v.lo) (by omega)
    rwa [View.addr, Nat.add_assoc, show v.lo + (i - v.lo) = i by omega] at this
  · intro h v hv i hi
    rw [View.addr, Nat.add_assoc]
    exact h (v.tensor, v.lo + i) ⟨v, hv, rfl, by simp, by simpa using hi⟩

theorem Covered.cells_subset (h : Covered L v) : cells [v] ⊆ cells L := by
  obtain ⟨u, hu, htensor, hlo, hhi⟩ := h
  rintro ⟨_, _⟩ ⟨_, hw, hhas⟩
  obtain rfl := List.mem_singleton.mp hw
  obtain ⟨rfl, hi, hi'⟩ := hhas
  exact ⟨u, hu, htensor, by omega, by omega⟩

theorem cells_subset {views L : List (View ν)} (h : ∀ v ∈ views, Covered L v) :
    cells views ⊆ cells L := by
  rintro _ ⟨v, hv, hhas⟩
  exact (h v hv).cells_subset ⟨v, List.mem_singleton.mpr rfl, hhas⟩

end Agreement

/-! ### Overwriting -/

section Overwriting

/-- What an operation reads. -/
def Op.reads : Op ν α → List (View ν)
  | .kernel k => k.reads
  | .elementwise _ _ reads _ _ => reads
  | .inPlace v _ => [v]
  | .rebind _ source len => [⟨source, 0, len⟩]
  | .emit v => [v]

/-- The cells to which an operation gives new values. -/
def Op.defines : Op ν α → List (View ν)
  | .kernel k => k.writes
  | .elementwise _ _ _ out _ => [out]
  | .inPlace v _ => [v]
  | .rebind name _ len => [⟨name, 0, len⟩]
  | .emit _ => []

/-- What an operation stores to. A renaming gives new values without storing anything. -/
def Op.stores : Op ν α → List (View ν)
  | .rebind _ _ _ => []
  | op => op.defines

/-- The operation stores to the address of a cell. -/
def Op.Hits (base : ν → ℕ) (op : Op ν α) (c : ν × ℕ) : Prop :=
  ∃ w ∈ op.stores, w.addr base ≤ base c.1 + c.2 ∧ base c.1 + c.2 < w.addr base + w.len

/-- An operation does not store to what it still reads itself, except that an elementwise
operation may store exactly over an input. -/
def Op.Clean (base : ν → ℕ) : Op ν α → Prop
  | .kernel k => ∀ w ∈ k.writes, ∀ v ∈ k.reads, Apart base v w
  | .elementwise _ _ reads out _ =>
    ∀ v ∈ reads, Apart base v out ∨ v.addr base = out.addr base ∧ v.len = out.len
  | _ => True

/-- The cells whose present values a program needs, when the cells `after` are needed at its
end. -/
def needs : List (Op ν α) → Set (ν × ℕ) → Set (ν × ℕ)
  | [], after => after
  -- what is needed later and not produced here is needed now
  | op :: rest, after => cells op.reads ∪ (needs rest after \ cells op.defines)

/-- No operation stores to a cell whose value a later operation still reads. -/
def Undisturbed (base : ν → ℕ) : List (Op ν α) → Set (ν × ℕ) → Prop
  | [], _ => True
  | op :: rest, after =>
    op.Clean base ∧ (∀ c ∈ needs rest after \ cells op.defines, ¬ op.Hits base c) ∧
      Undisturbed base rest after

theorem needs_append (ops ops' : List (Op ν α)) (after : Set (ν × ℕ)) :
    needs (ops ++ ops') after = needs ops (needs ops' after) := by
  induction ops with
  | nil => rfl
  | cons op rest ih => rw [List.cons_append, needs, needs, ih]

theorem needs_mono {ops : List (Op ν α)} {after after' : Set (ν × ℕ)} (h : after ⊆ after') :
    needs ops after ⊆ needs ops after' := by
  induction ops with
  | nil => exact h
  | cons op rest ih =>
    rintro _ (hread | ⟨hneed, hold⟩)
    · exact .inl hread
    · exact .inr ⟨ih hneed, hold⟩

theorem Undisturbed.mono {ops : List (Op ν α)} {after after' : Set (ν × ℕ)}
    (h : Undisturbed base ops after') (hsub : after ⊆ after') : Undisturbed base ops after := by
  induction ops with
  | nil => trivial
  | cons op rest ih =>
    obtain ⟨hclean, hhits, hrest⟩ := h
    exact ⟨hclean, fun c hc => hhits c ⟨needs_mono hsub hc.1, hc.2⟩, ih hrest⟩

theorem Undisturbed.append {ops ops' : List (Op ν α)} {after : Set (ν × ℕ)}
    (first : Undisturbed base ops (needs ops' after)) (second : Undisturbed base ops' after) :
    Undisturbed base (ops ++ ops') after := by
  induction ops with
  | nil => exact second
  | cons op rest ih =>
    obtain ⟨hclean, hhits, hrest⟩ := first
    exact ⟨hclean, needs_append rest ops' after ▸ hhits, ih hrest⟩

end Overwriting

end Arena
