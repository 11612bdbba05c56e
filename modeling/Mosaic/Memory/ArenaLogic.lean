import Mosaic.Memory.Arena
import Mathlib.Algebra.Order.Group.Nat

/-!
# Rules for programs that share an arena

A triple `Safe base L ops L'` says that a program started in agreement on the views `L` reads
what it reads on separate buffers and ends in agreement on the views `L'`, whatever the order
in which its kernels store their pieces, and that none of its operations overwrites a cell that
a later one reads. There is one rule for each kind of operation, and rules
for sequences, loops and changes of the lists.
-/

namespace Arena

open List

variable {ν α : Type*} [DecidableEq ν]

/-- Started in agreement on `L`, every operation of the program reads what it reads on separate
buffers, and the program ends in agreement on `L'`. It needs no cells but those of `L`, and it
overwrites no cell that a later operation reads or that `L'` lists. -/
structure Safe (base : ν → ℕ) (L : List (View ν)) (ops : List (Op ν α)) (L' : List (View ν)) :
    Prop where
  run : ∀ m σ outs m', Sync base L m σ → Exec base ops m outs m' →
    Sync base L' m' (evalAll ops σ).1 ∧ outs = (evalAll ops σ).2
  inputs : needs ops (cells L') ⊆ cells L
  undisturbed : Undisturbed base ops (cells L')

namespace Safe

variable {base : ν → ℕ} {L L' L'' : List (View ν)} {ops ops' : List (Op ν α)} {op : Op ν α}

/-! ### Sequences and loops -/

theorem nil (base : ν → ℕ) (L : List (View ν)) : Safe (α := α) base L [] L where
  run m σ outs m' hsync hexec := by
    cases hexec
    exact ⟨hsync, rfl⟩
  inputs := subset_rfl
  undisturbed := trivial

theorem append (first : Safe base L ops L') (second : Safe base L' ops' L'') :
    Safe base L (ops ++ ops') L'' where
  run m σ outs m'' hsync hexec := by
    obtain ⟨_, _, _, hfirst, hsecond, rfl⟩ := exec_append hexec
    obtain ⟨hmid, rfl⟩ := first.run _ _ _ _ hsync hfirst
    obtain ⟨hend, rfl⟩ := second.run _ _ _ _ hmid hsecond
    rw [evalAll_append]
    exact ⟨hend, rfl⟩
  inputs := by
    rw [needs_append]
    exact (needs_mono second.inputs).trans first.inputs
  undisturbed := (first.undisturbed.mono second.inputs).append second.undisturbed

theorem cons (first : Safe base L [op] L') (rest : Safe base L' ops L'') :
    Safe base L (op :: ops) L'' :=
  first.append rest

/-- Agreement on more cells before and on fewer cells after. -/
theorem conseq {K K' : List (View ν)} (h : Safe base L ops L') (before : cells L ⊆ cells K)
    (after : cells K' ⊆ cells L') : Safe base K ops K' where
  run m σ outs m' hsync hexec := by
    have hsync' : Sync base L m σ := sync_iff.mpr fun c hc => sync_iff.mp hsync c (before hc)
    obtain ⟨hend, houts⟩ := h.run _ _ _ _ hsync' hexec
    exact ⟨sync_iff.mpr fun c hc => sync_iff.mp hend c (after hc), houts⟩
  inputs := ((needs_mono after).trans h.inputs).trans before
  undisturbed := h.undisturbed.mono after

/-- Agreement on fewer views is enough after a program. -/
theorem weaken (h : Safe base L ops L') (hsub : ∀ v ∈ L'', v ∈ L') : Safe base L ops L'' :=
  h.conseq subset_rfl (cells_subset fun v hv => .of_mem (hsub v hv))

/-- A loop whose `i`-th round leads from the `i`-th to the next invariant. -/
theorem flatMap_range (invariant : ℕ → List (View ν)) (body : ℕ → List (Op ν α)) (count : ℕ)
    (round : ∀ i < count, Safe base (invariant i) (body i) (invariant (i + 1))) :
    Safe base (invariant 0) ((List.range count).flatMap body) (invariant count) := by
  induction count with
  | zero => exact nil base _
  | succ count ih =>
    rw [range_succ, flatMap_append]
    refine (ih fun i hi => round i (by omega)).append ?_
    simpa using round count (by omega)

/-- One operation: what it reads is listed before, and every view listed after is defined by
the operation or was listed before and is missed by its stores. -/
theorem of_step (reads : ∀ v ∈ op.reads, Covered L v) (clean : op.Clean base)
    (keep : ∀ v ∈ L', Covered op.defines v ∨
      v ∈ L ∧ ∀ w ∈ op.stores, Apart base v w)
    (step : ∀ m σ out m', Sync base L m σ → op.Step base m out m' →
      Sync base L' m' (op.eval σ).1 ∧ out = (op.eval σ).2) : Safe base L [op] L' where
  run m σ outs m' hsync hexec := by
    cases hexec with
    | cons head tail =>
      cases tail
      obtain ⟨hend, rfl⟩ := step _ _ _ _ hsync head
      simpa [evalAll] using hend
  inputs := by
    rintro _ (hread | ⟨⟨v, hv, hhas⟩, hold⟩)
    · exact cells_subset reads hread
    · rcases keep v hv with hdefined | ⟨hlisted, -⟩
      · exact absurd (hdefined.cells_subset ⟨v, mem_singleton.mpr rfl, hhas⟩) hold
      · exact ⟨v, hlisted, hhas⟩
  undisturbed := by
    refine ⟨clean, ?_, trivial⟩
    rintro ⟨_, _⟩ ⟨⟨v, hv, hhas⟩, hold⟩ ⟨w, hw, haddr⟩
    rcases keep v hv with hdefined | ⟨-, hmiss⟩
    · exact hold (hdefined.cells_subset ⟨v, mem_singleton.mpr rfl, hhas⟩)
    · obtain ⟨rfl, hlo, hhi⟩ := hhas
      have := hmiss w hw
      simp only [Apart, View.addr] at this haddr
      omega

end Safe

/-! ### Kernels -/

section Kernel

variable {base : ν → ℕ} {σ : Store ν α} {k : Kernel ν α}

omit [DecidableEq ν] in
/-- Storing pieces of the outputs, in any order, changes nothing else and puts the reference
value in every cell of every piece. -/
theorem foldl_storePiece (missInputs : ∀ w ∈ k.writes, ∀ v ∈ k.reads, Apart base v w)
    (missOutputs : ∀ w ∈ k.writes, ∀ w' ∈ k.writes, w.tensor ≠ w'.tensor → Apart base w w')
    (pieces : List (View ν)) (inside : ∀ p ∈ pieces, ∃ w ∈ k.writes, p.Within w) (m : Mem α)
    (inputs : ∀ v ∈ k.reads, Holds base m σ v) :
    (∀ a, (∀ p ∈ pieces, ¬ (p.addr base ≤ a ∧ a < p.addr base + p.len)) →
      pieces.foldl (k.storePiece base) m a = m a) ∧
    ∀ p ∈ pieces, ∀ tensor i, p.Has tensor i →
      pieces.foldl (k.storePiece base) m (base tensor + i) =
        k.value (k.reads.map σ.read) tensor i := by
  induction pieces generalizing m with
  | nil => simp
  | cons p rest ih =>
    -- the inputs hold their contents before this piece, and after it since it misses them
    obtain ⟨w, hw, hpw⟩ := inside p mem_cons_self
    have hvalue : k.reads.map (m.read base) = k.reads.map σ.read := map_read_eq inputs
    obtain ⟨hframe, hstored⟩ := ih (fun q hq => inside q (mem_cons_of_mem _ hq))
      (k.storePiece base m p)
      (fun v hv => (inputs v hv).write ((missInputs w hw v hv).within_right hpw) _)
    rw [foldl_cons]
    refine ⟨fun a ha => ?_, fun q hq tensor i hi => ?_⟩
    · rw [hframe a fun q hq => ha q (mem_cons_of_mem _ hq)]
      exact write_of_not_mem (ha p mem_cons_self)
    · rcases mem_cons.mp hq with rfl | hq
      · -- the cell may be stored again by a later piece, with the same value
        by_cases hlater : ∃ q' ∈ rest, q'.addr base ≤ base tensor + i ∧
            base tensor + i < q'.addr base + q'.len
        · obtain ⟨q', hq', haddr⟩ := hlater
          -- outputs of different tensors miss each other, so the later piece is of this tensor
          have htensor : q'.tensor = tensor := by
            obtain ⟨w', hw', hin⟩ := inside q' (mem_cons_of_mem _ hq')
            by_contra hne
            have hapart := missOutputs w' hw' w hw (by rw [← hin.1, ← hpw.1, ← hi.1]; exact hne)
            have := (hapart.within_right hpw).within_left hin
            obtain ⟨rfl, hlo, hhi⟩ := hi
            unfold Apart View.addr at this
            simp only [View.addr] at haddr
            omega
          refine hstored q' hq' tensor i ⟨htensor.symm, ?_⟩
          simp only [View.addr, htensor] at haddr
          omega
        · rw [hframe _ fun q' hq' hin => hlater ⟨q', hq', hin⟩, Kernel.storePiece, hvalue]
          exact write_of_has hi
      · exact hstored q hq tensor i hi

theorem Kernel.eval_of_has {w : View ν} {tensor : ν} {i : ℕ}
    (hw : w ∈ k.writes) (h : w.Has tensor i) :
    k.eval σ tensor i = k.value (k.reads.map σ.read) tensor i :=
  if_pos ⟨w, hw, h⟩

theorem Kernel.eval_of_not_has {tensor : ν} {i : ℕ}
    (h : ∀ w ∈ k.writes, ¬ w.Has tensor i) : k.eval σ tensor i = σ tensor i :=
  if_neg fun ⟨w, hw, hhas⟩ => h w hw hhas

/-- A kernel whose outputs miss its inputs and each other. It keeps the agreement on every
view its outputs miss. -/
theorem Safe.kernel {L L' : List (View ν)} (inputs : ∀ v ∈ k.reads, Covered L v)
    (missInputs : ∀ w ∈ k.writes, ∀ v ∈ k.reads, Apart base v w)
    (missOutputs : ∀ w ∈ k.writes, ∀ w' ∈ k.writes, w.tensor ≠ w'.tensor → Apart base w w')
    (keep : ∀ v ∈ L', v ∈ k.writes ∨ v ∈ L ∧ ∀ w ∈ k.writes, Apart base v w) :
    Safe base L [.kernel k] L' := by
  refine of_step inputs missInputs (fun v hv => (keep v hv).imp .of_mem id)
    fun m σ out m' hsync hstep => ?_
  cases hstep with
  | kernel covers =>
    have hinputs : ∀ v ∈ k.reads, Holds base m σ v := fun v hv => hsync.covered (inputs v hv)
    refine ⟨fun v hv i hi => ?_, map_read_eq hinputs⟩
    obtain ⟨hframe, hstored⟩ :=
      foldl_storePiece missInputs missOutputs _ covers.inside m hinputs
    rcases keep v hv with hwritten | ⟨hold, hmiss⟩
    · -- a written view: every cell of it lies in some piece
      have hhas : v.Has v.tensor (v.lo + i) := ⟨rfl, by omega, by omega⟩
      obtain ⟨p, hp, hpiece⟩ := covers.reaches v hwritten _ hhas
      simp only [Op.eval]
      rw [Kernel.eval_of_has hwritten hhas, View.addr, add_assoc]
      exact hstored p hp _ _ hpiece
    · -- a view that no output touches
      simp only [Op.eval]
      rw [Kernel.eval_of_not_has fun w hw => (hmiss w hw).not_has hi, hframe]
      · exact hsync v hold i hi
      · intro p hp
        obtain ⟨w, hw, hpw⟩ := covers.inside p hp
        have := (hmiss w hw).within_right hpw
        unfold Apart at this
        omega

/-- A kernel with one output. -/
theorem Safe.kernel_single {reads K L : List (View ν)} {out : View ν}
    {value : List (List α) → ν → ℕ → α}
    (inputs : ∀ v ∈ reads, Covered L v ∧ Apart base v out)
    (keep : ∀ v ∈ K, v ∈ L ∧ Apart base v out) :
    Safe base L [.kernel ⟨reads, [out], value⟩] (out :: K) := by
  refine Safe.kernel (fun v hv => (inputs v hv).1) ?_ ?_ ?_
  · intro w hw v hv
    obtain rfl := mem_singleton.mp hw
    exact (inputs v hv).2
  · intro w hw w' hw' hne
    obtain rfl := mem_singleton.mp hw
    obtain rfl := mem_singleton.mp hw'
    exact absurd rfl hne
  · intro v hv
    rcases mem_cons.mp hv with rfl | hkept
    · exact .inl (mem_singleton.mpr rfl)
    · refine .inr ⟨(keep v hkept).1, fun w hw => ?_⟩
      obtain rfl := mem_singleton.mp hw
      exact (keep v hkept).2

end Kernel

/-! ### Elementwise kernels -/

section Elementwise

variable {base : ν → ℕ} {σ : Store ν α} {size count : ℕ} {reads : List (View ν)} {out : View ν}
  {value : List (List α) → ℕ → α}

omit [DecidableEq ν] in
/-- Different granules of one view share no address. -/
theorem apart_granule {v w : View ν} {j j' : ℕ} (same : v.addr base = w.addr base)
    (hne : j ≠ j') : Apart base (v.granule size j) (w.granule size j') := by
  -- the products are opaque to linear arithmetic, so the order of the granules is stated first
  have hmul : (j + 1) * size ≤ j' * size ∨ (j' + 1) * size ≤ j * size := by
    rcases lt_or_gt_of_ne hne with hlt | hgt
    · exact .inl (Nat.mul_le_mul_right _ hlt)
    · exact .inr (Nat.mul_le_mul_right _ hgt)
  simp only [View.addr] at same
  simp only [Nat.add_one_mul] at hmul
  simp only [Apart, View.addr, View.granule]
  omega

omit [DecidableEq ν] in
theorem granule_within {v : View ν} {j : ℕ} (hlen : v.len = size * count) (hj : j < count) :
    (v.granule size j).Within v := by
  refine ⟨rfl, by simp, ?_⟩
  have : (j + 1) * size ≤ count * size := Nat.mul_le_mul_right _ hj
  simp only [View.granule, hlen, mul_comm size count, Nat.add_one_mul] at this ⊢
  omega

omit [DecidableEq ν] in
/-- Storing distinct granules, in any order, leaves the other addresses alone and puts the
reference value in every granule stored, even over an input at the same addresses. -/
theorem foldl_storeGranule (value : List (List α) → ℕ → α)
    (lens : ∀ v ∈ reads, v.len = size * count) (hout : out.len = size * count)
    (overlap : ∀ v ∈ reads, Apart base v out ∨ v.addr base = out.addr base)
    (order : List ℕ) (distinct : order.Nodup) (below : ∀ j ∈ order, j < count) (m : Mem α)
    (inputs : ∀ j ∈ order, ∀ v ∈ reads, Holds base m σ (v.granule size j)) :
    (∀ a, ¬ (out.addr base ≤ a ∧ a < out.addr base + out.len) →
      order.foldl (storeGranule base size reads out value) m a = m a) ∧
    (∀ j, j ∉ order → ∀ r < size,
      order.foldl (storeGranule base size reads out value) m (out.addr base + j * size + r) =
        m (out.addr base + j * size + r)) ∧
    ∀ j ∈ order, ∀ r < size,
      order.foldl (storeGranule base size reads out value) m (out.addr base + j * size + r) =
        value (reads.map fun v => σ.read (v.granule size j)) r := by
  induction order generalizing m with
  | nil => simp
  | cons j rest ih =>
    -- a store over an input destroys only the granule that no later store reads
    obtain ⟨hfresh, hrest⟩ := nodup_cons.mp distinct
    have hj := below j mem_cons_self
    have hvalue : (reads.map fun v => m.read base (v.granule size j)) =
        reads.map fun v => σ.read (v.granule size j) :=
      map_congr_left fun v hv => (inputs j mem_cons_self v hv).read_eq
    obtain ⟨hframe, hother, hstored⟩ := ih hrest (fun i hi => below i (mem_cons_of_mem _ hi))
      (storeGranule base size reads out value m j) (fun i hi v hv => by
        have hij : i ≠ j := fun h => hfresh (h ▸ hi)
        refine (inputs i (mem_cons_of_mem _ hi) v hv).write ?_ _
        rcases overlap v hv with hapart | hsame
        · exact (hapart.within_left (granule_within (lens v hv)
            (below i (mem_cons_of_mem _ hi)))).within_right (granule_within hout hj)
        · exact apart_granule hsame hij)
    rw [foldl_cons]
    have hgranule := granule_within (v := out) hout hj
    refine ⟨fun a ha => ?_, fun i hi r hr => ?_, fun i hi r hr => ?_⟩
    · rw [hframe a ha]
      refine write_of_not_mem fun h => ha ?_
      obtain ⟨-, hlo, hhi⟩ := hgranule
      simp only [View.addr, View.granule] at h hlo hhi ⊢
      omega
    · rw [hother i (fun h => hi (mem_cons_of_mem _ h)) r hr]
      refine write_of_not_mem fun h => ?_
      have hij : i ≠ j := fun h => hi (h ▸ mem_cons_self)
      have : Apart base (out.granule size i) (out.granule size j) := apart_granule rfl hij
      simp only [Apart, View.addr, View.granule] at h this ⊢
      omega
    · rcases mem_cons.mp hi with rfl | hi
      · have hhas : (out.granule size i).Has out.tensor (out.lo + (i * size + r)) := by
          refine ⟨rfl, ?_, ?_⟩ <;> simp only [View.granule] <;> omega
        rw [hother i hfresh r hr, storeGranule, View.addr, add_assoc, add_assoc,
          write_of_has hhas, hvalue]
        congr 1
        omega
      · exact hstored i hi r hr

/-- An elementwise kernel, each of whose inputs its output misses or covers exactly. -/
theorem Safe.elementwise {L L' : List (View ν)}
    (lens : ∀ v ∈ reads, v.len = size * count) (hout : out.len = size * count)
    (inputs : ∀ v ∈ reads, Covered L v)
    (overlap : ∀ v ∈ reads, Apart base v out ∨ v.addr base = out.addr base)
    (keep : ∀ v ∈ L', v = out ∨ v ∈ L ∧ Apart base v out) :
    Safe base L [.elementwise size count reads out value] L' := by
  refine of_step inputs (fun v hv => (overlap v hv).imp_right fun haddr =>
    ⟨haddr, (lens v hv).trans hout.symm⟩) (fun v hv => ?_) fun m σ outs m' hsync hstep => ?_
  · refine (keep v hv).imp (fun h => .of_mem (mem_singleton.mpr h)) fun h => ⟨h.1, ?_⟩
    intro w hw
    obtain rfl := mem_singleton.mp hw
    exact h.2
  cases hstep with
  | @elementwise _ _ _ _ _ _ order perm =>
    refine ⟨fun v hv i hi => ?_, map_read_eq fun v hv => hsync.covered (inputs v hv)⟩
    have hbelow : ∀ j ∈ order, j < count := fun j hj => mem_range.mp (perm.mem_iff.mp hj)
    obtain ⟨hframe, -, hstored⟩ := foldl_storeGranule value lens hout overlap order
      (perm.nodup_iff.mpr nodup_range) hbelow m
      (fun j hj v hv => (hsync.covered (inputs v hv)).within
        (granule_within (lens v hv) (hbelow j hj)))
    simp only [Op.eval]
    rcases keep v hv with rfl | ⟨hold, hmiss⟩
    · -- the cell belongs to the granule `i / size`, at place `i % size`
      have hsize : 0 < size := pos_of_ne_zero fun h => by simp [hout, h] at hi
      have hj : i / size ∈ order := by
        refine perm.mem_iff.mpr (mem_range.mpr ?_)
        exact Nat.div_lt_of_lt_mul (hout ▸ hi)
      have := hstored _ hj (i % size) (Nat.mod_lt _ hsize)
      rw [add_assoc, mul_comm, Nat.div_add_mod] at this
      rw [this, if_pos ⟨rfl, by omega, by omega⟩, Nat.add_sub_cancel_left]
    · rw [if_neg (hmiss.not_has hi), hframe]
      · exact hsync v hold i hi
      · unfold Apart at hmiss
        omega

end Elementwise

/-! ### The other operations -/

section Other

variable {base : ν → ℕ} {L L' : List (View ν)}

theorem Safe.inPlace {v : View ν} {value : List α → ℕ → α} (input : Covered L v)
    (keep : ∀ u ∈ L', u = v ∨ u ∈ L ∧ Apart base u v) :
    Safe base L [.inPlace v value] L' := by
  refine of_step (fun u hu => mem_singleton.mp hu ▸ input) trivial (fun u hu => ?_)
    fun m σ outs m' hsync hstep => ?_
  · refine (keep u hu).imp (fun h => .of_mem (mem_singleton.mpr h)) fun h => ⟨h.1, ?_⟩
    intro w hw
    obtain rfl := mem_singleton.mp hw
    exact h.2
  cases hstep with
  | inPlace =>
    refine ⟨fun u hu i hi => ?_, by rw [(hsync.covered input).read_eq]; rfl⟩
    simp only [Op.eval]
    rcases keep u hu with rfl | ⟨hold, hmiss⟩
    · have hhas : u.Has u.tensor (u.lo + i) := ⟨rfl, by omega, by omega⟩
      rw [View.addr, add_assoc, write_of_has hhas, if_pos hhas, (hsync.covered input).read_eq]
    · rw [if_neg (hmiss.not_has hi)]
      exact (hsync u hold).write hmiss _ i hi

/-- A name that comes to denote the memory of another tensor. -/
theorem Safe.rebind {name source : ν} {len : ℕ} (shared : base name = base source)
    (input : Covered L ⟨source, 0, len⟩)
    (keep : ∀ u ∈ L', u.Within ⟨name, 0, len⟩ ∨ u ∈ L ∧ u.tensor ≠ name) :
    Safe (α := α) base L [.rebind name source len] L' := by
  refine of_step (fun u hu => mem_singleton.mp hu ▸ input) trivial (fun u hu => ?_)
    fun m σ outs m' hsync hstep => ?_
  · refine (keep u hu).imp (fun h => ⟨_, mem_singleton.mpr rfl, h⟩) fun h => ⟨h.1, ?_⟩
    exact nofun
  cases hstep with
  | rebind =>
    refine ⟨fun u hu i hi => ?_, rfl⟩
    simp only [Op.eval]
    -- nothing moves in the arena: both names stand for the same addresses
    rcases keep u hu with ⟨htensor, hlo, hhi⟩ | ⟨hold, hother⟩
    · simp only at htensor hlo hhi
      have := hsync.covered input (u.lo + i) (by simp only; omega)
      rw [if_pos ⟨htensor, by omega⟩]
      simp only [View.addr, zero_add, add_zero, htensor, shared] at this ⊢
      rwa [add_assoc]
    · rw [if_neg fun h => hother h.1]
      exact hsync u hold i hi

theorem Safe.emit {v : View ν} (input : Covered L v) (keep : ∀ u ∈ L', u ∈ L) :
    Safe (α := α) base L [.emit v] L' := by
  refine of_step (fun u hu => mem_singleton.mp hu ▸ input) trivial
    (fun u hu => .inr ⟨keep u hu, nofun⟩)
    fun m σ outs m' hsync hstep => ?_
  cases hstep with
  | emit => exact ⟨fun u hu => hsync u (keep u hu), by rw [(hsync.covered input).read_eq]; rfl⟩

end Other

end Arena
