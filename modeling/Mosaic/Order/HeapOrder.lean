import Mathlib.Data.List.Basic

/-!
# Heap order

A list is read as a binary tree: the children of position `i` stand at `2 * i + 1` and `2 * i + 2`.
A heap is a list in which every parent is related to its children. Restoring a heap moves one entry
through the tree. While it is on its way, the order holds everywhere but around that entry, and the
parent of that position is related to the children of that position.
-/

namespace HeapOrder

open List

variable {α : Type} {R : α → α → Prop} {heap heap' : List α} {start pos i j : ℕ}

/-- The entries at two positions are related, if both exist. -/
def Edge (R : α → α → Prop) (heap : List α) (i j : ℕ) : Prop :=
  ∀ a b, heap[i]? = some a → heap[j]? = some b → R a b

/-- Parents from `start` on are related to their children. -/
def From (R : α → α → Prop) (start : ℕ) (heap : List α) : Prop :=
  ∀ j, 0 < j → start ≤ (j - 1) / 2 → Edge R heap ((j - 1) / 2) j

/-- The parent of `pos` is related to the children of `pos`. -/
def Bridged (R : α → α → Prop) (start : ℕ) (heap : List α) (pos : ℕ) : Prop :=
  ∀ j, 0 < j → (j - 1) / 2 = pos → 0 < pos → start ≤ (pos - 1) / 2 → Edge R heap ((pos - 1) / 2) j

/-- The entry at `pos` need not be related to its parent. -/
structure RisingAt (R : α → α → Prop) (start : ℕ) (heap : List α) (pos : ℕ) : Prop where
  apart : ∀ j, 0 < j → start ≤ (j - 1) / 2 → j ≠ pos → Edge R heap ((j - 1) / 2) j
  bridged : Bridged R start heap pos

/-- The entry at `pos` need not be related to its parent nor to its children. -/
structure SinkingAt (R : α → α → Prop) (start : ℕ) (heap : List α) (pos : ℕ) : Prop where
  apart : ∀ j, 0 < j → start ≤ (j - 1) / 2 → j ≠ pos → (j - 1) / 2 ≠ pos →
    Edge R heap ((j - 1) / 2) j
  bridged : Bridged R start heap pos

/-- Positions in the tree below `start`. -/
inductive Below (start : ℕ) : ℕ → Prop where
  | root : Below start start
  | child {pos : ℕ} (h : 0 < pos) (parent : Below start ((pos - 1) / 2)) : Below start pos

theorem Below.le (h : Below start pos) : start ≤ pos := by
  induction h with
  | root => exact Nat.le_refl _
  | child hpos _ ih => omega

/-- Above `start`, a position below it has its parent below it. -/
theorem Below.parent (h : Below start pos) (hne : start < pos) :
    0 < pos ∧ Below start ((pos - 1) / 2) := by
  cases h with
  | root => exact absurd hne (Nat.lt_irrefl _)
  | child hpos hparent => exact ⟨hpos, hparent⟩

theorem below_zero (pos : ℕ) : Below 0 pos := by
  induction pos using Nat.strongRecOn with
  | _ pos ih =>
    rcases Nat.eq_zero_or_pos pos with rfl | hpos
    · exact .root
    · exact .child hpos (ih _ (by omega))

/-! ### Exchanging a parent and its child -/

/-- The two lists differ by an exchange of the entries `a` at `i` and `b` at `j`. -/
structure Exchanged (heap heap' : List α) (i j : ℕ) (a b : α) : Prop where
  left : heap[i]? = some a
  right : heap[j]? = some b
  left' : heap'[i]? = some b
  right' : heap'[j]? = some a
  apart : ∀ k, k ≠ i → k ≠ j → heap'[k]? = heap[k]?

namespace Exchanged

variable {a b : α}

section

variable (h : Exchanged heap heap' i j a b)
include h

theorem symm : Exchanged heap heap' j i b a :=
  ⟨h.right, h.left, h.right', h.left', fun k hj hi => h.apart k hi hj⟩

theorem edge {k l : ℕ} (hki : k ≠ i) (hkj : k ≠ j) (hli : l ≠ i) (hlj : l ≠ j)
    (hedge : Edge R heap k l) : Edge R heap' k l := by
  intro x y hx hy
  rw [h.apart k hki hkj] at hx
  rw [h.apart l hli hlj] at hy
  exact hedge x y hx hy

/-- An edge to what now stands at `i`. -/
theorem edge_to_left {k : ℕ} (hki : k ≠ i) (hkj : k ≠ j) (hedge : Edge R heap k j) :
    Edge R heap' k i := by
  intro x y hx hy
  rw [h.apart k hki hkj] at hx
  cases h.left'.symm.trans hy
  exact hedge x _ hx h.right

/-- An edge from what now stands at `i`. -/
theorem edge_from_left {k : ℕ} (hki : k ≠ i) (hkj : k ≠ j) (hedge : Edge R heap j k) :
    Edge R heap' i k := by
  intro x y hx hy
  rw [h.apart k hki hkj] at hy
  cases h.left'.symm.trans hx
  exact hedge _ y h.right hy

theorem edge_between (hba : R b a) : Edge R heap' i j := by
  intro x y hx hy
  cases h.left'.symm.trans hx
  cases h.right'.symm.trans hy
  exact hba

end

end Exchanged

theorem Edge.trans (htrans : ∀ a b c, R a b → R b c → R a c) {k : ℕ} {b : α}
    (hb : heap[j]? = some b) (h : Edge R heap i j) (h' : Edge R heap j k) : Edge R heap i k :=
  fun x y hx hy => htrans x b y (h x b hx hb) (h' b y hb hy)

/-! ### Rising -/

section Rising

variable {parent item : α}

/-- The entry changes places with its parent, to which it is related the other way round. -/
theorem RisingAt.exchange (htrans : ∀ a b c, R a b → R b c → R a c)
    (h : RisingAt R start heap pos) (hpos : 0 < pos) (hstart : start ≤ (pos - 1) / 2)
    (hswap : Exchanged heap heap' ((pos - 1) / 2) pos parent item) (hless : R item parent) :
    RisingAt R start heap' ((pos - 1) / 2) := by
  have hup : (pos - 1) / 2 < pos := by omega
  have hitem : Edge R heap pos ((pos - 1) / 2) := by
    intro x y hx hy
    cases hswap.right.symm.trans hx
    cases hswap.left.symm.trans hy
    exact hless
  constructor
  · intro j hj hfrom hne
    by_cases hjpos : j = pos
    · subst hjpos
      exact hswap.edge_between hless
    · have hedge := h.apart j hj hfrom hjpos
      by_cases hchild : (j - 1) / 2 = pos
      · -- a child of the old position is now below the parent
        rw [hchild]
        exact hswap.symm.edge_from_left (by omega) (by omega) (h.bridged j hj hchild hpos hstart)
      · by_cases hsibling : (j - 1) / 2 = (pos - 1) / 2
        · rw [hsibling] at hedge ⊢
          exact hswap.edge_from_left (by omega) (by omega) (hitem.trans htrans hswap.left hedge)
        · exact hswap.edge hsibling hchild hne hjpos hedge
  · intro j hj hparent hpos' hfrom
    have hgrand := h.apart _ hpos' hfrom (by omega)
    by_cases hjpos : j = pos
    · subst hjpos
      exact hswap.symm.edge_to_left (by omega) (by omega) hgrand
    · have hedge := h.apart j hj (by omega) hjpos
      rw [hparent] at hedge
      exact hswap.edge (by omega) (by omega) (by omega) hjpos
        (hgrand.trans htrans hswap.left hedge)

/-- The entry stays where its parent is related to it, or at the start. -/
theorem RisingAt.settle (h : RisingAt R start heap pos)
    (hstop : 0 < pos → start ≤ (pos - 1) / 2 → Edge R heap ((pos - 1) / 2) pos) :
    From R start heap := by
  intro j hj hfrom
  by_cases hjpos : j = pos
  · subst hjpos
    exact hstop hj hfrom
  · exact h.apart j hj hfrom hjpos

end Rising

/-! ### Sinking -/

section Sinking

variable {item child : α} {next : ℕ}

/-- The entry changes places with a child that is related to the other child. -/
theorem SinkingAt.exchange (h : SinkingAt R start heap pos) (hnext : 0 < next)
    (hparent : (next - 1) / 2 = pos) (hswap : Exchanged heap heap' pos next item child)
    (hother : ∀ j, 0 < j → (j - 1) / 2 = pos → j ≠ next → Edge R heap next j) :
    SinkingAt R start heap' next := by
  have hdown : pos < next := by omega
  constructor
  · intro j hj hfrom hne hparent'
    by_cases hjpos : j = pos
    · subst hjpos
      exact hswap.edge_to_left (by omega) (by omega) (h.bridged next hnext hparent hj hfrom)
    · by_cases hsibling : (j - 1) / 2 = pos
      · rw [hsibling]
        exact hswap.edge_from_left (by omega) hne (hother j hj hsibling hne)
      · exact hswap.edge hsibling hparent' hjpos hne (h.apart j hj hfrom hjpos hsibling)
  · intro j hj hchild _ hfrom
    rw [hparent] at hfrom ⊢
    have hedge := h.apart j hj (by omega) (by omega) (by omega)
    rw [hchild] at hedge
    exact hswap.edge_from_left (by omega) (by omega) hedge

/-- At a leaf, the entry has no children to be related to. -/
theorem SinkingAt.rising (h : SinkingAt R start heap pos) (hleaf : heap.length ≤ 2 * pos + 1) :
    RisingAt R start heap pos := by
  refine ⟨fun j hj hfrom hne => ?_, h.bridged⟩
  by_cases hchild : (j - 1) / 2 = pos
  · intro x y _ hy
    obtain ⟨hlt, -⟩ := List.getElem?_eq_some_iff.mp hy
    omega
  · exact h.apart j hj hfrom hne hchild

end Sinking

/-! ### Where sifting starts -/

/-- A new entry at the end. -/
theorem From.push (h : From R 0 heap) (item : α) : RisingAt R 0 (heap ++ [item]) heap.length := by
  constructor
  · intro j hj _ hne x y hx hy
    obtain ⟨hlt, -⟩ := List.getElem?_eq_some_iff.mp hy
    rw [length_append, length_singleton] at hlt
    rw [getElem?_append_left (by omega)] at hx hy
    exact h j hj (Nat.zero_le _) x y hx hy
  · intro j hj hparent _ _ x y _ hy
    obtain ⟨hlt, -⟩ := List.getElem?_eq_some_iff.mp hy
    rw [length_append, length_singleton] at hlt
    omega

/-- Another entry at the root of a heap that lost its last entries. -/
theorem From.replaceRoot {first item : α} {rest front : List α} (h : From R 0 (first :: rest))
    (hfront : front <+: rest) : SinkingAt R 0 (item :: front) 0 := by
  constructor
  · intro j hj _ _ hparent x y hx hy
    have hback : ∀ {k : ℕ} {z : α}, 0 < k → (item :: front)[k]? = some z →
        (first :: rest)[k]? = some z := by
      intro k z hk hz
      obtain ⟨k, rfl⟩ := Nat.exists_eq_add_of_le' hk
      rw [getElem?_cons_succ] at hz ⊢
      obtain ⟨hlt, -⟩ := List.getElem?_eq_some_iff.mp hz
      obtain ⟨back, rfl⟩ := hfront
      rwa [getElem?_append_left hlt]
    exact h j hj (Nat.zero_le _) x y (hback (Nat.pos_of_ne_zero hparent) hx) (hback hj hy)
  · intro j _ _ hpos
    exact absurd hpos (Nat.lt_irrefl 0)

/-- The parent before the ones that are in order. -/
theorem From.sinking (h : From R (pos + 1) heap) : SinkingAt R pos heap pos := by
  constructor
  · intro j hj hfrom _ hparent
    exact h j hj (by omega)
  · intro j _ _ hpos hfrom
    omega

/-- Positions in the second half have no children. -/
theorem from_half (R : α → α → Prop) (heap : List α) : From R (heap.length / 2) heap := by
  intro j hj hfrom x y _ hy
  obtain ⟨hlt, -⟩ := List.getElem?_eq_some_iff.mp hy
  omega

/-- The first entry of a heap is related to every entry. -/
theorem From.root (hrefl : ∀ a, R a a) (htrans : ∀ a b c, R a b → R b c → R a c) {first : α}
    (h : From R 0 heap) (hfirst : heap[0]? = some first) {a : α} (ha : a ∈ heap) :
    R first a := by
  obtain ⟨i, hi⟩ := getElem?_of_mem ha
  -- up the tree from the position of the entry
  induction i using Nat.strongRecOn generalizing a with
  | _ i ih =>
    rcases Nat.eq_zero_or_pos i with rfl | hpos
    · cases hfirst.symm.trans hi
      exact hrefl first
    · obtain ⟨hlt, -⟩ := List.getElem?_eq_some_iff.mp hi
      have hparent : heap[(i - 1) / 2]? = some heap[(i - 1) / 2] := getElem?_eq_getElem _
      have habove := ih _ (by omega) (getElem_mem _) hparent
      exact htrans _ _ _ habove (h i hpos (Nat.zero_le _) _ _ hparent hi)

end HeapOrder
