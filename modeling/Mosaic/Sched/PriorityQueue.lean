import Mathlib.Data.Prod.Lex
import Mathlib.Algebra.Order.Ring.Unbundled.Rat
import Mathlib.Data.Int.Order.Basic
import Mosaic.Order.HeapOrder
import Mosaic.Sched.RequestQueue
import Mosaic.Transition.Execution

/-!
# The priority queue as a sorted collection

A heap that was built without an exception is ordered: no comparison that was made was a tie, so
every parent comes strictly before its children. Popping all members compares neighbours in the
order of the keys, so it raises if two members tie. It is requests with equal priority and equal
arrival time, such as the children of one parallel sampling request, that make the queue fail.
-/

namespace Sched

open List Fallible Function Except

open HeapOrder (From RisingAt SinkingAt Below Exchanged Edge)
open Transition (Execution)

variable {heap heap' : List HeapEntry} {item : HeapEntry} {start pos fuel : ℕ}

namespace HeapEntry

/-- What a queue sorts by. -/
def key (e : HeapEntry) : ℤ ×ₗ ℚ := toLex (e.priority, e.arrivalTime)

/-- The key of `a` is smaller, or the entries are the same. -/
def Before (a b : HeapEntry) : Prop := a.key < b.key ∨ a = b

theorem Before.refl (a : HeapEntry) : a.Before a := .inr rfl

theorem Before.trans (a b c : HeapEntry) (hab : a.Before b) (hbc : b.Before c) : a.Before c := by
  rcases hab with hab | rfl
  · rcases hbc with hbc | rfl
    · exact .inl (hab.trans hbc)
    · exact .inl hab
  · exact hbc

variable {a b : HeapEntry}

theorem Before.key_le (h : a.Before b) : a.key ≤ b.key := by
  rcases h with h | rfl
  · exact h.le
  · exact le_rfl

theorem key_lt_iff : a.key < b.key ↔
    a.priority < b.priority ∨ a.priority = b.priority ∧ a.arrivalTime < b.arrivalTime :=
  Prod.Lex.toLex_lt_toLex

theorem key_eq_iff : a.key = b.key ↔ a.priority = b.priority ∧ a.arrivalTime = b.arrivalTime := by
  rw [key, key, toLex_inj, Prod.mk.injEq]

/-- A comparison that returns tells entries apart. -/
theorem lt_eq_ok {smaller : Bool} (hok : a.lt b = .ok smaller) :
    if smaller then a.key < b.key else b.Before a := by
  unfold lt at hok
  split_ifs at hok with hpriority harrival hid
  · cases hok
    split_ifs with hless
    · exact key_lt_iff.mpr (.inl (of_decide_eq_true hless))
    · have hle := not_lt.mp fun hlt => hless (decide_eq_true hlt)
      exact .inl (key_lt_iff.mpr (.inl (lt_of_le_of_ne hle (Ne.symm hpriority))))
  · have hsame := not_not.mp hpriority
    cases hok
    split_ifs with hless
    · exact key_lt_iff.mpr (.inr ⟨hsame, of_decide_eq_true hless⟩)
    · have hle := not_lt.mp fun hlt => hless (decide_eq_true hlt)
      exact .inl (key_lt_iff.mpr (.inr ⟨hsame.symm, lt_of_le_of_ne hle (Ne.symm harrival)⟩))
  · cases hok
    right
    cases a
    cases b
    simp_all

end HeapEntry

open HeapEntry (Before)

/-! ### Sifting -/

theorem exchanged_swap {i j : ℕ} {a b : HeapEntry} (hi : heap[i]? = some a)
    (hj : heap[j]? = some b) (hne : i ≠ j) : Exchanged heap (swap heap i j) i j a b := by
  obtain ⟨hi', -⟩ := List.getElem?_eq_some_iff.mp hi
  obtain ⟨hj', -⟩ := List.getElem?_eq_some_iff.mp hj
  have hswap : swap heap i j = (heap.set i b).set j a := by
    rw [swap, hi, hj]
  rw [hswap]
  refine ⟨hi, hj, ?_, ?_, fun k hki hkj => ?_⟩
  · rw [getElem?_set_ne hne.symm, getElem?_set_self hi']
  · rw [getElem?_set_self (by rwa [length_set])]
  · rw [getElem?_set_ne hkj.symm, getElem?_set_ne hki.symm]

theorem siftdown_from (hok : siftdown start fuel heap pos = .ok heap') (hfuel : pos ≤ fuel)
    (hbelow : Below start pos) (h : RisingAt Before start heap pos) : From Before start heap' := by
  -- The entry rises along its parents, and all other pairs are in order meanwhile.
  induction fuel generalizing heap pos with
  | zero =>
    cases hok
    exact h.settle fun hpos _ => absurd hpos (by omega)
  | succ fuel ih =>
    unfold siftdown at hok
    split at hok
    · rename_i hstart
      cases hok
      exact h.settle fun hpos hfrom => absurd hfrom (by omega)
    · rename_i hstart
      obtain ⟨hpos, hparent⟩ := hbelow.parent (not_le.mp hstart)
      split at hok
      · rename_i item parent hitem hparent'
        obtain ⟨smaller, hlt, hok⟩ := bind_eq_ok.mp hok
        have hkeys := HeapEntry.lt_eq_ok hlt
        cases smaller with
        | true =>
          have hswap := (exchanged_swap hitem hparent' (by omega)).symm
          exact ih hok (by omega) hparent
            (h.exchange Before.trans hpos hparent.le hswap (.inl hkeys))
        | false =>
          cases hok
          refine h.settle fun _ _ x y hx hy => ?_
          cases hitem.symm.trans hy
          cases hparent'.symm.trans hx
          exact hkeys
      · cases hok

/-- The child that moves up comes before the other one. -/
theorem smallerChild_eq_ok {child : ℕ} (hok : smallerChild heap pos = .ok child)
    (hinner : 2 * pos + 1 < heap.length) :
    0 < child ∧ (child - 1) / 2 = pos ∧ child < heap.length ∧
      ∀ j, 0 < j → (j - 1) / 2 = pos → j ≠ child → Edge Before heap child j := by
  unfold smallerChild at hok
  split at hok
  · rename_i left right hleft hright
    obtain ⟨hlen, -⟩ := List.getElem?_eq_some_iff.mp hright
    obtain ⟨smaller, hlt, hok⟩ := bind_eq_ok.mp hok
    have hkeys := HeapEntry.lt_eq_ok hlt
    cases smaller with
    | true =>
      cases hok
      refine ⟨by omega, by omega, hinner, fun j _ hparent hne x y hx hy => ?_⟩
      obtain rfl : j = 2 * pos + 2 := by omega
      cases hleft.symm.trans hx
      cases hright.symm.trans hy
      exact .inl hkeys
    | false =>
      cases hok
      refine ⟨by omega, by omega, hlen, fun j _ hparent hne x y hx hy => ?_⟩
      obtain rfl : j = 2 * pos + 1 := by omega
      cases hright.symm.trans hx
      cases hleft.symm.trans hy
      exact hkeys
  · rename_i hmissing
    cases hok
    refine ⟨by omega, by omega, hinner, fun j _ hparent hne x y hx hy => ?_⟩
    obtain rfl : j = 2 * pos + 2 := by omega
    exact absurd hy (hmissing x y hx)

theorem siftToLeaf_rising {leaf : ℕ} (hok : siftToLeaf fuel heap pos = .ok (heap', leaf))
    (hfuel : heap.length ≤ pos + fuel) (hpos : pos < heap.length) (hbelow : Below start pos)
    (h : SinkingAt Before start heap pos) :
    RisingAt Before start heap' leaf ∧ Below start leaf ∧ leaf < heap'.length := by
  induction fuel generalizing heap pos with
  | zero => exact absurd hpos (by omega)
  | succ fuel ih =>
    unfold siftToLeaf at hok
    split at hok
    · rename_i hleaf
      cases hok
      exact ⟨h.rising hleaf, hbelow, hpos⟩
    · rename_i hinner
      obtain ⟨child, hchild, hok⟩ := bind_eq_ok.mp hok
      obtain ⟨hzero, hparent, hlen, hother⟩ := smallerChild_eq_ok hchild (not_le.mp hinner)
      have hswap := exchanged_swap (getElem?_eq_getElem hpos)
        (getElem?_eq_getElem hlen) (by omega)
      have hsame := (swap_perm heap pos child).length_eq
      exact ih hok (by omega) (by omega) (.child hzero (hparent ▸ hbelow))
        (h.exchange hzero hparent hswap hother)

theorem siftup_from (hok : siftup heap pos = .ok heap') (hpos : pos < heap.length)
    (h : SinkingAt Before pos heap pos) : From Before pos heap' := by
  obtain ⟨⟨heap₁, _⟩, hdown, hup⟩ := bind_eq_ok.mp hok
  obtain ⟨hrising, hbelow, hleaf⟩ := siftToLeaf_rising hdown (by omega) hpos .root h
  exact siftdown_from hup hleaf.le hbelow hrising

/-! ### Heaps -/

theorem heappush_from (hok : heappush heap item = .ok heap') (h : From Before 0 heap) :
    From Before 0 heap' :=
  siftdown_from hok (Nat.le_succ _) (HeapOrder.below_zero _) (h.push item)

theorem heappop_from (hok : heappop heap = .ok (item, heap')) (h : From Before 0 heap) :
    From Before 0 heap' := by
  unfold heappop at hok
  split at hok
  · cases hok
  · cases hok
    exact fun j _ _ x y hx => by cases hx
  · rename_i first next rest
    obtain ⟨heap₁, hsift, hok⟩ := bind_eq_ok.mp hok
    cases hok
    exact siftup_from hsift (Nat.succ_pos _) (h.replaceRoot ( dropLast_prefix _))

theorem heapify_from (hok : heapify heap = .ok heap') : From Before 0 heap' := by
  have hloop : ∀ n (heap : List HeapEntry), n ≤ heap.length → From Before n heap →
      (List.range n).reverse.foldlM siftup heap = .ok heap' → From Before 0 heap' := by
    intro n
    induction n with
    | zero =>
      intro heap _ h hok
      cases hok
      exact h
    | succ n ih =>
      intro heap hle h hok
      rw [range_succ, reverse_append] at hok
      obtain ⟨heap₁, hsift, hrest⟩ := foldlM_cons_eq_ok.mp hok
      have hsame := (siftup_perm hsift).length_eq
      exact ih heap₁ (by omega) (siftup_from hsift hle h.sinking) hrest
  exact hloop _ heap (Nat.div_le_self _ _) (HeapOrder.from_half Before heap) hok

/-- What is popped comes before all members. -/
theorem heappop_before (hok : heappop heap = .ok (item, heap')) (h : From Before 0 heap)
    {b : HeapEntry} (hb : b ∈ heap) : item.Before b := by
  have hhead := (heappop_perm hok).1
  rw [head?_eq_getElem?] at hhead
  exact h.root Before.refl Before.trans hhead hb

open RequestQueue (heapOrder)

variable {items : List HeapEntry}

theorem heapOrder_pairwise (hok : heapOrder fuel heap = .ok items)
    (hfuel : heap.length ≤ fuel) (h : From Before 0 heap) : items.Pairwise Before := by
  induction fuel generalizing heap items with
  | zero =>
    cases hok
    exact .nil
  | succ fuel ih =>
    cases heap with
    | nil =>
      cases hok
      exact .nil
    | cons first rest =>
      obtain ⟨⟨_, heap'⟩, hpop, hok⟩ := bind_eq_ok.mp hok
      obtain ⟨_, horder, hok⟩ := bind_eq_ok.mp hok
      cases hok
      have hperm := (heappop_perm hpop).2
      have hlen := hperm.length_eq
      rw [length_cons] at hlen hfuel
      have hfuel' : heap'.length ≤ fuel := by
        rw [length_cons] at hlen
        omega
      refine .cons (fun b hb => ?_) (ih horder hfuel' (heappop_from hpop h))
      have hmem := (RequestQueue.heapOrder_perm hfuel' horder).mem_iff.mp hb
      exact heappop_before hpop h (hperm.mem_iff.mpr (mem_cons_of_mem _ hmem))

/-- A heap whose members can all be popped has no ties. -/
theorem comparable_of_heapOrder
    (hok : heapOrder heap.length heap = .ok items) (h : From Before 0 heap) :
    Comparable heap := by
  have hpairs : items.Pairwise fun a b => a.requestId ≠ b.requestId →
      a.priority ≠ b.priority ∨ a.arrivalTime ≠ b.arrivalTime := by
    refine (heapOrder_pairwise hok (le_rfl) h).imp fun {a b} hab hid => ?_
    rcases hab with hlt | rfl
    · by_contra hsame
      have heq := not_or.mp hsame
      exact absurd (HeapEntry.key_eq_iff.mpr ⟨not_not.mp heq.1, not_not.mp heq.2⟩) hlt.ne
    · exact absurd rfl hid
  have hsymm : Std.Symm fun a b : HeapEntry => a.requestId ≠ b.requestId →
      a.priority ≠ b.priority ∨ a.arrivalTime ≠ b.arrivalTime :=
    ⟨fun _ _ hab hid => (hab hid.symm).imp Ne.symm Ne.symm⟩
  have hmembers := hpairs.forall_of_forall fun _ _ hid => absurd rfl hid
  have hperm := RequestQueue.heapOrder_perm (le_rfl) hok
  exact fun a ha b hb => hmembers (hperm.mem_iff.mpr ha) (hperm.mem_iff.mpr hb)

/-! ### Without ties -/

theorem heappush_isOk (h : Comparable (item :: heap)) : ∃ heap', heappush heap item = .ok heap' :=
  siftdown_isOk 0 _ (h.of_subset (perm_append_singleton item heap).subset)
    (by rw [length_append, length_singleton]; omega)

theorem heappop_isOk (h : Comparable heap) (hne : heap ≠ []) :
    ∃ item heap', heappop heap = .ok (item, heap') := by
  unfold heappop
  split
  · exact absurd rfl hne
  · exact ⟨_, _, rfl⟩
  · rename_i first next rest
    have hlast : (next :: rest).getLast (cons_ne_nil _ _) ∈ next :: rest :=
      getLast_mem _
    have hsub : (next :: rest).getLast (cons_ne_nil _ _) :: (next :: rest).dropLast ⊆
        first :: next :: rest :=
      cons_subset.mpr ⟨mem_cons_of_mem _ hlast, fun b hb =>
        mem_cons_of_mem _ (dropLast_subset _ hb)⟩
    obtain ⟨heap₁, hsift⟩ := siftup_isOk (h.of_subset hsub) (Nat.succ_pos _)
    exact ⟨_, _, bind_eq_ok.mpr ⟨heap₁, hsift, rfl⟩⟩

theorem heapOrder_isOk (fuel : ℕ) (h : Comparable heap) :
    ∃ items, heapOrder fuel heap = .ok items := by
  induction fuel generalizing heap with
  | zero => exact ⟨[], rfl⟩
  | succ fuel ih =>
    cases heap with
    | nil => exact ⟨[], rfl⟩
    | cons first rest =>
      obtain ⟨item, heap', hpop⟩ := heappop_isOk h (cons_ne_nil _ _)
      have hsub : heap' ⊆ first :: rest := fun b hb =>
        (heappop_perm hpop).2.mem_iff.mpr (mem_cons_of_mem _ hb)
      obtain ⟨items, horder⟩ := ih (h.of_subset hsub)
      exact ⟨item :: items, bind_eq_ok.mpr ⟨_, hpop, bind_eq_ok.mpr ⟨items, horder, rfl⟩⟩⟩

theorem foldlM_heappush_isOk (h : Comparable (items ++ heap)) :
    ∃ heap', items.foldlM heappush heap = .ok heap' := by
  induction items generalizing heap with
  | nil => exact ⟨heap, rfl⟩
  | cons item items ih =>
    have hsub : item :: heap ⊆ item :: items ++ heap := cons_subset.mpr
      ⟨mem_cons_self, fun b hb => mem_cons_of_mem _ (mem_append_right _ hb)⟩
    obtain ⟨heap₁, hpush⟩ := heappush_isOk (h.of_subset hsub)
    have hperm : (items ++ heap₁).Perm (item :: items ++ heap) :=
      ((heappush_perm hpush).append_left items).trans perm_middle
    obtain ⟨heap', hrest⟩ := ih (h.of_subset hperm.subset)
    exact ⟨heap', foldlM_cons_eq_ok.mpr ⟨heap₁, hpush, hrest⟩⟩

theorem foldlM_heappush_from (hok : items.foldlM heappush heap = .ok heap')
    (h : From Before 0 heap) : From Before 0 heap' :=
  foldlM_preserves hok h fun _ _ _ _ h hpush => heappush_from hpush h

/-! ### Runs over queues -/

namespace RequestQueue

variable {κ : Type}

/-- The operations of a queue. The requests to prepend come from another queue. -/
inductive QueueOp (κ : Type) where
  | addRequest (r : Request)
  | prependRequest (r : Request)
  | prependRequests (other : κ)
  | popRequest
  | peekRequest
  | removeRequests (requestIds : List String)
  | iterate

/-- `__iter__`, which leaves the queue alone. -/
def iterate : RequestQueue → Except SchedulerError (List String)
  | fcfs queue => .ok queue
  | priority heap => do return (← heapOrder heap.length heap).map HeapEntry.requestId

/-- The queue after an operation. -/
def QueueOp.run (queues : κ → List HeapEntry) (k : κ) :
    QueueOp κ → Except SchedulerError RequestQueue
  | addRequest r => (priority (queues k)).addRequest r
  | prependRequest r => (priority (queues k)).prependRequest r
  | prependRequests other => (priority (queues k)).prependRequests (priority (queues other))
  | popRequest => do return (← (priority (queues k)).popRequest).2
  | peekRequest => do
    let _ ← (priority (queues k)).peekRequest
    return priority (queues k)
  | removeRequests requestIds => (priority (queues k)).removeRequests requestIds
  | iterate => do
    let _ ← (priority (queues k)).iterate
    return priority (queues k)

/-- An operation on one of the queues that returns, or that finds nothing to return. -/
inductive QueueStep [DecidableEq κ] (queues : κ → List HeapEntry) :
    κ × QueueOp κ → (κ → List HeapEntry) → Prop where
  | returns {k : κ} {op : QueueOp κ} {heap : List HeapEntry}
      (h : op.run queues k = .ok (priority heap)) :
      QueueStep queues (k, op) (update queues k heap)
  | popEmpty {k : κ} (h : queues k = []) : QueueStep queues (k, .popRequest) queues
  | peekEmpty {k : κ} (h : queues k = []) : QueueStep queues (k, .peekRequest) queues

/-- What a sorted collection would do. -/
def Behaves (queues : κ → List HeapEntry) (k : κ) : QueueOp κ → Prop
  | .addRequest r => ∃ heap, (priority (queues k)).addRequest r = .ok (priority heap) ∧
      heap.Perm (r.heapEntry :: queues k)
  | .prependRequest r => ∃ heap, (priority (queues k)).prependRequest r = .ok (priority heap) ∧
      heap.Perm (r.heapEntry :: queues k)
  | .prependRequests other => ∃ heap,
      (priority (queues k)).prependRequests (priority (queues other)) = .ok (priority heap) ∧
        heap.Perm (queues other ++ queues k)
  | .popRequest => queues k ≠ [] → ∃ item heap,
      (priority (queues k)).popRequest = .ok (item.requestId, priority heap) ∧
        (queues k).Perm (item :: heap) ∧ ∀ b ∈ queues k, item.key ≤ b.key
  | .peekRequest => queues k ≠ [] → ∃ item ∈ queues k,
      (priority (queues k)).peekRequest = .ok item.requestId ∧ ∀ b ∈ queues k, item.key ≤ b.key
  | .removeRequests requestIds => ∃ heap,
      (priority (queues k)).removeRequests requestIds = .ok (priority heap) ∧
        heap.Perm ((queues k).filter fun item => item.requestId ∉ requestIds)
  | .iterate => ∃ items : List HeapEntry,
      (priority (queues k)).iterate = .ok (items.map HeapEntry.requestId) ∧
        items.Perm (queues k) ∧ items.Pairwise fun a b => a.key ≤ b.key

/-- The entries that an operation adds. -/
def added (queues : κ → List HeapEntry) : QueueOp κ → List HeapEntry
  | .addRequest r | .prependRequest r => [r.heapEntry]
  | .prependRequests other => queues other
  | _ => []

/-- No request is added to a queue that holds another one with the same keys. -/
def Untied (queues : κ → List HeapEntry) (k : κ) (op : QueueOp κ) : Prop :=
  ∀ a ∈ added queues op, ∀ b ∈ queues k, a.key = b.key → a.requestId = b.requestId

/-- Every operation that adds no tie behaves as on a sorted collection. -/
def SortedCollection (queues : κ → List HeapEntry) : Prop :=
  ∀ k op, Untied queues k op → Behaves queues k op

variable {queues : κ → List HeapEntry} {k : κ} {op : QueueOp κ}

/-- What an operation leaves is a heap. It holds what was added and what was there, or less if
nothing was added. -/
theorem run_eq_ok (hheaps : ∀ k, From Before 0 (queues k))
    (hok : op.run queues k = .ok (priority heap)) :
    From Before 0 heap ∧ (heap.Perm (added queues op ++ queues k) ∨
      added queues op = [] ∧ heap ⊆ queues k) := by
  cases op with
  | addRequest r =>
    obtain ⟨heap', hpush, hok⟩ := bind_eq_ok.mp hok
    obtain rfl := priority.inj (ok.inj hok)
    exact ⟨heappush_from hpush (hheaps k), .inl (heappush_perm hpush)⟩
  | prependRequest r =>
    obtain ⟨heap', hpush, hok⟩ := bind_eq_ok.mp hok
    obtain rfl := priority.inj (ok.inj hok)
    exact ⟨heappush_from hpush (hheaps k), .inl (heappush_perm hpush)⟩
  | prependRequests other =>
    obtain ⟨_, horder, hok⟩ := bind_eq_ok.mp hok
    obtain ⟨heap', hpush, hok⟩ := bind_eq_ok.mp hok
    obtain rfl := priority.inj (ok.inj hok)
    have hperm := heapOrder_perm (le_rfl) horder
    exact ⟨foldlM_heappush_from hpush (hheaps k),
      .inl ((foldlM_heappush_perm hpush).trans (hperm.append_right _))⟩
  | popRequest =>
    obtain ⟨⟨id, _⟩, hpopped, hok⟩ := bind_eq_ok.mp hok
    cases hok
    obtain ⟨⟨_, heap'⟩, hpop, hok⟩ := bind_eq_ok.mp hpopped
    obtain rfl := priority.inj (Prod.mk.inj (ok.inj hok)).2
    exact ⟨heappop_from hpop (hheaps k), .inr ⟨rfl, fun b hb =>
      (heappop_perm hpop).2.mem_iff.mpr (mem_cons_of_mem _ hb)⟩⟩
  | peekRequest =>
    obtain ⟨id, -, hok⟩ := bind_eq_ok.mp hok
    obtain rfl := priority.inj (ok.inj hok)
    exact ⟨hheaps k, .inr ⟨rfl, fun _ hb => hb⟩⟩
  | removeRequests requestIds =>
    obtain ⟨heap', hheapify, hok⟩ := bind_eq_ok.mp hok
    obtain rfl := priority.inj (ok.inj hok)
    exact ⟨heapify_from hheapify, .inr ⟨rfl, fun b hb =>
      mem_of_mem_filter ((heapify_perm hheapify).mem_iff.mp hb)⟩⟩
  | iterate =>
    obtain ⟨_, -, hok⟩ := bind_eq_ok.mp hok
    obtain rfl := priority.inj (ok.inj hok)
    exact ⟨hheaps k, .inr ⟨rfl, fun _ hb => hb⟩⟩

theorem comparable_append {xs ys : List HeapEntry} (hx : Comparable xs) (hy : Comparable ys)
    (h : ∀ a ∈ xs, ∀ b ∈ ys, a.key = b.key → a.requestId = b.requestId) :
    Comparable (xs ++ ys) := by
  have hdiffer : ∀ {a b : HeapEntry}, a.key ≠ b.key →
      a.priority ≠ b.priority ∨ a.arrivalTime ≠ b.arrivalTime := fun hne =>
    not_and_or.mp fun hsame => hne (HeapEntry.key_eq_iff.mpr hsame)
  intro a ha b hb hid
  rcases mem_append.mp ha with ha | ha <;> rcases mem_append.mp hb with hb | hb
  · exact hx a ha b hb hid
  · exact hdiffer fun heq => hid (h a ha b hb heq)
  · exact hdiffer fun heq => hid (h b hb a ha heq.symm).symm
  · exact hy a ha b hb hid

theorem comparable_added (h : ∀ k, Comparable (queues k)) (op : QueueOp κ) :
    Comparable (added queues op) := by
  have hsingle : ∀ e : HeapEntry, Comparable [e] := by
    intro e a ha b hb hid
    exact absurd (by rw [mem_singleton.mp ha, mem_singleton.mp hb]) hid
  cases op with
  | addRequest r => exact hsingle _
  | prependRequest r => exact hsingle _
  | prependRequests other => exact h other
  | popRequest => exact nofun
  | peekRequest => exact nofun
  | removeRequests requestIds => exact nofun
  | iterate => exact nofun

/-- Heaps without ties are sorted collections. -/
theorem sortedCollection_of_comparable (hheaps : ∀ k, From Before 0 (queues k))
    (h : ∀ k, Comparable (queues k)) : SortedCollection queues := by
  intro k op huntied
  -- Those that are added can be compared with those that are there, so that nothing raises.
  have hall := comparable_append (comparable_added h op) (h k) huntied
  cases op with
  | addRequest r =>
    obtain ⟨heap, hpush⟩ := heappush_isOk hall
    exact ⟨heap, bind_eq_ok.mpr ⟨heap, hpush, rfl⟩, heappush_perm hpush⟩
  | prependRequest r =>
    obtain ⟨heap, hpush⟩ := heappush_isOk hall
    exact ⟨heap, bind_eq_ok.mpr ⟨heap, hpush, rfl⟩, heappush_perm hpush⟩
  | prependRequests other =>
    obtain ⟨items, horder⟩ := heapOrder_isOk (queues other).length (h other)
    have hperm := heapOrder_perm (le_rfl) horder
    obtain ⟨heap, hpush⟩ := foldlM_heappush_isOk
      (Comparable.of_subset hall (hperm.append_right (queues k)).subset)
    exact ⟨heap, bind_eq_ok.mpr ⟨items, horder, bind_eq_ok.mpr ⟨heap, hpush, rfl⟩⟩,
      (foldlM_heappush_perm hpush).trans (hperm.append_right _)⟩
  | popRequest =>
    intro hne
    obtain ⟨item, heap, hpop⟩ := heappop_isOk (h k) hne
    exact ⟨item, heap, bind_eq_ok.mpr ⟨_, hpop, rfl⟩, (heappop_perm hpop).2,
      fun b hb => (heappop_before hpop (hheaps k) hb).key_le⟩
  | peekRequest =>
    intro hne
    obtain ⟨first, _, hqueue⟩ := exists_cons_of_ne_nil hne
    have hfirst : (queues k)[0]? = some first := by rw [hqueue, getElem?_cons_zero]
    refine ⟨first, mem_of_getElem? hfirst, ?_, fun b hb =>
      ((hheaps k).root Before.refl Before.trans hfirst hb).key_le⟩
    rw [hqueue]
    rfl
  | removeRequests requestIds =>
    have hleft : Comparable ((queues k).filter fun item => item.requestId ∉ requestIds) :=
      (h k).of_subset filter_sublist.subset
    obtain ⟨heap, hheapify⟩ := heapify_isOk hleft
    exact ⟨heap, bind_eq_ok.mpr ⟨heap, hheapify, rfl⟩, heapify_perm hheapify⟩
  | iterate =>
    obtain ⟨items, horder⟩ := heapOrder_isOk (queues k).length (h k)
    exact ⟨items, bind_eq_ok.mpr ⟨items, horder, rfl⟩, heapOrder_perm (le_rfl) horder,
      (heapOrder_pairwise horder (le_rfl) (hheaps k)).imp HeapEntry.Before.key_le⟩

/-- Iterating over a queue with a tie raises. -/
theorem SortedCollection.comparable (hheaps : ∀ k, From Before 0 (queues k))
    (h : SortedCollection queues) (k : κ) : Comparable (queues k) := by
  obtain ⟨_, hok, -, -⟩ := h k .iterate nofun
  obtain ⟨_, horder, -⟩ := bind_eq_ok.mp hok
  exact comparable_of_heapOrder horder (hheaps k)

section Runs

variable [DecidableEq κ] {queues' : κ → List HeapEntry} {event : κ × QueueOp κ}

section

variable (hstep : QueueStep queues event queues') (hheaps : ∀ k, From Before 0 (queues k))
include hstep hheaps

theorem QueueStep.heaps (k : κ) : From Before 0 (queues' k) := by
  cases hstep with
  | @returns changed op heap hok =>
    by_cases hk : k = changed
    · rw [hk, update_self]
      exact (run_eq_ok hheaps hok).1
    · rw [update_of_ne hk]
      exact hheaps k
  | popEmpty => exact hheaps k
  | peekEmpty => exact hheaps k

/-- Without a tie before the step and without one that it adds, there is none after it. -/
theorem QueueStep.comparable (h : ∀ k, Comparable (queues k))
    (huntied : Untied queues event.1 event.2) (k : κ) : Comparable (queues' k) := by
  cases hstep with
  | @returns changed op heap hok =>
    by_cases hk : k = changed
    · rw [hk, update_self]
      have hall := comparable_append (comparable_added h op) (h changed) huntied
      rcases (run_eq_ok hheaps hok).2 with hperm | ⟨-, hsub⟩
      · exact hall.of_subset hperm.subset
      · exact (h changed).of_subset hsub
    · rw [update_of_ne hk]
      exact h k
  | popEmpty => exact h k
  | peekEmpty => exact h k

/-- A step that adds a tie leaves a queue with a tie. -/
theorem QueueStep.untied (h : ∀ k, Comparable (queues' k)) : Untied queues event.1 event.2 := by
  cases hstep with
  | @returns changed op heap hok =>
    intro a ha b hb hkey
    rcases (run_eq_ok hheaps hok).2 with hperm | ⟨hnone, -⟩
    · have hafter := h changed
      rw [update_self] at hafter
      by_contra hid
      have hsame := HeapEntry.key_eq_iff.mp hkey
      rcases hafter a (hperm.mem_iff.mpr (mem_append_left _ ha)) b
        (hperm.mem_iff.mpr (mem_append_right _ hb)) hid with hne | hne
      · exact hne hsame.1
      · exact hne hsame.2
    · dsimp only at ha
      rw [hnone] at ha
      cases ha
  | popEmpty => exact nofun
  | peekEmpty => exact nofun

end

/-- Empty queues are sorted collections. In a run from them, the queues are sorted collections
throughout if and only if no request is ever added to a queue that holds another one with the same
priority and arrival time. -/
theorem sorted_iff (events : List (κ × QueueOp κ)) (queues : κ → List HeapEntry) :
    SortedCollection (fun _ : κ => []) ∧
    (Execution (fun s e t => QueueStep s e t ∧ Untied s e.1 e.2) (fun _ => []) events queues ↔
      Execution (fun s e t => QueueStep s e t ∧ SortedCollection t) (fun _ => []) events
        queues) := by
  have hstart : ∀ k : κ, From Before 0 ((fun _ => []) k) := fun _ _ _ _ _ _ hx => by cases hx
  refine ⟨sortedCollection_of_comparable hstart fun _ => nofun, ?_, ?_⟩
  · intro run
    have hinv : Execution (fun s e t => QueueStep s e t ∧ SortedCollection t) (fun _ => []) events
        queues ∧ (∀ k, From Before 0 (queues k)) ∧ ∀ k, Comparable (queues k) := by
      induction run with
      | start => exact ⟨.start, hstart, fun _ => nofun⟩
      | extend _ last ih =>
        obtain ⟨hrun, hheaps, hcomparable⟩ := ih
        have hheaps' := last.1.heaps hheaps
        have hcomparable' := last.1.comparable hheaps hcomparable last.2
        exact ⟨hrun.extend ⟨last.1, sortedCollection_of_comparable hheaps' hcomparable'⟩, hheaps',
          hcomparable'⟩
    exact hinv.1
  · intro run
    have hinv : Execution (fun s e t => QueueStep s e t ∧ Untied s e.1 e.2) (fun _ => []) events
        queues ∧ ∀ k, From Before 0 (queues k) := by
      induction run with
      | start => exact ⟨.start, hstart⟩
      | extend _ last ih =>
        obtain ⟨hrun, hheaps⟩ := ih
        have hheaps' := last.1.heaps hheaps
        exact ⟨hrun.extend ⟨last.1, last.1.untied hheaps (last.2.comparable hheaps')⟩, hheaps'⟩
    exact hinv.1

end Runs

/-! ### Children of one request -/

/-- A child of a parallel sampling request. It has the keys of its parent. -/
def sibling (requestId : String) : Request where
  requestId := requestId
  promptTokenIds := [1]
  maxTokens := 16

/-- The second child raises on the way to the first one. -/
theorem siblings_raise :
    ¬ ∀ (events : List (Unit × QueueOp Unit)) (queues : Unit → List HeapEntry),
      Execution QueueStep (fun _ => []) events queues → ∀ k op, Behaves queues k op := by
  intro h
  have hfirst : (QueueOp.addRequest (sibling "0_parent")).run (fun _ : Unit => []) () =
      .ok (priority [(sibling "0_parent").heapEntry]) := rfl
  obtain ⟨heap, hok, -⟩ := h _ _ (.single (.returns hfirst)) () (.addRequest (sibling "1_parent"))
  have hraise : (priority [(sibling "0_parent").heapEntry]).addRequest (sibling "1_parent") =
      .error .typeError := by decide +kernel
  rw [update_self, hraise] at hok
  cases hok

end RequestQueue

end Sched
