import Mosaic.Sched.Request
import Mathlib.Data.List.Perm.Basic
import Mathlib.Data.List.Perm.Subperm

/-!
# Request queues

Waiting requests are kept in arrival order or in a binary heap that is ordered by priority and
arrival time. A heap compares requests themselves when both keys are equal, and requests have no
order, so that raises. Requests are known by their ids.
-/

namespace Sched

open List Fallible

inductive SchedulingPolicy where
  | fcfs
  | priority
  deriving DecidableEq

/-! ### The heap -/

structure HeapEntry where
  priority : ℤ
  arrivalTime : ℚ
  requestId : String
  deriving DecidableEq

/-- The comparison of tuples. Equal keys lead to a comparison of the requests. -/
def HeapEntry.lt (a b : HeapEntry) : Except SchedulerError Bool :=
  if a.priority ≠ b.priority then .ok (a.priority < b.priority)
  else if a.arrivalTime ≠ b.arrivalTime then .ok (a.arrivalTime < b.arrivalTime)
  else if a.requestId = b.requestId then .ok false
  else .error .typeError

/-- Exchange two entries. -/
def swap (heap : List HeapEntry) (i j : ℕ) : List HeapEntry :=
  match heap[i]?, heap[j]? with
  | some a, some b => (heap.set i b).set j a
  | _, _ => heap

/-- Let the entry at `pos` move up while it is smaller than its parent, at most `fuel` times. -/
def siftdown (startPos : ℕ) : ℕ → List HeapEntry → ℕ → Except SchedulerError (List HeapEntry)
  | 0, heap, _ => .ok heap
  | fuel + 1, heap, pos =>
    if pos ≤ startPos then .ok heap
    else
      match heap[pos]?, heap[(pos - 1) / 2]? with
      | some item, some parent => do
        if ← item.lt parent then
          siftdown startPos fuel (swap heap pos ((pos - 1) / 2)) ((pos - 1) / 2)
        else return heap
      | _, _ => .error .indexError

/-- The child of `pos` that is not greater than the other one. -/
def smallerChild (heap : List HeapEntry) (pos : ℕ) : Except SchedulerError ℕ :=
  match heap[2 * pos + 1]?, heap[2 * pos + 2]? with
  | some left, some right => do
    if ← left.lt right then return 2 * pos + 1 else return 2 * pos + 2
  | _, _ => .ok (2 * pos + 1)

/-- Let the entry at `pos` move down to a leaf, along the smaller children. Returns where it
ends. -/
def siftToLeaf : ℕ → List HeapEntry → ℕ → Except SchedulerError (List HeapEntry × ℕ)
  | 0, heap, pos => .ok (heap, pos)
  | fuel + 1, heap, pos =>
    if heap.length ≤ 2 * pos + 1 then .ok (heap, pos)
    else do
      let child ← smallerChild heap pos
      siftToLeaf fuel (swap heap pos child) child

/-- Every position is below the length of the heap, so that many rounds are enough. -/
def siftup (heap : List HeapEntry) (pos : ℕ) : Except SchedulerError (List HeapEntry) := do
  let (heap, leaf) ← siftToLeaf heap.length heap pos
  siftdown pos heap.length heap leaf

def heappush (heap : List HeapEntry) (item : HeapEntry) :
    Except SchedulerError (List HeapEntry) :=
  siftdown 0 (heap.length + 1) (heap ++ [item]) heap.length

/-- The first entry is returned and the last one takes its place. -/
def heappop (heap : List HeapEntry) : Except SchedulerError (HeapEntry × List HeapEntry) :=
  match heap with
  | [] => .error .indexError
  | [item] => .ok (item, [])
  | item :: next :: rest => do
    let lastItem := (next :: rest).getLast (cons_ne_nil _ _)
    let heap ← siftup (lastItem :: (next :: rest).dropLast) 0
    return (item, heap)

/-- Sift every inner node, from the last one to the first. -/
def heapify (heap : List HeapEntry) : Except SchedulerError (List HeapEntry) :=
  (List.range (heap.length / 2)).reverse.foldlM siftup heap

theorem swap_perm (heap : List HeapEntry) (i j : ℕ) : (swap heap i j).Perm heap := by
  unfold swap
  split
  · rename_i a b ha hb
    obtain ⟨hi, rfl⟩ := List.getElem?_eq_some_iff.mp ha
    obtain ⟨hj, rfl⟩ := List.getElem?_eq_some_iff.mp hb
    exact set_set_perm hi hj
  · exact List.Perm.refl _

variable {heap heap' : List HeapEntry}

theorem siftdown_perm {startPos fuel pos : ℕ}
    (hok : siftdown startPos fuel heap pos = .ok heap') : heap'.Perm heap := by
  induction fuel generalizing heap pos with
  | zero =>
    cases hok
    exact List.Perm.refl _
  | succ fuel ih =>
    unfold siftdown at hok
    split at hok
    · cases hok
      exact List.Perm.refl _
    · split at hok
      · obtain ⟨_, -, hok⟩ := bind_eq_ok.mp hok
        split at hok
        · exact (ih hok).trans (swap_perm _ _ _)
        · cases hok
          exact List.Perm.refl _
      · cases hok

theorem siftToLeaf_perm {fuel pos leaf : ℕ}
    (hok : siftToLeaf fuel heap pos = .ok (heap', leaf)) : heap'.Perm heap := by
  induction fuel generalizing heap pos with
  | zero =>
    cases hok
    exact List.Perm.refl _
  | succ fuel ih =>
    unfold siftToLeaf at hok
    split at hok
    · cases hok
      exact List.Perm.refl _
    · obtain ⟨_, -, hok⟩ := bind_eq_ok.mp hok
      exact (ih hok).trans (swap_perm _ _ _)

theorem siftup_perm {pos : ℕ} (hok : siftup heap pos = .ok heap') : heap'.Perm heap := by
  obtain ⟨⟨heap₁, _⟩, hdown, hup⟩ := bind_eq_ok.mp hok
  exact (siftdown_perm hup).trans (siftToLeaf_perm hdown)

theorem heappush_perm {item : HeapEntry}
    (hok : heappush heap item = .ok heap') : heap'.Perm (item :: heap) :=
  (siftdown_perm hok).trans (perm_append_singleton item heap)

theorem heappop_perm {item : HeapEntry} (hok : heappop heap = .ok (item, heap')) :
    heap.head? = some item ∧ heap.Perm (item :: heap') := by
  unfold heappop at hok
  split at hok
  · cases hok
  · cases hok
    exact ⟨rfl, List.Perm.refl _⟩
  · rename_i first next rest
    obtain ⟨heap₁, hsift, hok⟩ := bind_eq_ok.mp hok
    cases hok
    refine ⟨rfl, List.Perm.cons _ ?_⟩
    have hsplit : (next :: rest).dropLast ++ [(next :: rest).getLast (cons_ne_nil _ _)] =
        next :: rest := dropLast_append_getLast _
    calc (next :: rest).Perm ((next :: rest).dropLast ++
          [(next :: rest).getLast (cons_ne_nil _ _)]) := by rw [hsplit]
      _ |>.Perm _ := (perm_append_singleton _ _).trans (siftup_perm hsift).symm

theorem heapify_perm (hok : heapify heap = .ok heap') : heap'.Perm heap := by
  unfold heapify at hok
  generalize (List.range (heap.length / 2)).reverse = positions at hok
  induction positions generalizing heap with
  | nil =>
    cases hok
    exact List.Perm.refl _
  | cons pos rest ih =>
    obtain ⟨heap₁, hsift, hrest⟩ := foldlM_cons_eq_ok.mp hok
    exact (ih hrest).trans (siftup_perm hsift)

/-! ### Heaps that can be rebuilt -/

/-- Different requests differ in priority or arrival time. -/
def Comparable (heap : List HeapEntry) : Prop :=
  ∀ a ∈ heap, ∀ b ∈ heap, a.requestId ≠ b.requestId →
    a.priority ≠ b.priority ∨ a.arrivalTime ≠ b.arrivalTime

section Rebuild

variable {heap heap' : List HeapEntry}

theorem Comparable.of_subset (h : Comparable heap) (sub : heap' ⊆ heap) : Comparable heap' :=
  fun a ha b hb => h a (sub ha) b (sub hb)

theorem Comparable.lt_isOk (h : Comparable heap) {a b : HeapEntry} (ha : a ∈ heap)
    (hb : b ∈ heap) : ∃ smaller, a.lt b = .ok smaller := by
  unfold HeapEntry.lt
  split
  · exact ⟨_, rfl⟩
  · rename_i hpriority
    split
    · exact ⟨_, rfl⟩
    · rename_i harrival
      split
      · exact ⟨_, rfl⟩
      · rename_i hid
        exact absurd (h a ha b hb hid) (not_or.mpr ⟨hpriority, harrival⟩)

variable {pos : ℕ}

theorem siftdown_isOk (startPos fuel : ℕ) (h : Comparable heap)
    (hpos : pos < heap.length) : ∃ heap', siftdown startPos fuel heap pos = .ok heap' := by
  induction fuel generalizing heap pos with
  | zero => exact ⟨heap, rfl⟩
  | succ fuel ih =>
    unfold siftdown
    split
    · exact ⟨heap, rfl⟩
    · have hparent : (pos - 1) / 2 < heap.length := by omega
      rw [getElem?_eq_getElem hpos, getElem?_eq_getElem hparent]
      obtain ⟨smaller, hsmaller⟩ :=
        h.lt_isOk (getElem_mem hpos) (getElem_mem hparent)
      dsimp only
      rw [hsmaller]
      have hperm := swap_perm heap pos ((pos - 1) / 2)
      cases smaller with
      | false => exact ⟨heap, rfl⟩
      | true => exact ih (h.of_subset hperm.subset) (hperm.length_eq ▸ hparent)

theorem smallerChild_isOk (h : Comparable heap) (hpos : 2 * pos + 1 < heap.length) :
    ∃ child, smallerChild heap pos = .ok child ∧ child < heap.length := by
  unfold smallerChild
  split
  · rename_i left right hleft hright
    obtain ⟨hlt, rfl⟩ := List.getElem?_eq_some_iff.mp hleft
    obtain ⟨hlt', rfl⟩ := List.getElem?_eq_some_iff.mp hright
    obtain ⟨smaller, hsmaller⟩ := h.lt_isOk (getElem_mem hlt) (getElem_mem hlt')
    rw [hsmaller]
    cases smaller with
    | false => exact ⟨_, rfl, hlt'⟩
    | true => exact ⟨_, rfl, hlt⟩
  · exact ⟨_, rfl, hpos⟩

theorem siftToLeaf_isOk (fuel : ℕ) (h : Comparable heap) (hpos : pos < heap.length) :
    ∃ heap' leaf, siftToLeaf fuel heap pos = .ok (heap', leaf) ∧ leaf < heap'.length := by
  induction fuel generalizing heap pos with
  | zero => exact ⟨heap, pos, rfl, hpos⟩
  | succ fuel ih =>
    unfold siftToLeaf
    split
    · exact ⟨heap, pos, rfl, hpos⟩
    · rename_i hinner
      obtain ⟨child, hchild, hlt⟩ := smallerChild_isOk h (not_le.mp hinner)
      rw [hchild]
      have hperm := swap_perm heap pos child
      exact ih (h.of_subset hperm.subset) (hperm.length_eq ▸ hlt)

theorem siftup_isOk (h : Comparable heap) (hpos : pos < heap.length) :
    ∃ heap', siftup heap pos = .ok heap' := by
  obtain ⟨heap₁, leaf, hdown, hleaf⟩ := siftToLeaf_isOk heap.length h hpos
  have hcomparable := h.of_subset (siftToLeaf_perm hdown).subset
  obtain ⟨heap', hup⟩ := siftdown_isOk pos heap₁.length hcomparable hleaf
  exact ⟨heap', bind_eq_ok.mpr ⟨(heap₁, leaf), hdown, hup⟩⟩

/-- A heap of which all members can be compared is rebuilt without an exception. -/
theorem heapify_isOk (h : Comparable heap) : ∃ heap', heapify heap = .ok heap' := by
  have hloop : ∃ heap', (List.range (heap.length / 2)).reverse.foldlM siftup heap = .ok heap' ∧
      (∀ pos ∈ [], pos < heap.length) ∧ heap'.Perm heap := by
    refine foldlM_isOk (P := fun rest heap' =>
      (∀ pos ∈ rest, pos < heap.length) ∧ List.Perm heap' heap) ⟨?_, List.Perm.refl _⟩ ?_
    · intro pos hpos
      rw [mem_reverse, mem_range] at hpos
      omega
    · intro pos rest heap₁ ⟨hrest, hperm⟩
      have hlt : pos < heap₁.length := hperm.length_eq ▸ hrest pos mem_cons_self
      obtain ⟨heap₂, hsift⟩ := siftup_isOk (h.of_subset hperm.subset) hlt
      exact ⟨heap₂, hsift, fun p hp => hrest p (mem_cons_of_mem _ hp),
        (siftup_perm hsift).trans hperm⟩
  obtain ⟨heap', hheap', -⟩ := hloop
  exact ⟨heap', hheap'⟩

end Rebuild

/-! ### Queues -/

inductive RequestQueue where
  | fcfs (queue : List String)
  | priority (heap : List HeapEntry)
  deriving DecidableEq

def createRequestQueue : SchedulingPolicy → RequestQueue
  | .fcfs => .fcfs []
  | .priority => .priority []

def Request.heapEntry (r : Request) : HeapEntry := ⟨r.priority, r.arrivalTime, r.requestId⟩

namespace RequestQueue

/-- The members, in the order in which they are stored. -/
def ids : RequestQueue → List String
  | fcfs queue => queue
  | priority heap => heap.map HeapEntry.requestId

def policy : RequestQueue → SchedulingPolicy
  | fcfs _ => .fcfs
  | priority _ => .priority

def addRequest (r : Request) : RequestQueue → Except SchedulerError RequestQueue
  | fcfs queue => .ok (fcfs (queue ++ [r.requestId]))
  | priority heap => do return priority (← heappush heap r.heapEntry)

def popRequest : RequestQueue → Except SchedulerError (String × RequestQueue)
  | fcfs [] => .error .indexError
  | fcfs (id :: queue) => .ok (id, fcfs queue)
  | priority heap => do
    let (item, heap) ← heappop heap
    return (item.requestId, priority heap)

def peekRequest (q : RequestQueue) : Except SchedulerError String :=
  match q.ids with
  | [] => .error .indexError
  | id :: _ => .ok id

/-- A heap has no front to which a request could be prepended. -/
def prependRequest (r : Request) : RequestQueue → Except SchedulerError RequestQueue
  | fcfs queue => .ok (fcfs (r.requestId :: queue))
  | priority heap => do return priority (← heappush heap r.heapEntry)

/-- The entries of a heap in the order of an iteration, which pops them from a copy. -/
def heapOrder : ℕ → List HeapEntry → Except SchedulerError (List HeapEntry)
  | 0, _ => .ok []
  | fuel + 1, heap =>
    match heap with
    | [] => .ok []
    | _ => do
      let (item, heap) ← heappop heap
      return item :: (← heapOrder fuel heap)

/-- Put the requests of another queue of the same kind to the front. -/
def prependRequests : RequestQueue → RequestQueue → Except SchedulerError RequestQueue
  -- the other queue is read from its end, and each of its requests goes to the front
  | fcfs queue, fcfs requests =>
    .ok (fcfs (requests.reverse.foldl (fun queue id => id :: queue) queue))
  | priority heap, priority requests => do
    return priority (← (← heapOrder requests.length requests).foldlM heappush heap)
  | _, _ => .error .typeError

def removeRequests (q : RequestQueue) (requestIds : List String) :
    Except SchedulerError RequestQueue :=
  match q with
  | fcfs queue => .ok (fcfs (queue.filter (· ∉ requestIds)))
  | priority heap => do
    return priority (← heapify (heap.filter fun item => item.requestId ∉ requestIds))

/-! ### What the queues hold -/

theorem ids_createRequestQueue (policy : SchedulingPolicy) :
    (createRequestQueue policy).ids = [] := by
  cases policy <;> rfl

variable {q q' requests : RequestQueue} {r : Request} {id : String}

theorem perm_addRequest (hok : q.addRequest r = .ok q') :
    q'.ids.Perm (r.requestId :: q.ids) ∧ q'.policy = q.policy := by
  cases q with
  | fcfs queue =>
    cases hok
    exact ⟨perm_append_singleton _ _, rfl⟩
  | priority heap =>
    obtain ⟨heap', hpush, hok⟩ := bind_eq_ok.mp hok
    cases hok
    exact ⟨(heappush_perm hpush).map HeapEntry.requestId, rfl⟩

theorem perm_prependRequest (hok : q.prependRequest r = .ok q') :
    q'.ids.Perm (r.requestId :: q.ids) ∧ q'.policy = q.policy := by
  cases q with
  | fcfs queue =>
    cases hok
    exact ⟨List.Perm.refl _, rfl⟩
  | priority heap =>
    obtain ⟨heap', hpush, hok⟩ := bind_eq_ok.mp hok
    cases hok
    exact ⟨(heappush_perm hpush).map HeapEntry.requestId, rfl⟩

/-- What is popped is what was seen at the front. -/
theorem perm_popRequest (hok : q.popRequest = .ok (id, q')) :
    q.peekRequest = .ok id ∧ q.ids.Perm (id :: q'.ids) ∧ q'.policy = q.policy := by
  cases q with
  | fcfs queue =>
    cases queue with
    | nil => cases hok
    | cons first rest =>
      cases hok
      exact ⟨rfl, List.Perm.refl _, rfl⟩
  | priority heap =>
    obtain ⟨⟨_, heap'⟩, hpop, hok⟩ := bind_eq_ok.mp hok
    cases hok
    obtain ⟨hhead, hperm⟩ := heappop_perm hpop
    refine ⟨?_, hperm.map HeapEntry.requestId, rfl⟩
    cases heap with
    | nil => cases hhead
    | cons first rest =>
      cases hhead
      rfl

theorem heapOrder_perm {fuel : ℕ} {heap items : List HeapEntry} (hfuel : heap.length ≤ fuel)
    (hok : heapOrder fuel heap = .ok items) : items.Perm heap := by
  induction fuel generalizing heap items with
  | zero =>
    cases hok
    rw [eq_nil_of_length_eq_zero (Nat.le_zero.mp hfuel)]
  | succ fuel ih =>
    cases heap with
    | nil =>
      cases hok
      exact List.Perm.refl _
    | cons first rest =>
      obtain ⟨⟨item, heap'⟩, hpop, hok⟩ := bind_eq_ok.mp hok
      obtain ⟨_, horder, hok⟩ := bind_eq_ok.mp hok
      cases hok
      obtain ⟨-, hperm⟩ := heappop_perm hpop
      have hlen := hperm.length_eq
      simp only [length_cons] at hlen hfuel
      exact ((ih (by omega) horder).cons item).trans hperm.symm

theorem foldlM_heappush_perm {items heap heap' : List HeapEntry}
    (hok : items.foldlM heappush heap = .ok heap') : heap'.Perm (items ++ heap) := by
  induction items generalizing heap with
  | nil =>
    cases hok
    exact List.Perm.refl _
  | cons item rest ih =>
    obtain ⟨heap₁, hpush, hrest⟩ := foldlM_cons_eq_ok.mp hok
    refine (ih hrest).trans ?_
    exact ((heappush_perm hpush).append_left rest).trans perm_middle

theorem prependRequests_fcfs (queue requests : List String) :
    (fcfs queue).prependRequests (fcfs requests) = .ok (fcfs (requests ++ queue)) := by
  have hfold : ∀ l : List String,
      l.foldl (fun queue id => id :: queue) queue = l.reverse ++ queue := by
    intro l
    induction l generalizing queue with
    | nil => rfl
    | cons id rest ih => simp [ih]
  show Except.ok (fcfs (requests.reverse.foldl (fun queue id => id :: queue) queue)) = _
  rw [hfold, reverse_reverse]

theorem perm_prependRequests (hok : q.prependRequests requests = .ok q') :
    q'.ids.Perm (requests.ids ++ q.ids) ∧ q'.policy = q.policy := by
  cases q with
  | fcfs queue =>
    cases requests with
    | fcfs requests =>
      rw [prependRequests_fcfs] at hok
      cases hok
      exact ⟨List.Perm.refl _, rfl⟩
    | priority requests => cases hok
  | priority heap =>
    cases requests with
    | fcfs requests => cases hok
    | priority requests =>
      obtain ⟨_, horder, hok⟩ := bind_eq_ok.mp hok
      obtain ⟨heap', hpush, hok⟩ := bind_eq_ok.mp hok
      cases hok
      have hperm := (foldlM_heappush_perm hpush).trans
        ((heapOrder_perm le_rfl horder).append_right heap)
      refine ⟨?_, rfl⟩
      simpa [ids] using hperm.map HeapEntry.requestId

theorem perm_removeRequests {requestIds : List String}
    (hok : q.removeRequests requestIds = .ok q') :
    q'.ids.Perm (q.ids.filter (· ∉ requestIds)) ∧ q'.policy = q.policy := by
  cases q with
  | fcfs queue =>
    cases hok
    exact ⟨List.Perm.refl _, rfl⟩
  | priority heap =>
    obtain ⟨heap', hheapify, hok⟩ := bind_eq_ok.mp hok
    cases hok
    refine ⟨?_, rfl⟩
    have hperm := (heapify_perm hheapify).map HeapEntry.requestId
    simpa [ids, filter_map, Function.comp_def] using hperm

end RequestQueue

end Sched
