import Mosaic.Control.Fallible
import Mathlib.Data.List.Chain
import Mathlib.Data.List.Nodup
import Mathlib.Logic.Function.Basic

/-!
# Doubly linked queues

A queue whose elements carry their own links: every element knows its predecessor and its
successor, and two sentinels stand at the ends. An element can be taken from the front, put at
the back, and removed from the middle without a search. The links represent a list, and each
operation on the links is the corresponding operation on that list.
-/

namespace Linked

open List Function

/-- An element, or one of the sentinels at the two ends. -/
inductive Node (α : Type) where
  | head
  | item (a : α)
  | tail
  deriving DecidableEq

/-- The links of all nodes, and the number of elements. -/
structure Queue (α : Type) where
  prev : Node α → Option (Node α)
  next : Node α → Option (Node α)
  size : ℤ

/-- What an operation finds when the links are not those of a queue. -/
inductive Fault where
  | empty
  | outOfSync
  | detached
  deriving DecidableEq, Repr

variable {α : Type}

/-- The nodes from one sentinel to the other. -/
def path (l : List α) : List (Node α) :=
  .head :: (l.map .item ++ [.tail])

theorem nodup_map_item {l : List α} (h : l.Nodup) : (l.map Node.item).Nodup :=
  h.map fun _ _ heq => Node.item.inj heq

theorem nodup_path {l : List α} (h : l.Nodup) : (path l).Nodup := by
  simp [path, nodup_append, nodup_map_item h]

namespace Queue

variable [DecidableEq α]

/-- Set both links between two nodes. -/
def connect (q : Queue α) (a b : Node α) : Queue α :=
  { q with
    next := update q.next a (some b)
    prev := update q.prev b (some a) }

/-- Take the links of a node away. -/
def detach (q : Queue α) (a : Node α) : Queue α :=
  { q with
    next := update q.next a none
    prev := update q.prev a none }

/-- Connect each node with the one after it. -/
def connectAll : List (Node α) → Queue α → Queue α
  | a :: b :: rest, q => connectAll (b :: rest) (q.connect a b)
  | _, q => q

/-- The queue that holds the elements of a list. -/
def ofList (l : List α) : Queue α :=
  connectAll (path l) ⟨fun _ => none, fun _ => none, l.length⟩

/-- Take the first element. -/
def popleft (q : Queue α) : Except Fault (α × Queue α) :=
  match q.next .head with
  | some (.item a) =>
    match q.next (.item a) with
    | none => .error .detached
    | some second => .ok (a, { (q.connect .head second).detach (.item a) with size := q.size - 1 })
  | _ => if q.size = 0 then .error .empty else .error .outOfSync

/-- Walk over `n` elements and take their links away. A sentinel among them means that the size
is wrong. -/
def popLoop : ℕ → Option (Node α) → Queue α → Except Fault (List α × Option (Node α) × Queue α)
  | 0, curr, q => .ok ([], curr, q)
  | n + 1, some (.item a), q => do
    let (rest, last, q') ← popLoop n (q.next (.item a)) (q.detach (.item a))
    return (a :: rest, last, q')
  | _ + 1, _, _ => .error .outOfSync

/-- Take the first `n` elements. -/
def popleftN (q : Queue α) (n : ℕ) : Except Fault (List α × Queue α) :=
  if n = 0 then .ok ([], q)
  else if q.size < n then .error .outOfSync
  else do
    let (ret, curr, q') ← popLoop n (q.next .head) { q with size := q.size - n }
    match curr with
    | some node => return (ret, q'.connect .head node)
    | none => return (ret, q')

/-- Remove an element from the middle. -/
def remove (q : Queue α) (a : α) : Except Fault (Queue α) :=
  match q.prev (.item a), q.next (.item a) with
  | some p, some n => .ok { (q.connect p n).detach (.item a) with size := q.size - 1 }
  | _, _ => .error .detached

/-- Put elements at the back. -/
def appendN (q : Queue α) (l : List α) : Except Fault (Queue α) :=
  if l = [] then .ok q
  else
    match q.prev .tail with
    | none => .error .outOfSync
    | some last =>
      .ok (connectAll (last :: (l.map .item ++ [.tail])) { q with size := q.size + l.length })

/-! ### Links -/

/-- The two nodes are linked with each other. -/
def Link (q : Queue α) (a b : Node α) : Prop :=
  q.next a = some b ∧ q.prev b = some a

omit [DecidableEq α] in
/-- A chain depends only on the links between its nodes. -/
theorem isChain_congr {q q' : Queue α} {p : List (Node α)} (h : p.IsChain q.Link)
    (hnext : ∀ a ∈ p.dropLast, q'.next a = q.next a)
    (hprev : ∀ b ∈ p.tail, q'.prev b = q.prev b) : p.IsChain q'.Link := by
  induction p with
  | nil => exact .nil
  | cons a p ih =>
    cases p with
    | nil => exact .singleton a
    | cons b rest =>
      obtain ⟨hlink, hrest⟩ := isChain_cons_cons.mp h
      refine isChain_cons_cons.mpr ⟨⟨?_, ?_⟩, ih hrest ?_ ?_⟩
      · rw [hnext a (by simp), hlink.1]
      · rw [hprev b (by simp), hlink.2]
      · intro c hc
        exact hnext c (by simp [hc])
      · intro c hc
        exact hprev c (mem_cons_of_mem b hc)

section

variable (p : List (Node α)) (q : Queue α)
include p q

theorem connectAll_next {a : Node α} (h : a ∉ p.dropLast) : (connectAll p q).next a = q.next a := by
  induction p generalizing q with
  | nil => rfl
  | cons b p ih =>
    cases p with
    | nil => rfl
    | cons c rest =>
      simp only [dropLast_cons_cons, mem_cons, not_or] at h
      rw [connectAll, ih _ h.2]
      exact update_of_ne h.1 _ _

theorem connectAll_prev {b : Node α} (h : b ∉ p.tail) : (connectAll p q).prev b = q.prev b := by
  induction p generalizing q with
  | nil => rfl
  | cons a p ih =>
    cases p with
    | nil => rfl
    | cons c rest =>
      simp only [tail_cons, mem_cons, not_or] at h
      rw [connectAll, ih _ h.2]
      exact update_of_ne h.1 _ _

@[simp] theorem connectAll_size : (connectAll p q).size = q.size := by
  induction p generalizing q with
  | nil => rfl
  | cons a p ih =>
    cases p with
    | nil => rfl
    | cons b rest => exact ih _

end

theorem isChain_connectAll {p : List (Node α)} (h : p.Nodup) (q : Queue α) :
    p.IsChain (connectAll p q).Link := by
  induction p generalizing q with
  | nil => exact .nil
  | cons a p ih =>
    cases p with
    | nil => exact .singleton a
    | cons b rest =>
      obtain ⟨ha, hrest⟩ := nodup_cons.mp h
      refine isChain_cons_cons.mpr ⟨⟨?_, ?_⟩, ih hrest _⟩
      · rw [connectAll, connectAll_next _ _ fun hmem => ha (dropLast_subset _ hmem)]
        exact update_self a _ _
      · rw [connectAll, connectAll_prev _ _ (nodup_cons.mp hrest).1]
        exact update_self b _ _

/-! ### Representation -/

/-- The links are those of the list, and nothing else is linked. -/
structure Represents (q : Queue α) (l : List α) : Prop where
  nodup : l.Nodup
  chain : (path l).IsChain q.Link
  detached : ∀ a ∉ l, q.prev (.item a) = none ∧ q.next (.item a) = none
  size : q.size = l.length

variable {l : List α}

theorem represents_ofList (h : l.Nodup) : (ofList l).Represents l where
  nodup := h
  chain := isChain_connectAll (nodup_path h) _
  detached := by
    intro a ha
    have hpath : Node.item a ∉ path l := by simpa [path] using ha
    unfold ofList
    rw [connectAll_prev _ _ fun hmem => hpath (mem_of_mem_tail hmem),
      connectAll_next _ _ fun hmem => hpath (dropLast_subset _ hmem)]
    exact ⟨rfl, rfl⟩
  size := by simp [ofList]

/-- Cutting a segment out of the list: the nodes around it are connected, and its own nodes are
detached. -/
theorem Represents.cut {q q' : Queue α} {l₁ s l₂ : List α} {p n : Node α}
    (h : q.Represents (l₁ ++ s ++ l₂))
    (hp : p ∈ (Node.head :: l₁.map .item).getLast?)
    (hn : n ∈ (l₂.map Node.item ++ [Node.tail]).head?)
    (hnext : ∀ x, q'.next x =
      if x = p then some n else if x ∈ s.map Node.item then none else q.next x)
    (hprev : ∀ x, q'.prev x =
      if x = n then some p else if x ∈ s.map Node.item then none else q.prev x)
    (hsize : q'.size = q.size - s.length) : q'.Represents (l₁ ++ l₂) := by
  have hpath : path (l₁ ++ s ++ l₂) =
      (Node.head :: l₁.map .item) ++ s.map .item ++ (l₂.map .item ++ [.tail]) := by
    simp [path]
  have hnodup := nodup_path h.nodup
  have hchain := h.chain
  rw [hpath] at hnodup hchain
  obtain ⟨hfront, hB, hapart⟩ := nodup_append.mp hnodup
  obtain ⟨hA, -, hsA⟩ := nodup_append.mp hfront
  have hpA : p ∈ Node.head :: l₁.map .item := mem_of_mem_getLast? hp
  have hnB : n ∈ l₂.map Node.item ++ [Node.tail] := mem_of_mem_head? hn
  obtain ⟨hchainFront, hchainB, -⟩ := isChain_append.mp hchain
  obtain ⟨hchainA, -, -⟩ := isChain_append.mp hchainFront
  refine ⟨?_, ?_, ?_, ?_⟩
  · exact h.nodup.sublist ((sublist_append_left l₁ s).append_right l₂)
  · -- both sides keep their links, and the new link joins them
    have hjoin : path (l₁ ++ l₂) = (Node.head :: l₁.map .item) ++ (l₂.map .item ++ [.tail]) := by
      simp [path]
    rw [hjoin, isChain_append]
    refine ⟨isChain_congr hchainA ?_ ?_, isChain_congr hchainB ?_ ?_, ?_⟩
    · intro a ha
      have hpa : a ≠ p := by
        rintro rfl
        rw [← dropLast_append_getLast? _ hp, nodup_append] at hA
        exact hA.2.2 a ha a (mem_singleton_self a) rfl
      have hsa : a ∉ s.map Node.item :=
        fun hmem => hsA a (dropLast_subset _ ha) a hmem rfl
      rw [hnext, if_neg hpa, if_neg hsa]
    · intro b hb
      have hbA := mem_of_mem_tail hb
      have hnb : b ≠ n := fun heq => hapart b (mem_append_left _ hbA) n hnB heq
      have hsb : b ∉ s.map Node.item := fun hmem => hsA b hbA b hmem rfl
      rw [hprev, if_neg hnb, if_neg hsb]
    · intro a ha
      have haB := dropLast_subset _ ha
      have hpa : a ≠ p := fun heq => hapart p (mem_append_left _ hpA) a haB heq.symm
      have hsa : a ∉ s.map Node.item :=
        fun hmem => hapart a (mem_append_right _ hmem) a haB rfl
      rw [hnext, if_neg hpa, if_neg hsa]
    · intro b hb
      have hbB := mem_of_mem_tail hb
      have hnb : b ≠ n := by
        rintro rfl
        rw [← cons_head?_tail hn] at hB
        exact (nodup_cons.mp hB).1 hb
      have hsb : b ∉ s.map Node.item :=
        fun hmem => hapart b (mem_append_right _ hmem) b hbB rfl
      rw [hprev, if_neg hnb, if_neg hsb]
    · intro x hx y hy
      obtain rfl : p = x := Option.some.inj (hp.symm.trans hx)
      obtain rfl : n = y := Option.some.inj (hn.symm.trans hy)
      exact ⟨by rw [hnext, if_pos rfl], by rw [hprev, if_pos rfl]⟩
  · intro a ha
    have hap : Node.item a ≠ p := by
      rintro rfl
      exact ha (mem_append_left _ (by simpa using hpA))
    have han : Node.item a ≠ n := by
      rintro rfl
      exact ha (mem_append_right _ (by simpa using hnB))
    rw [hnext, hprev, if_neg hap, if_neg han]
    split
    · exact ⟨rfl, rfl⟩
    · rename_i hs
      have hall : a ∉ l₁ ++ s ++ l₂ := by
        simp only [mem_map, Node.item.injEq, exists_eq_right] at hs
        simp only [mem_append, not_or] at ha ⊢
        exact ⟨⟨ha.1, hs⟩, ha.2⟩
      exact h.detached a hall
  · rw [hsize, h.size]
    simp only [length_append]
    omega

omit [DecidableEq α] in
/-- The node before an element, or the first sentinel. -/
theorem exists_getLast? (l : List α) : ∃ p, p ∈ (Node.head :: l.map .item).getLast? :=
  ⟨_, getLast?_eq_getLast_of_ne_nil (cons_ne_nil _ _)⟩

omit [DecidableEq α] in
/-- The node behind an element, or the last sentinel. -/
theorem exists_head? (l : List α) : ∃ n, n ∈ (l.map Node.item ++ [Node.tail]).head? := by
  cases l with
  | nil => exact ⟨.tail, rfl⟩
  | cons a l => exact ⟨.item a, rfl⟩

variable {q : Queue α} {a : α}

omit [DecidableEq α] in
/-- The links of an element. -/
theorem Represents.links {l₁ l₂ : List α} {p n : Node α}
    (h : q.Represents (l₁ ++ a :: l₂)) (hp : p ∈ (Node.head :: l₁.map .item).getLast?)
    (hn : n ∈ (l₂.map Node.item ++ [Node.tail]).head?) :
    q.Link p (.item a) ∧ q.Link (.item a) n := by
  have hpath : path (l₁ ++ a :: l₂) =
      (Node.head :: l₁.map .item) ++ (Node.item a :: (l₂.map .item ++ [.tail])) := by
    simp [path]
  have hchain := h.chain
  rw [hpath] at hchain
  obtain ⟨-, hright, hjoin⟩ := isChain_append.mp hchain
  refine ⟨hjoin p hp _ rfl, ?_⟩
  rw [← cons_head?_tail hn] at hright
  exact (isChain_cons_cons.mp hright).1

theorem Represents.remove (h : q.Represents l) (ha : a ∈ l) :
    ∃ q', q.remove a = .ok q' ∧ q'.Represents (l.erase a) := by
  obtain ⟨l₁, l₂, hnot, rfl, herase⟩ := exists_erase_eq ha
  obtain ⟨p, hp⟩ := exists_getLast? l₁
  obtain ⟨n, hn⟩ := exists_head? l₂
  obtain ⟨hbefore, hbehind⟩ := h.links hp hn
  refine ⟨{ (q.connect p n).detach (.item a) with size := q.size - 1 }, ?_, ?_⟩
  · unfold Queue.remove
    rw [hbefore.2, hbehind.1]
  · rw [herase]
    have hsegment : q.Represents (l₁ ++ [a] ++ l₂) := by simpa using h
    have hpa : p ≠ .item a := by
      rintro rfl
      exact hnot (by simpa using mem_of_mem_getLast? hp)
    have hna : n ≠ .item a := by
      rintro rfl
      have hmem : a ∈ l₂ := by simpa using mem_of_mem_head? hn
      exact (nodup_cons.mp (nodup_append.mp h.nodup).2.1).1 hmem
    refine hsegment.cut hp hn ?_ ?_ rfl
    · intro x
      by_cases hx : x = .item a
      · simp [detach, hx, hpa.symm]
      · simp [detach, connect, update_apply, hx]
    · intro x
      by_cases hx : x = .item a
      · simp [detach, hx, hna.symm]
      · simp [detach, connect, update_apply, hx]

theorem Represents.popleft (h : q.Represents (a :: l)) :
    ∃ q', q.popleft = .ok (a, q') ∧ q'.Represents l := by
  have hhead : Node.head ∈ (Node.head :: ([] : List α).map .item).getLast? := rfl
  obtain ⟨_, hn⟩ := exists_head? l
  have hfirst : q.Represents ([] ++ a :: l) := h
  obtain ⟨hbefore, hbehind⟩ := hfirst.links hhead hn
  obtain ⟨q', hq', hrep⟩ := h.remove mem_cons_self
  rw [erase_cons_head] at hrep
  refine ⟨q', ?_, hrep⟩
  unfold Queue.remove at hq'
  rw [hbefore.2, hbehind.1] at hq'
  unfold Queue.popleft
  rw [hbefore.1]
  dsimp only
  rw [hbehind.1]
  exact congrArg (Except.map (a, ·)) hq'

/-- The walk over a segment. -/
theorem popLoop_eq {s l₂ : List α} {curr n : Node α}
    (hcurr : curr ∈ ((s ++ l₂).map Node.item ++ [Node.tail]).head?)
    (hn : n ∈ (l₂.map Node.item ++ [Node.tail]).head?)
    (hnodup : (s ++ l₂).Nodup)
    (hchain : ((s ++ l₂).map Node.item ++ [Node.tail]).IsChain q.Link) :
    ∃ q', popLoop s.length (some curr) q = .ok (s, some n, q') ∧ q'.size = q.size ∧
      (∀ x, q'.next x = if x ∈ s.map Node.item then none else q.next x) ∧
      (∀ x, q'.prev x = if x ∈ s.map Node.item then none else q.prev x) := by
  -- A round detaches the first block. The links between the others do not change.
  induction s generalizing q curr with
  | nil =>
    obtain rfl : n = curr := Option.some.inj (hn.symm.trans hcurr)
    exact ⟨q, rfl, rfl, by simp, by simp⟩
  | cons a s ih =>
    obtain rfl : Node.item a = curr := Option.some.inj hcurr
    obtain ⟨second, hsecond⟩ := exists_head? (s ++ l₂)
    obtain ⟨hfirst, hnodup'⟩ := nodup_cons.mp hnodup
    simp only [cons_append, map_cons] at hchain
    have hlink : q.Link (.item a) second := by
      rw [← cons_head?_tail hsecond] at hchain
      exact (isChain_cons_cons.mp hchain).1
    have hne : ∀ x ∈ (s ++ l₂).map Node.item ++ [Node.tail], x ≠ Node.item a := by
      rintro x hx rfl
      exact hfirst (by simpa using hx)
    have hrest : ((s ++ l₂).map Node.item ++ [Node.tail]).IsChain (q.detach (.item a)).Link := by
      refine isChain_congr hchain.tail ?_ ?_
      · intro x hx
        exact update_of_ne (hne x (dropLast_subset _ hx)) _ _
      · intro x hx
        exact update_of_ne (hne x (mem_of_mem_tail hx)) _ _
    obtain ⟨q', hloop, hsize, hnext, hprev⟩ := ih hsecond hnodup' hrest
    refine ⟨q', ?_, hsize, ?_, ?_⟩
    · simp only [length_cons, popLoop, hlink.1, hloop, bind, Except.bind, pure, Except.pure]
    · intro x
      rw [hnext]
      by_cases hx : x = .item a
      · simp [hx, detach]
      · simp [hx, detach]
    · intro x
      rw [hprev]
      by_cases hx : x = .item a
      · simp [hx, detach]
      · simp [hx, detach]

theorem Represents.popleftN (h : q.Represents l) {n : ℕ} (hn : n ≤ l.length) :
    ∃ q', q.popleftN n = .ok (l.take n, q') ∧ q'.Represents (l.drop n) := by
  unfold Queue.popleftN
  split
  · rename_i hzero
    subst hzero
    exact ⟨q, rfl, h⟩
  · have henough : ¬ q.size < n := by
      rw [h.size]
      omega
    rw [if_neg henough]
    obtain ⟨first, hfirst⟩ := exists_head? l
    obtain ⟨node, hnode⟩ := exists_head? (l.drop n)
    have hlink : q.Link .head first := by
      have hchain := h.chain
      rw [path, ← cons_head?_tail hfirst] at hchain
      exact (isChain_cons_cons.mp hchain).1
    have hl : l.take n ++ l.drop n = l := take_append_drop n l
    have hrest : ((l.take n ++ l.drop n).map Node.item ++ [Node.tail]).IsChain
        (Link { q with size := q.size - n }) := by
      rw [hl]
      exact isChain_congr h.chain.tail (fun _ _ => rfl) fun _ _ => rfl
    obtain ⟨q', hloop, hsize, hnext, hprev⟩ :=
      popLoop_eq (hl.symm ▸ hfirst) hnode (hl.symm ▸ h.nodup) hrest
    rw [length_take_of_le hn] at hloop
    refine ⟨q'.connect .head node, ?_, ?_⟩
    · simp only [hlink.1, hloop, bind, Except.bind, pure, Except.pure]
    · have hsegment : q.Represents ([] ++ l.take n ++ l.drop n) := by simpa using h
      have hhead : Node.head ∈ (Node.head :: ([] : List α).map .item).getLast? := rfl
      refine hsegment.cut hhead hnode ?_ ?_ ?_
      · intro x
        simp only [connect, update_apply, hnext]
      · intro x
        simp only [connect, update_apply, hprev]
      · simp [connect, hsize, length_take_of_le hn]

theorem Represents.appendN {l l' : List α} (h : q.Represents l)
    (hnodup : (l ++ l').Nodup) : ∃ q', q.appendN l' = .ok q' ∧ q'.Represents (l ++ l') := by
  unfold Queue.appendN
  split
  · rename_i hnil
    subst hnil
    exact ⟨q, rfl, by simpa using h⟩
  · obtain ⟨last, hlast⟩ := exists_getLast? l
    have hpath : path l = (Node.head :: l.map .item) ++ [.tail] := rfl
    have hchain := h.chain
    rw [hpath] at hchain
    obtain ⟨hfront, -, hjoin⟩ := isChain_append.mp hchain
    rw [(hjoin last hlast _ rfl).2]
    refine ⟨_, rfl, ?_⟩
    have hnodup' := nodup_path hnodup
    -- the new links start at the old last node
    have hsplit : path (l ++ l') =
        (Node.head :: l.map .item).dropLast ++ (last :: (l'.map .item ++ [.tail])) := by
      rw [append_cons, dropLast_append_getLast? _ hlast]
      simp [path]
    rw [hsplit] at hnodup'
    obtain ⟨-, hback, hapart⟩ := nodup_append.mp hnodup'
    refine ⟨hnodup, ?_, ?_, ?_⟩
    · rw [hsplit, isChain_append]
      rw [← dropLast_append_getLast? _ hlast, isChain_append] at hfront
      have hfrontNext : ∀ x ∈ (Node.head :: l.map .item).dropLast, ∀ q : Queue α,
          (connectAll (last :: (l'.map .item ++ [.tail])) q).next x = q.next x := by
        intro x hx q
        exact connectAll_next _ _ fun hmem => hapart x hx x (dropLast_subset _ hmem) rfl
      refine ⟨isChain_congr hfront.1 ?_ ?_, isChain_connectAll hback _, ?_⟩
      · intro x hx
        exact hfrontNext x (dropLast_subset _ hx) _
      · intro x hx
        have hx' := mem_of_mem_tail hx
        exact connectAll_prev _ _ fun hmem => hapart x hx' x (mem_of_mem_tail hmem) rfl
      · intro x hx y hy
        obtain rfl : last = y := Option.some.inj hy
        obtain ⟨hnext, hprev⟩ := hfront.2.2 x hx last rfl
        refine ⟨?_, ?_⟩
        · rw [hfrontNext x (mem_of_mem_getLast? hx)]
          exact hnext
        · rw [connectAll_prev _ _ (nodup_cons.mp hback).1]
          exact hprev
    · intro a ha
      have hback : Node.item a ∉ last :: (l'.map .item ++ [.tail]) := by
        intro hmem
        have hpath : Node.item a ∈ path (l ++ l') := by
          rw [hsplit]
          exact mem_append_right _ hmem
        exact ha (by simpa [path] using hpath)
      rw [connectAll_prev _ _ fun hmem => hback (mem_of_mem_tail hmem),
        connectAll_next _ _ fun hmem => hback (dropLast_subset _ hmem)]
      exact h.detached a fun hmem => ha (mem_append_left _ hmem)
    · simp [h.size]

end Queue

end Linked
