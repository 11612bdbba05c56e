import Mosaic.Memory.LinkedQueue

/-!
# The free list of the block pool

`FreeKVCacheBlockQueue` threads the free blocks through links of their own. Under every sequence of
its operations it holds the blocks that a plain list would hold, in the same order. The links can be
walked in both directions, because nothing follows the last sentinel and nothing precedes the first.
-/

namespace Kv

open List Linked Option

variable {Block : Type}

/-- The nodes met on the way along a link, up to the first one that has none. -/
def follow (link : Node Block → Option (Node Block)) :
    ℕ → Node Block → Option (List (Node Block))
  | 0, _ => none
  | fuel + 1, curr =>
    match link curr with
    | none => some []
    | some next => (curr :: ·) <$> follow link fuel next

variable [DecidableEq Block]

namespace FreeQueue

/-- Put a block at the back. -/
def append (q : Queue Block) (block : Block) : Except Fault (Queue Block) :=
  match q.prev .tail with
  | none => .error .outOfSync
  | some last =>
    .ok { (q.connect last (.item block)).connect (.item block) .tail with size := q.size + 1 }

/-- The walk from the first block to the last sentinel. -/
def getAllFreeBlocks (q : Queue Block) (fuel : ℕ) : Except Fault (Option (List (Node Block))) :=
  match q.next .head with
  | none => .error .outOfSync
  | some first => .ok (follow q.next fuel first)

/-- The calls that change the queue. -/
inductive Call (Block : Type) where
  | popleft
  | popleftN (n : ℕ)
  | remove (block : Block)
  | append (block : Block)
  | appendN (blocks : List Block)

namespace Call

/-- What the queue answers. An operation without a result returns no blocks. -/
def perform (q : Queue Block) : Call Block → Except Fault (List Block × Queue Block)
  | popleft => return (← q.popleft).map ([·]) id
  | popleftN n => q.popleftN n
  | remove block => return ([], ← q.remove block)
  | append block => return ([], ← FreeQueue.append q block)
  | appendN blocks => return ([], ← q.appendN blocks)

/-- The queue after the call. A call that raises leaves it as it is. -/
def serve (q : Queue Block) (c : Call Block) : Option (List Block) × Queue Block :=
  match c.perform q with
  | .ok (ret, q') => (some ret, q')
  | .error _ => (none, q)

/-- The same call on a plain list, where `none` stands for an exception. -/
def serveList (l : List Block) : Call Block → Option (List Block) × List Block
  | popleft =>
    match l with
    | [] => (none, l)
    | a :: rest => (some [a], rest)
  | popleftN n => if n ≤ l.length then (some (l.take n), l.drop n) else (none, l)
  | remove block => (some [], l.erase block)
  | append block => (some [], l ++ [block])
  | appendN blocks => (some [], l ++ blocks)

/-- Only members are removed, and only blocks are put back that are not there. -/
def Allowed (l : List Block) : Call Block → Prop
  | remove block => block ∈ l
  | append block => block ∉ l
  | appendN blocks => (l ++ blocks).Nodup
  | _ => True

end Call

/-- One call after the other, with the answers. -/
def serveAll {σ ρ : Type} (serve : σ → Call Block → ρ × σ) : List (Call Block) → σ → List ρ × σ
  | [], s => ([], s)
  | c :: calls, s =>
    let (r, s') := serve s c
    let (rs, last) := serveAll serve calls s'
    (r :: rs, last)

/-- Every call is allowed in the list that the calls before it leave. -/
def AllAllowed : List (Call Block) → List Block → Prop
  | [], _ => True
  | c :: calls, l => c.Allowed l ∧ AllAllowed calls (c.serveList l).2

/-! ### The links at the two ends -/

/-- No link leads out of the last sentinel or into the first. -/
structure Ended (q : Queue Block) : Prop where
  next : ∀ a b, q.next a = some b → a ≠ .tail ∧ b ≠ .head
  prev : ∀ b a, q.prev b = some a → a ≠ .tail ∧ b ≠ .head

namespace Ended

variable {q q' : Queue Block}

theorem connect (h : Ended q) {a b : Node Block} (ha : a ≠ .tail) (hb : b ≠ .head) :
    Ended (q.connect a b) where
  next x y hxy := by
    by_cases hx : x = a
    · obtain rfl : b = y := by simpa [Queue.connect, hx] using hxy
      exact ⟨hx ▸ ha, hb⟩
    · exact h.next x y (by simpa [Queue.connect, hx] using hxy)
  prev y x hxy := by
    by_cases hy : y = b
    · obtain rfl : a = x := by simpa [Queue.connect, hy] using hxy
      exact ⟨ha, hy ▸ hb⟩
    · exact h.prev y x (by simpa [Queue.connect, hy] using hxy)

theorem detach (h : Ended q) (a : Node Block) : Ended (q.detach a) where
  next x y hxy := by
    by_cases hx : x = a
    · simp [Queue.detach, hx] at hxy
    · exact h.next x y (by simpa [Queue.detach, hx] using hxy)
  prev y x hxy := by
    by_cases hy : y = a
    · simp [Queue.detach, hy] at hxy
    · exact h.prev y x (by simpa [Queue.detach, hy] using hxy)

omit [DecidableEq Block] in
theorem resize (h : Ended q) (size : ℤ) : Ended { q with size := size } := ⟨h.next, h.prev⟩

/-- Connecting the nodes from one that is not the last sentinel up to the last sentinel. -/
theorem connectAll (h : Ended q) {a : Node Block} (ha : a ≠ .tail) (l : List Block) :
    Ended (Queue.connectAll (a :: (l.map .item ++ [.tail])) q) := by
  induction l generalizing a q with
  | nil => exact h.connect ha (b := .tail) nofun
  | cons b l ih => exact ih (h.connect ha (b := .item b) nofun) (a := .item b) nofun

theorem ofList (l : List Block) : Ended (Queue.ofList l) :=
  connectAll (a := .head) ⟨by simp, by simp⟩ nofun l

theorem popleft {a : Block} (h : Ended q) (hok : q.popleft = .ok (a, q')) : Ended q' := by
  unfold Queue.popleft at hok
  split at hok
  · split at hok
    · cases hok
    · rename_i second hsecond
      cases hok
      exact ((h.connect (a := .head) nofun (h.next _ _ hsecond).2).detach _).resize _
  · split at hok <;> cases hok

theorem popLoop {n : ℕ} {curr last : Option (Node Block)} {ret : List Block} (h : Ended q)
    (hcurr : ∀ node ∈ curr, node ≠ .head) (hok : Queue.popLoop n curr q = .ok (ret, last, q')) :
    Ended q' ∧ ∀ node ∈ last, node ≠ .head := by
  induction n generalizing curr q ret with
  | zero =>
    cases hok
    exact ⟨h, hcurr⟩
  | succ n ih =>
    match curr, hok with
    | some (.item a), hok =>
      obtain ⟨⟨_, _, _⟩, hrest, hok⟩ := Fallible.bind_eq_ok.mp hok
      cases hok
      exact ih (h.detach _) (fun node hnode => (h.next _ _ hnode).2) hrest

theorem popleftN {n : ℕ} {ret : List Block} (h : Ended q) (hok : q.popleftN n = .ok (ret, q')) :
    Ended q' := by
  unfold Queue.popleftN at hok
  split at hok
  · cases hok
    exact h
  · split at hok
    · cases hok
    · obtain ⟨⟨_, _, _⟩, hloop, hok⟩ := Fallible.bind_eq_ok.mp hok
      obtain ⟨hq₁, hcurr⟩ := popLoop (h.resize _) (fun node hnode => (h.next _ _ hnode).2) hloop
      dsimp only at hok
      split at hok
      · cases hok
        exact hq₁.connect (a := .head) nofun (hcurr _ rfl)
      · cases hok
        exact hq₁

theorem remove {a : Block} (h : Ended q) (hok : q.remove a = .ok q') : Ended q' := by
  unfold Queue.remove at hok
  split at hok
  · rename_i p n hp hn
    cases hok
    exact ((h.connect (h.prev _ _ hp).1 (h.next _ _ hn).2).detach _).resize _
  · cases hok

theorem appendN {blocks : List Block} (h : Ended q) (hok : q.appendN blocks = .ok q') :
    Ended q' := by
  unfold Queue.appendN at hok
  split at hok
  · cases hok
    exact h
  · split at hok
    · cases hok
    · rename_i last hlast
      cases hok
      exact (h.resize _).connectAll (h.prev _ _ hlast).1 blocks

end Ended

/-! ### One call -/

variable {q : Queue Block} {l : List Block}

/-- Where something stands before the last sentinel, one block is put back as a list of one. -/
theorem append_eq (h : q.Represents l) (block : Block) : append q block = q.appendN [block] := by
  obtain ⟨last, hlast⟩ := Queue.exists_getLast? l
  have hpath : path l = (Node.head :: l.map .item) ++ [.tail] := rfl
  have hchain := h.chain
  rw [hpath] at hchain
  obtain ⟨-, -, hjoin⟩ := isChain_append.mp hchain
  rw [append, Queue.appendN, if_neg (cons_ne_nil _ _), (hjoin last hlast _ rfl).2]
  rfl

/-- A call answers as the list does, and the queue then holds what the list holds. -/
theorem serve_spec (h : q.Represents l) (hends : Ended q) (c : Call Block) (hc : c.Allowed l) :
    (c.serve q).1 = (c.serveList l).1 ∧ (c.serve q).2.Represents (c.serveList l).2 ∧
      Ended (c.serve q).2 := by
  cases c with
  | popleft =>
    cases l with
    | nil =>
      have hhead : q.next .head = some .tail := (isChain_cons_cons.mp h.chain).1.1
      have hzero : q.size = 0 := h.size
      have hserve : Call.popleft.serve q = (none, q) := by
        simp only [Call.serve, Call.perform, Queue.popleft, hhead, hzero, if_true]
        rfl
      rw [hserve]
      exact ⟨rfl, h, hends⟩
    | cons a rest =>
      obtain ⟨q', hok, hrep⟩ := h.popleft
      simp only [Call.serve, Call.perform, hok]
      exact ⟨rfl, hrep, hends.popleft hok⟩
  | popleftN n =>
    by_cases hn : n ≤ l.length
    · obtain ⟨q', hok, hrep⟩ := h.popleftN hn
      rw [Call.serve, Call.perform, Call.serveList, hok, if_pos hn]
      exact ⟨rfl, hrep, hends.popleftN hok⟩
    · have hfail : q.popleftN n = .error .outOfSync := by
        rw [Queue.popleftN, if_neg (by omega), if_pos (by rw [h.size]; omega)]
      rw [Call.serve, Call.perform, Call.serveList, hfail, if_neg hn]
      exact ⟨rfl, h, hends⟩
  | remove block =>
    obtain ⟨q', hok, hrep⟩ := h.remove hc
    simp only [Call.serve, Call.perform, hok]
    exact ⟨rfl, hrep, hends.remove hok⟩
  | append block =>
    have hnodup : (l ++ [block]).Nodup := by
      rw [← concat_eq_append]
      exact h.nodup.concat hc
    obtain ⟨q', hok, hrep⟩ := h.appendN hnodup
    simp only [Call.serve, Call.perform, append_eq h, hok]
    exact ⟨rfl, hrep, hends.appendN hok⟩
  | appendN blocks =>
    obtain ⟨q', hok, hrep⟩ := h.appendN hc
    simp only [Call.serve, Call.perform, hok]
    exact ⟨rfl, hrep, hends.appendN hok⟩

theorem serveAll_spec (h : q.Represents l) (hends : Ended q) (calls : List (Call Block))
    (hcalls : AllAllowed calls l) :
    (serveAll Call.serve calls q).1 = (serveAll Call.serveList calls l).1 ∧
      (serveAll Call.serve calls q).2.Represents (serveAll Call.serveList calls l).2 ∧
      Ended (serveAll Call.serve calls q).2 := by
  induction calls generalizing q l with
  | nil => exact ⟨rfl, h, hends⟩
  | cons c calls ih =>
    obtain ⟨hret, hrep, hends'⟩ := serve_spec h hends c hcalls.1
    obtain ⟨hrets, hlast⟩ := ih hrep hends' hcalls.2
    exact ⟨congrArg₂ _ hret hrets, hlast⟩

/-! ### The walks -/

section Walks

omit [DecidableEq Block]

theorem exists_first (p : List (Node Block)) (last : Node Block) :
    ∃ first, first ∈ (p ++ [last]).head? := by
  cases p with
  | nil => exact ⟨last, rfl⟩
  | cons a p => exact ⟨a, rfl⟩

variable {link : Node Block → Option (Node Block)}

/-- A walk along a chain of links ends where the chain ends. -/
theorem follow_eq {p : List (Node Block)}
    {first last : Node Block} (hchain : (p ++ [last]).IsChain fun a b => link a = some b)
    (hlast : link last = none) (hfirst : first ∈ (p ++ [last]).head?) {fuel : ℕ}
    (hfuel : p.length < fuel) : follow link fuel first = some p := by
  induction p generalizing first fuel with
  | nil =>
    obtain rfl : last = first := some.inj hfirst
    obtain ⟨n, rfl⟩ := Nat.exists_eq_add_of_lt hfuel
    simp [follow, hlast]
  | cons a p ih =>
    obtain rfl : a = first := some.inj hfirst
    obtain ⟨n, rfl⟩ := Nat.exists_eq_add_of_lt hfuel
    obtain ⟨_, hsecond⟩ := exists_first p last
    rw [cons_append, ← cons_head?_tail hsecond] at hchain
    obtain ⟨hlink, hrest⟩ := isChain_cons_cons.mp hchain
    rw [cons_head?_tail hsecond] at hrest
    rw [follow, hlink]
    dsimp only
    rw [ih hrest hsecond (by rw [length_cons]; omega)]
    rfl

/-- The walk from the node behind a sentinel. -/
theorem bind_follow_eq {p : List (Node Block)}
    {a last : Node Block} (hchain : (a :: (p ++ [last])).IsChain fun a b => link a = some b)
    (hlast : link last = none) {fuel : ℕ} (hfuel : p.length < fuel) :
    (link a).bind (follow link fuel) = some p := by
  obtain ⟨_, hfirst⟩ := exists_first p last
  rw [← cons_head?_tail hfirst] at hchain
  obtain ⟨hlink, hrest⟩ := isChain_cons_cons.mp hchain
  rw [cons_head?_tail hfirst] at hrest
  rw [hlink, bind_some, follow_eq hrest hlast hfirst hfuel]

end Walks

/-- From a list of blocks, every sequence of allowed calls answers as on the plain list. Afterwards
the walk from the front gives the list, the walk from the back its reverse, the counter its length,
and the other blocks have no links. -/
theorem serves_as_list {blocks : List Block} (hblocks : blocks.Nodup) (calls : List (Call Block))
    (hcalls : AllAllowed calls blocks) :
    let (answers, q) := serveAll Call.serve calls (.ofList blocks)
    let (expected, l) := serveAll Call.serveList calls blocks
    answers = expected ∧
      (∀ fuel > l.length, getAllFreeBlocks q fuel = .ok (some (l.map .item))) ∧
      (∀ fuel > l.length, (q.prev .tail).bind (follow q.prev fuel) =
        some (l.reverse.map .item)) ∧
      q.size = l.length ∧ ∀ b ∉ l, q.prev (.item b) = none ∧ q.next (.item b) = none := by
  obtain ⟨hret, hrep, hends⟩ :=
    serveAll_spec (Queue.represents_ofList hblocks) (.ofList blocks) calls hcalls
  dsimp only
  generalize (serveAll Call.serve calls (Queue.ofList blocks)).2 = q at hrep hends ⊢
  generalize (serveAll Call.serveList calls blocks).2 = l at hrep ⊢
  -- The sentinels end the list on both sides.
  have hnext : q.next .tail = none :=
    eq_none_iff_forall_ne_some.mpr fun b hb => (hends.next _ _ hb).1 rfl
  have hprev : q.prev .head = none :=
    eq_none_iff_forall_ne_some.mpr fun a ha => (hends.prev _ _ ha).2 rfl
  refine ⟨hret, fun fuel hfuel => ?_, fun fuel hfuel => ?_, hrep.size, hrep.detached⟩
  · have hwalk := bind_follow_eq (hrep.chain.imp fun _ _ h => h.1) hnext (p := l.map .item)
      (by simpa using hfuel)
    obtain ⟨_, hfirst, hfollow⟩ := bind_eq_some_iff.mp hwalk
    rw [getAllFreeBlocks, hfirst]
    dsimp only
    rw [hfollow]
  · -- The links back are those forth, read from the other end.
    have hback : (Node.tail :: (l.reverse.map Node.item ++ [.head])).IsChain
        fun a b => q.prev a = some b := by
      have hreverse : (path l).reverse = Node.tail :: (l.reverse.map Node.item ++ [.head]) := by
        simp [path]
      rw [← hreverse, isChain_reverse]
      exact hrep.chain.imp fun _ _ h => h.2
    exact bind_follow_eq hback hprev (by simpa using hfuel)

theorem serves_as_list_three :
    [0, 1, 2].Nodup ∧ AllAllowed [.popleftN 3, .popleft, .append 1, .appendN [2, 0], .remove 2]
      [0, 1, 2] ∧
    let (answers, q) := serveAll Call.serve
      [.popleftN 3, .popleft, .append 1, .appendN [2, 0], .remove 2] (.ofList [0, 1, 2])
    answers = [some [0, 1, 2], none, some [], some [], some []] ∧
      getAllFreeBlocks q 3 = .ok (some [.item 1, .item 0]) ∧ q.size = 2 := by
  have hallowed : AllAllowed [.popleftN 3, .popleft, .append 1, .appendN [2, 0], .remove 2]
      [0, 1, 2] := by
    refine ⟨trivial, trivial, ?_, ?_, ?_, trivial⟩
    all_goals simp [Call.Allowed, Call.serveList]
  obtain ⟨hret, hall, -, hsize, -⟩ := serves_as_list (by decide) _ hallowed
  exact ⟨by decide, hallowed, hret, hall 3 (by decide), hsize⟩

end FreeQueue

end Kv
