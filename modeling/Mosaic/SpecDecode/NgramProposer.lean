import Mosaic.Control.Loop
import Mosaic.Text.Borders
import Mathlib.Data.List.Range
import Mathlib.Data.Int.Order.Basic

/-!
# Draft tokens from the context

The proposer takes the last tokens of the context as a pattern, looks for them earlier in the
context and proposes the tokens that followed them there. It tries long patterns first. The search
reads the context once, with a table of the borders of the pattern.

The loops are followed for a number of rounds, and reading an array outside of its bounds is an
error.
-/

namespace SpecDecode

open List Borders

inductive NgramError where
  | indexError
  | assertionError
  deriving DecidableEq, Repr

section Model

variable {α : Type} [DecidableEq α]

/-! ### The search -/

structure LpsState where
  i : ℕ
  prevLps : ℕ
  lps : List ℕ

def lpsBody (pattern : List α) (s : LpsState) : LpsState ⊕ Except NgramError (List ℕ) :=
  if s.i < pattern.length then
    match pattern[s.i]?, pattern[s.prevLps]? with
    | some a, some b =>
      if a = b then
        .inl ⟨s.i + 1, s.prevLps + 1, s.lps.set s.i (s.prevLps + 1)⟩
      else if s.prevLps ≠ 0 then
        match s.lps[s.prevLps - 1]? with
        | some prevLps => .inl { s with prevLps }
        | none => .inr (.error .indexError)
      else
        .inl { s with i := s.i + 1, lps := s.lps.set s.i 0 }
    | _, _ => .inr (.error .indexError)
  else .inr (.ok s.lps)

/-- The longest proper prefixes of the pattern that are also suffixes. -/
def kmpLpsArray (pattern : List α) (rounds : ℕ) : Option (Except NgramError (List ℕ)) :=
  Loop.run (lpsBody pattern) rounds ⟨1, 0, List.replicate pattern.length 0⟩

structure SearchState where
  i : ℕ
  j : ℕ

def searchBody (contextTokenIds pattern : List α) (lps : List ℕ) (n k : ℕ) (s : SearchState) :
    SearchState ⊕ Except NgramError (Option (List α)) :=
  if (s.i : ℤ) < (contextTokenIds.length : ℤ) - n then
    match contextTokenIds[s.i]?, pattern[s.j]? with
    | some a, some b =>
      if a = b then
        if s.j + 1 = n then
          .inr (.ok (some ((contextTokenIds.drop (s.i + 1)).take k)))
        else .inl ⟨s.i + 1, s.j + 1⟩
      else if s.j ≠ 0 then
        match lps[s.j - 1]? with
        | some j => .inl { s with j }
        | none => .inr (.error .indexError)
      else .inl { s with i := s.i + 1 }
    | _, _ => .inr (.error .indexError)
  else .inr (.ok none)

/-- The last `n` tokens, or all if there are not so many. -/
def lastTokens (contextTokenIds : List α) (n : ℕ) : List α :=
  contextTokenIds.drop (contextTokenIds.length - n)

def findSubarrayKmp (contextTokenIds : List α) (n k rounds : ℕ) :
    Option (Except NgramError (Option (List α))) :=
  if n = 0 then some (.error .assertionError)
  else
    let pattern := lastTokens contextTokenIds n
    match kmpLpsArray pattern rounds with
    | none => none
    | some (.error e) => some (.error e)
    | some (.ok lps) =>
      Loop.run (searchBody contextTokenIds pattern lps n k) rounds ⟨0, 0⟩

/-! ### The proposer -/

structure NgramProposer where
  minN : ℕ
  maxN : ℕ
  k : ℤ
  maxModelLen : ℤ

/-- The patterns are tried one after the other. -/
def proposeLoop (contextTokenIds : List α) (k rounds : ℕ) :
    List ℕ → Option (Except NgramError (Option (List α)))
  | [] => some (.ok none)
  | n :: rest =>
    match findSubarrayKmp contextTokenIds n k rounds with
    | none => none
    | some (.error e) => some (.error e)
    | some (.ok (some result)) => some (.ok (some result))
    | some (.ok none) => proposeLoop contextTokenIds k rounds rest

/-- The numbers from `maxN` down to `minN`. -/
def NgramProposer.lengths (p : NgramProposer) : List ℕ :=
  (List.range' p.minN (p.maxN + 1 - p.minN)).reverse

/-- How many tokens may be proposed. -/
def NgramProposer.bound (p : NgramProposer) (contextTokenIds : List α) : ℤ :=
  min p.k (p.maxModelLen - contextTokenIds.length)

def NgramProposer.propose (p : NgramProposer) (contextTokenIds : List α) (rounds : ℕ) :
    Option (Except NgramError (Option (List α))) :=
  if p.bound contextTokenIds ≤ 0 then some (.ok none)
  else proposeLoop contextTokenIds (p.bound contextTokenIds).toNat rounds p.lengths

end Model

/-! ### The table -/

section Table

variable {α : Type} {pattern : List α}

/-- What holds in each round while the table is made. -/
structure LpsOk (pattern : List α) (s : LpsState) : Prop where
  pos : 0 < s.i
  below : s.prevLps < s.i
  length : s.lps.length = pattern.length
  table : pattern = [] ∨ s.i ≤ pattern.length ∧ IsTable pattern s.i s.lps
  trial : ∀ x, pattern[s.i]? = some x → Trial pattern (pattern.take s.i).tail x s.prevLps

/-- The part of the pattern that is read after one more symbol. -/
theorem tail_take_succ {x : α} {i : ℕ} (hi : 0 < i) (hx : pattern[i]? = some x) :
    (pattern.take (i + 1)).tail = (pattern.take i).tail ++ [x] := by
  obtain ⟨hlt, rfl⟩ := List.getElem?_eq_some_iff.mp hx
  rw [take_succ_eq_append_getElem hlt, tail_append_of_ne_nil]
  intro hnil
  have hlen := congrArg List.length hnil
  rw [List.length_take, length_nil] at hlen
  omega

theorem LpsOk.start (pattern : List α) :
    LpsOk pattern ⟨1, 0, List.replicate pattern.length 0⟩ where
  pos := Nat.one_pos
  below := Nat.one_pos
  length := length_replicate
  table := by
    cases pattern with
    | nil => exact .inl rfl
    | cons a rest =>
      refine .inr ⟨Nat.succ_le_succ (Nat.zero_le _), fun j hj => ?_⟩
      obtain rfl := Nat.lt_one_iff.mp hj
      exact ⟨0, rfl, longest_nil _⟩
  trial x _ := by
    cases pattern with
    | nil => exact (longest_nil _).trial x
    | cons a rest => exact (longest_nil _).trial x

/-- One more entry of the table, and the search for the next. -/
theorem LpsOk.entry {s : LpsState} {x : α} {k : ℕ} (h : LpsOk pattern s)
    (hx : pattern[s.i]? = some x)
    (hk : Longest pattern ((pattern.take s.i).tail ++ [x]) k) (hbelow : k < s.i + 1) :
    LpsOk pattern ⟨s.i + 1, k, s.lps.set s.i k⟩ := by
  have hlt := (List.getElem?_eq_some_iff.mp hx).1
  rw [← tail_take_succ h.pos hx] at hk
  refine ⟨Nat.succ_pos _, hbelow, ?_, .inr ⟨hlt, ?_⟩, fun y _ => hk.trial y⟩
  · rw [length_set]
    exact h.length
  · rcases h.table with rfl | ⟨-, htable⟩
    · cases hx
    · exact htable.succ (h.length.symm ▸ hlt) hk

variable [DecidableEq α]

/-- A round leaves the loop with the whole table, or it goes on and lowers the measure. -/
theorem lpsBody_cases {s : LpsState} (h : LpsOk pattern s) :
    (lpsBody pattern s = .inr (.ok s.lps) ∧ pattern.length ≤ s.i) ∨
      ∃ next, lpsBody pattern s = .inl next ∧ LpsOk pattern next ∧
        2 * (pattern.length - next.i) + next.prevLps <
          2 * (pattern.length - s.i) + s.prevLps := by
  unfold lpsBody
  by_cases hi : s.i < pattern.length
  · have hbelow := h.below
    have hx : pattern[s.i]? = some pattern[s.i] := getElem?_eq_getElem hi
    have hlps : s.prevLps < pattern.length := by omega
    have hy : pattern[s.prevLps]? = some pattern[s.prevLps] := getElem?_eq_getElem hlps
    have htrial := h.trial _ hx
    rw [if_pos hi, hx, hy]
    dsimp only
    right
    split
    · rename_i hsame
      have hk := htrial.advance (hy.trans (congrArg some hsame.symm))
      exact ⟨_, rfl, h.entry hx hk (by omega), by dsimp only; omega⟩
    · rename_i hdiffer
      have hne : pattern[s.prevLps]? ≠ some pattern[s.i] := by
        rw [hy]
        exact fun heq => hdiffer (Option.some.inj heq).symm
      split
      · rename_i hprev
        -- the table has an entry for the beginning that is given up
        rcases h.table with rfl | ⟨-, htable⟩
        · cases hx
        · obtain ⟨k, hk, hlongest⟩ := htable (s.prevLps - 1) (by omega)
          have hle := hlongest.le_of_tail
          rw [Nat.sub_add_cancel (Nat.pos_of_ne_zero hprev)] at hlongest
          rw [hk]
          refine ⟨_, rfl, ⟨h.pos, ?_, h.length, h.table, fun x hx' => ?_⟩, ?_⟩
          · dsimp only
            omega
          · cases hx.symm.trans hx'
            exact htrial.fallBack hne hlongest
          · dsimp only
            omega
      · rename_i hprev
        rw [not_not] at hprev
        rw [hprev] at htrial hne
        refine ⟨_, rfl, ?_, ?_⟩
        · have hentry := h.entry hx (htrial.restart hne) (Nat.succ_pos _)
          rw [hprev]
          exact hentry
        · dsimp only
          omega
  · rw [if_neg hi]
    exact .inl ⟨rfl, not_lt.mp hi⟩

/-- The table is made, in some number of rounds, and no index is out of bounds. -/
theorem kmpLpsArray_eq (pattern : List α) : ∃ lps rounds,
    (∀ more, rounds ≤ more → kmpLpsArray pattern more = some (.ok lps)) ∧
      IsTable pattern pattern.length lps := by
  obtain ⟨rounds, last, _, hlast, hleft, hrun⟩ :=
    @Loop.exists_run _ _ (lpsBody pattern) _ _
      (fun s => 2 * (pattern.length - s.i) + s.prevLps)
      (fun s next hs hnext => by
        rcases lpsBody_cases hs with ⟨hleft, -⟩ | ⟨next', hnext', hok, hlower⟩
        · rw [hleft] at hnext
          cases hnext
        · rw [hnext'] at hnext
          obtain rfl := Sum.inl.inj hnext
          exact ⟨hok, hlower⟩) (LpsOk.start pattern)
  rcases lpsBody_cases hlast with ⟨hdone, hend⟩ | ⟨next, hnext, -⟩
  · rw [hdone] at hleft
    obtain rfl := Sum.inr.inj hleft
    refine ⟨last.lps, rounds, fun more hmore => Loop.run_mono hmore hrun, ?_⟩
    rcases hlast.table with rfl | ⟨hle, htable⟩
    · exact fun j hj => absurd hj (Nat.not_lt_zero j)
    · rwa [le_antisymm hend hle]
  · rw [hnext] at hleft
    cases hleft

end Table

/-! ### The search in the context -/

section Search

variable {α : Type} {contextTokenIds pattern : List α} {n k e : ℕ}

/-- The last `n` tokens also end the first `e` tokens, and `e` is at most position `len - n`. -/
structure Recurs (contextTokenIds : List α) (n e : ℕ) : Prop where
  before : e + n ≤ contextTokenIds.length
  ends : lastTokens contextTokenIds n <:+ contextTokenIds.take e

/-- What a search should return: the tokens that follow the leftmost place where the last `n` tokens
recur, at most `k`. -/
def Found (contextTokenIds : List α) (n k : ℕ) : Option (List α) → Prop
  | none => ∀ e, ¬ Recurs contextTokenIds n e
  | some draft => ∃ e, Recurs contextTokenIds n e ∧ (∀ e' < e, ¬ Recurs contextTokenIds n e') ∧
      draft = (contextTokenIds.drop e).take k

/-- What holds in each round of the search. -/
structure SearchOk (contextTokenIds pattern : List α) (n : ℕ) (s : SearchState) : Prop where
  below : s.j < n
  before : s.i + n ≤ contextTokenIds.length
  absent : ∀ e ≤ s.i, ¬ pattern <:+ contextTokenIds.take e
  trial : ∀ x, contextTokenIds[s.i]? = some x →
    Trial pattern (contextTokenIds.take s.i) x s.j

theorem SearchOk.start (hpos : 0 < n) (hle : n ≤ contextTokenIds.length)
    (hlength : pattern.length = n) : SearchOk contextTokenIds pattern n ⟨0, 0⟩ where
  below := hpos
  before := by
    rw [Nat.zero_add]
    exact hle
  absent e he hsuffix := by
    obtain rfl := Nat.le_zero.mp he
    have hshort := hsuffix.length_le
    rw [take_zero, length_nil, hlength] at hshort
    omega
  trial x _ := (longest_nil pattern).trial x

/-- One more token is read, and the pattern does not end there. -/
theorem SearchOk.read {s : SearchState} {x : α} {j : ℕ}
    (h : SearchOk contextTokenIds pattern n s) (hlen : pattern.length = n)
    (hx : contextTokenIds[s.i]? = some x)
    (hj : Longest pattern (contextTokenIds.take s.i ++ [x]) j) (hbelow : j < n)
    (hbefore : s.i + n < contextTokenIds.length) :
    SearchOk contextTokenIds pattern n ⟨s.i + 1, j⟩ := by
  have htake : contextTokenIds.take s.i ++ [x] = contextTokenIds.take (s.i + 1) := by
    obtain ⟨hlt, rfl⟩ := List.getElem?_eq_some_iff.mp hx
    exact (take_succ_eq_append_getElem hlt).symm
  rw [htake] at hj
  refine ⟨hbelow, by dsimp only; omega, fun e he hsuffix => ?_, fun y _ => hj.trial y⟩
  rcases Nat.le_succ_iff.mp he with hle | rfl
  · exact h.absent e hle hsuffix
  · have hwhole := hj.suffix_iff.mp hsuffix
    omega

variable [DecidableEq α]

/-- A round leaves the loop without a match or with the first one, or it goes on and lowers the
measure. -/
theorem searchBody_cases {lps : List ℕ} {s : SearchState} (hlength : pattern.length = n)
    (htable : IsTable pattern n lps) (h : SearchOk contextTokenIds pattern n s) :
    (searchBody contextTokenIds pattern lps n k s = .inr (.ok none) ∧
        contextTokenIds.length ≤ s.i + n) ∨
      (searchBody contextTokenIds pattern lps n k s =
          .inr (.ok (some ((contextTokenIds.drop (s.i + 1)).take k))) ∧
        s.i + 1 + n ≤ contextTokenIds.length ∧ pattern <:+ contextTokenIds.take (s.i + 1)) ∨
      ∃ next, searchBody contextTokenIds pattern lps n k s = .inl next ∧
        SearchOk contextTokenIds pattern n next ∧
        2 * (contextTokenIds.length - next.i) + next.j <
          2 * (contextTokenIds.length - s.i) + s.j := by
  unfold searchBody
  by_cases hi : s.i + n < contextTokenIds.length
  · -- There is room for a match: one token of the context and one of the pattern are read.
    have hbelow := h.below
    have hread : s.i < contextTokenIds.length := by omega
    have hj : s.j < pattern.length := by omega
    have hx : contextTokenIds[s.i]? = some contextTokenIds[s.i] := getElem?_eq_getElem hread
    have hy : pattern[s.j]? = some pattern[s.j] := getElem?_eq_getElem hj
    have htrial := h.trial _ hx
    rw [if_pos (by omega), hx, hy]
    dsimp only
    right
    split
    · -- Equal: the match grows, and either it is whole or the search reads on.
      rename_i hsame
      have hj := htrial.advance (hy.trans (congrArg some hsame.symm))
      split
      · rename_i hwhole
        rw [← take_succ_eq_append_getElem] at hj
        exact .inl ⟨rfl, by omega, hj.suffix_iff.mpr (hwhole.trans hlength.symm)⟩
      · rename_i hpart
        exact .inr ⟨_, rfl, h.read hlength hx hj (by omega) hi, by dsimp only; omega⟩
    · -- Different: fall back to the longest border, or read on from the start of the pattern.
      rename_i hdiffer
      have hne : pattern[s.j]? ≠ some contextTokenIds[s.i] := by
        rw [hy]
        exact fun heq => hdiffer (Option.some.inj heq).symm
      right
      split
      · rename_i hj
        -- The table gives the border. Nothing is read, and `j` goes down.
        obtain ⟨k', hk', hlongest⟩ := htable (s.j - 1) (by omega)
        have hle := hlongest.le_of_tail
        rw [Nat.sub_add_cancel (Nat.pos_of_ne_zero hj)] at hlongest
        rw [hk']
        refine ⟨_, rfl, ⟨?_, h.before, h.absent, fun x hx' => ?_⟩, ?_⟩
        · dsimp only
          omega
        · cases hx.symm.trans hx'
          exact htrial.fallBack hne hlongest
        · dsimp only
          omega
      · rename_i hj
        rw [not_not] at hj
        rw [hj] at htrial hne
        refine ⟨_, rfl, ?_, ?_⟩
        · have hread := h.read hlength hx (htrial.restart hne) (by omega) hi
          rw [hj]
          exact hread
        · dsimp only
          omega
  · -- No room is left for a whole match.
    rw [if_neg (by omega)]
    exact .inl ⟨rfl, not_lt.mp hi⟩

/-- The search returns, in some number of rounds, and finds the leftmost match. -/
theorem findSubarrayKmp_eq (contextTokenIds : List α) (k : ℕ) (hpos : 0 < n) : ∃ result rounds,
    (∀ more, rounds ≤ more → findSubarrayKmp contextTokenIds n k more = some (.ok result)) ∧
      Found contextTokenIds n k result := by
  obtain ⟨lps, first, hlps, htable⟩ := kmpLpsArray_eq (lastTokens contextTokenIds n)
  -- the rounds of both loops are enough for each
  suffices hsearch : ∃ result second, (∀ more, second ≤ more →
      Loop.run (searchBody contextTokenIds (lastTokens contextTokenIds n) lps n k) more ⟨0, 0⟩ =
        some (.ok result)) ∧ Found contextTokenIds n k result by
    obtain ⟨result, second, hresult, hfound⟩ := hsearch
    refine ⟨result, max first second, fun more hmore => ?_, hfound⟩
    unfold findSubarrayKmp
    rw [if_neg hpos.ne']
    dsimp only
    rw [hlps more (le_trans (le_max_left _ _) hmore)]
    exact hresult more (le_trans (le_max_right _ _) hmore)
  by_cases hlong : n ≤ contextTokenIds.length
  · have hlen : (lastTokens contextTokenIds n).length = n := by
      rw [lastTokens, length_drop]
      omega
    rw [hlen] at htable
    obtain ⟨rounds, last, result, hlast, hleft, hrun⟩ :=
      @Loop.exists_run _ _ (searchBody contextTokenIds (lastTokens contextTokenIds n) lps n k) _ _
        (fun s => 2 * (contextTokenIds.length - s.i) + s.j)
        (fun s next hs hnext => by
          rcases searchBody_cases (k := k) hlen htable hs with
            ⟨hleft, -⟩ | ⟨hleft, -⟩ | ⟨next', hnext', hok, hlower⟩
          · rw [hleft] at hnext
            cases hnext
          · rw [hleft] at hnext
            cases hnext
          · rw [hnext'] at hnext
            obtain rfl := Sum.inl.inj hnext
            exact ⟨hok, hlower⟩) (SearchOk.start hpos hlong hlen)
    rcases searchBody_cases (k := k) hlen htable hlast with
      ⟨hnone, hend⟩ | ⟨hsome, hbefore, hends⟩ | ⟨next, hnext, -⟩
    · rw [hnone] at hleft
      obtain rfl := Sum.inr.inj hleft
      refine ⟨none, rounds, fun more hmore => Loop.run_mono hmore hrun, fun e he => ?_⟩
      have hbefore := he.before
      exact hlast.absent e (by omega) he.ends
    · rw [hsome] at hleft
      obtain rfl := Sum.inr.inj hleft
      exact ⟨_, rounds, fun more hmore => Loop.run_mono hmore hrun, last.i + 1,
        ⟨hbefore, hends⟩, fun e he hrecurs => hlast.absent e (by omega) hrecurs.ends, rfl⟩
    · rw [hnext] at hleft
      cases hleft
  · -- there are not so many tokens
    refine ⟨none, 1, fun more hmore => Loop.run_mono hmore (Loop.run_succ_inr ?_), fun e he => ?_⟩
    · unfold searchBody
      exact if_neg (by dsimp only; omega)
    · have hbefore := he.before
      omega

end Search

/-! ### The proposer -/

section Propose

variable {α : Type} [DecidableEq α]

/-- The first pattern that is found decides. -/
theorem proposeLoop_eq (contextTokenIds : List α) (k : ℕ) {lengths : List ℕ}
    (hpos : ∀ n ∈ lengths, 0 < n) : ∃ result rounds,
      (∀ more, rounds ≤ more → proposeLoop contextTokenIds k more lengths = some (.ok result)) ∧
      (result = none → ∀ n ∈ lengths, Found contextTokenIds n k none) ∧
      ∀ draft, result = some draft → ∃ before n after, lengths = before ++ n :: after ∧
        Found contextTokenIds n k (some draft) ∧
          ∀ n' ∈ before, Found contextTokenIds n' k none := by
  induction lengths with
  | nil => exact ⟨none, 0, fun _ _ => rfl, nofun, nofun⟩
  | cons n lengths ih =>
    obtain ⟨hfirst, hmore⟩ := forall_mem_cons.mp hpos
    obtain ⟨found, rounds, hfound, hspec⟩ := findSubarrayKmp_eq contextTokenIds k hfirst
    cases found with
    | some draft =>
      refine ⟨some draft, rounds, fun more hle => ?_, nofun, fun draft' heq => ?_⟩
      · rw [proposeLoop, hfound more hle]
      · cases heq
        exact ⟨[], n, lengths, rfl, hspec, nofun⟩
    | none =>
      obtain ⟨result, rounds', hresult, hnone, hsome⟩ := ih hmore
      refine ⟨result, max rounds rounds', fun more hle => ?_, fun heq => ?_, fun draft heq => ?_⟩
      · rw [proposeLoop, hfound more (le_trans (le_max_left _ _) hle)]
        exact hresult more (le_trans (le_max_right _ _) hle)
      · exact forall_mem_cons.mpr ⟨hspec, hnone heq⟩
      · obtain ⟨before, n', after, rfl, hlast, hbefore⟩ := hsome draft heq
        exact ⟨n :: before, n', after, rfl, hlast, forall_mem_cons.mpr ⟨hspec, hbefore⟩⟩

namespace NgramProposer

variable {p : NgramProposer} {n : ℕ}

theorem mem_lengths : n ∈ p.lengths ↔ p.minN ≤ n ∧ n ≤ p.maxN := by
  rw [lengths, mem_reverse, mem_range'_1]
  omega

/-- Long patterns come first. -/
theorem lengths_pairwise (p : NgramProposer) : p.lengths.Pairwise (· > ·) := by
  rw [lengths, pairwise_reverse]
  exact pairwise_lt_range' ..

/-- The proposer returns, and proposes at most so many tokens as may be proposed, those after the
leftmost place where the longest of the patterns that recur does. It proposes none exactly when no
pattern recurs or no token may be proposed. -/
theorem propose_spec (p : NgramProposer) (contextTokenIds : List α) (hmin : 1 ≤ p.minN) :
    ∃ result rounds,
      (∀ more, rounds ≤ more → p.propose contextTokenIds more = some (.ok result)) ∧
      (result = none ↔ p.bound contextTokenIds ≤ 0 ∨
        ∀ n, p.minN ≤ n → n ≤ p.maxN → ∀ e, ¬ Recurs contextTokenIds n e) ∧
      ∀ draft, result = some draft → ∃ n e, p.minN ≤ n ∧ n ≤ p.maxN ∧
        (∀ n', n < n' → n' ≤ p.maxN → ∀ e', ¬ Recurs contextTokenIds n' e') ∧
        Recurs contextTokenIds n e ∧ (∀ e' < e, ¬ Recurs contextTokenIds n e') ∧
        draft = (contextTokenIds.drop e).take (p.bound contextTokenIds).toNat := by
  unfold propose
  by_cases hbound : p.bound contextTokenIds ≤ 0
  · exact ⟨none, 0, fun _ _ => if_pos hbound, iff_of_true rfl (.inl hbound), nofun⟩
  · have hpos : ∀ n ∈ p.lengths, 0 < n := fun n hn => hmin.trans (mem_lengths.mp hn).1
    obtain ⟨result, rounds, hresult, hnone, hsome⟩ :=
      proposeLoop_eq contextTokenIds (p.bound contextTokenIds).toNat hpos
    refine ⟨result, rounds, fun more hmore => ?_, ?_, fun draft heq => ?_⟩
    · rw [if_neg hbound]
      exact hresult more hmore
    · constructor
      · intro heq
        exact .inr fun n hle hle' => hnone heq n (mem_lengths.mpr ⟨hle, hle'⟩)
      · rintro (habsurd | hall)
        · exact absurd habsurd hbound
        · cases result with
          | none => rfl
          | some draft =>
            -- a pattern that was found recurs
            obtain ⟨before, n, after, hsplit, ⟨e, hrecurs, -⟩, -⟩ := hsome draft rfl
            have hmem : n ∈ p.lengths := by
              rw [hsplit]
              exact mem_append_right _ mem_cons_self
            obtain ⟨hle, hle'⟩ := mem_lengths.mp hmem
            exact absurd hrecurs (hall n hle hle' e)
    · obtain ⟨before, n, after, hsplit, ⟨e, hrecurs, hfirst, hdraft⟩, hbefore⟩ := hsome draft heq
      have hmem : n ∈ p.lengths := by
        rw [hsplit]
        exact mem_append_right _ mem_cons_self
      obtain ⟨hle, hle'⟩ := mem_lengths.mp hmem
      refine ⟨n, e, hle, hle', fun n' hlt hmax => ?_, hrecurs, hfirst, hdraft⟩
      have hmem' : n' ∈ p.lengths := mem_lengths.mpr ⟨hle.trans hlt.le, hmax⟩
      have hsorted := p.lengths_pairwise
      rw [hsplit, pairwise_append] at hsorted
      rw [hsplit, mem_append, mem_cons] at hmem'
      -- the longer patterns were tried before
      rcases hmem' with hmem' | rfl | hmem'
      · exact hbefore n' hmem'
      · exact absurd hlt (lt_irrefl n')
      · have hgt := (pairwise_cons.mp hsorted.2.1).1 n' hmem'
        exact absurd hlt (not_lt.mpr (le_of_lt hgt))

/-- The last two tokens recur, so tokens are proposed. -/
theorem propose_spec_two : ∃ draft rounds, ∀ more, rounds ≤ more →
    (⟨2, 3, 4, 100⟩ : NgramProposer).propose [1, 2, 3, 4, 2, 3] more = some (.ok (some draft)) := by
  obtain ⟨result, rounds, hresult, hnone, -⟩ :=
    propose_spec (⟨2, 3, 4, 100⟩ : NgramProposer) [1, 2, 3, 4, 2, 3] (by decide)
  have hrecurs : Recurs [1, 2, 3, 4, 2, 3] 2 3 := ⟨by decide, by decide⟩
  cases result with
  | some draft => exact ⟨draft, rounds, hresult⟩
  | none =>
    rcases hnone.mp rfl with hbound | hall
    · exact absurd hbound (by decide)
    · exact absurd hrecurs (hall 2 (by decide) (by decide) 3)

end NgramProposer

end Propose

end SpecDecode
