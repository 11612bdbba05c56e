import Mosaic.Control.Fallible
import Mosaic.Table.Cells
import Mathlib.Data.List.Infix
import Mathlib.Algebra.Order.Monoid.Unbundled.WithTop
import Mathlib.Algebra.Ring.Int.Defs

/-!
# The tree attention bias

A tree of draft tokens is given as the list of its paths, level by level. Each token attends to the
root, to itself and to its ancestors. The bias is filled by looking every proper prefix of a path up
in the list, so it is the ancestor relation where the list is closed under prefixes, and a square
cut out of it is that relation among the nodes of the cut. The bias `⊥` stands for minus infinity.
-/

namespace Attention

open List Fallible

/-- The children taken from the root on. -/
abbrev TreePath := List ℤ

abbrev Bias := List (List (WithBot ℤ))

inductive TreeError where
  | indexError
  | valueError
  deriving DecidableEq, Repr

/-! ### Filling the bias -/

/-- One more path, with the depth of the last one. -/
def countDepth (st : List ℕ × ℕ) (path : TreePath) : Except TreeError (List ℕ × ℕ) :=
  let depthCounts := if path.length ≠ st.2 then st.1 ++ [0] else st.1
  match Ragged.position depthCounts.length ((path.length : ℤ) - 1) with
  | none => .error .indexError
  | some k => .ok (depthCounts.modify k (· + 1), path.length)

/-- The number of paths of each depth. -/
def getDepthCounts (sortedTreeChoices : List TreePath) : Except TreeError (List ℕ) :=
  return (← sortedTreeChoices.foldlM countDepth ([], 0)).1

/-- Set entries of one row to zero. -/
def attend (bias : Bias) (row : ℕ) (columns : List ℕ) : Bias :=
  bias.modify row fun entries => columns.foldl (fun entries j => entries.set j 0) entries

/-- `paths.index(path)` -/
def indexOf (paths : List TreePath) (path : TreePath) : Except TreeError ℕ :=
  if path ∈ paths then .ok (paths.idxOf path) else .error .valueError

/-- Let a path attend to its ancestors. -/
def attendAncestors (sortedTreeChoices : List TreePath) (bias : Bias) (k : ℕ) :
    Except TreeError Bias :=
  match sortedTreeChoices[k]? with
  | none => .error .indexError
  | some curTreeChoice =>
    if curTreeChoice.length = 1 then .ok bias
    else do
      let ancestorIdx ← (range (curTreeChoice.length - 1)).mapM fun c =>
        (· + 1) <$> indexOf sortedTreeChoices (curTreeChoice.take (c + 1))
      return attend bias (k + 1) ancestorIdx

/-- The paths of one depth. -/
def attendLevel (sortedTreeChoices : List TreePath) (st : Bias × ℕ) (count : ℕ) :
    Except TreeError (Bias × ℕ) := do
  let bias ← (range count).foldlM (fun bias j => attendAncestors sortedTreeChoices bias (st.2 + j))
    st.1
  return (bias, st.2 + count)

/-- The bias of the tree, whose first row and column are those of the root. -/
def prepareTreeAttnBias (sortedTreeChoices : List TreePath) (depthCounts : List ℕ) :
    Except TreeError Bias :=
  let treeLen := sortedTreeChoices.length + 1
  let masked := replicate treeLen (replicate treeLen ⊥)
  let diagonal := (range treeLen).foldl (fun bias i => attend bias i [i]) masked
  let rooted := diagonal.map fun entries => entries.set 0 0
  return (← depthCounts.foldlM (attendLevel sortedTreeChoices) (rooted, 0)).1

/-- The bias that is used for drafting a range of nodes. The root level is drafted without one. -/
def draftingBias (treeAttnBias : Bias) (draftIndex maxQueryLen : ℕ) : Bias :=
  if draftIndex = 0 then []
  else ((treeAttnBias.take (draftIndex + maxQueryLen)).drop draftIndex).map fun entries =>
    (entries.take (draftIndex + maxQueryLen)).drop draftIndex

/-! ### Depths -/

/-- Distinct paths below the root, by length, with every path up to one of them. -/
structure IsTree (paths : List TreePath) : Prop where
  nodup : paths.Nodup
  nonempty : ∀ p ∈ paths, p ≠ []
  sorted : paths.Pairwise fun p q => p.length ≤ q.length
  closed : ∀ p ∈ paths, ∀ k, 1 ≤ k → k < p.length → p.take k ∈ paths

variable {paths : List TreePath}

theorem sum_modify_succ {counts : List ℕ} {k : ℕ} (h : k < counts.length) :
    (counts.modify k (· + 1)).sum = counts.sum + 1 := by
  induction counts generalizing k with
  | nil => simp at h
  | cons c counts ih =>
    cases k with
    | zero =>
      rw [modify_zero_cons, sum_cons, sum_cons]
      omega
    | succ k =>
      rw [modify_succ_cons, sum_cons, sum_cons, ih (by simpa using h)]
      omega

/-- What is counted while `rest` is left: the paths before it, none of them deeper than the last
one, and none of the others less deep. -/
def Counted (paths rest : List TreePath) (st : List ℕ × ℕ) : Prop :=
  ∃ done, paths = done ++ rest ∧ st.1.length = st.2 ∧ st.1.sum = done.length ∧
    (∀ p ∈ done, p.length ≤ st.2) ∧ ∀ p ∈ rest, st.2 ≤ p.length

/-- The depths of a tree have no gaps, so every path finds its counter. -/
theorem IsTree.countDepth (h : IsTree paths) {path : TreePath} {rest : List TreePath}
    {st : List ℕ × ℕ} (hst : Counted paths (path :: rest) st) :
    ∃ st', countDepth st path = .ok st' ∧ Counted paths rest st' := by
  obtain ⟨counts, depth⟩ := st
  obtain ⟨done, hdone, hlength, hsum, hbefore, hbehind⟩ := hst
  dsimp only at hlength hsum hbefore hbehind
  have hmem : path ∈ paths := hdone ▸ mem_append_right _ mem_cons_self
  have hpos : 1 ≤ path.length := length_pos_iff.mpr (h.nonempty path hmem)
  have hle := hbehind path mem_cons_self
  have hsorted := h.sorted
  rw [hdone] at hsorted
  have hlater := (pairwise_cons.mp (pairwise_append.mp hsorted).2.1).1
  -- the prefix that is shorter by one stands before the path
  have hnext : path.length ≤ depth + 1 := by
    by_contra hgap
    have hshort : (path.take (path.length - 1)).length = path.length - 1 :=
      length_take_of_le (by omega)
    have hclosed := h.closed path hmem (path.length - 1) (by omega) (by omega)
    rw [hdone, mem_append, mem_cons] at hclosed
    rcases hclosed with hin | heq | hin
    · have := hbefore _ hin
      omega
    · rw [heq] at hshort
      omega
    · have := hlater _ hin
      omega
  obtain ⟨counted, hcounted⟩ :
      ∃ counted, (if path.length ≠ depth then counts ++ [0] else counts) = counted := ⟨_, rfl⟩
  have hnew : counted.length = path.length ∧ counted.sum = done.length := by
    rw [← hcounted]
    split_ifs with hne
    · rw [length_append, length_singleton, sum_append, sum_singleton]
      omega
    · omega
  have hok : Attention.countDepth (counts, depth) path =
      .ok (counted.modify (path.length - 1) (· + 1), path.length) := by
    have hposition : Ragged.position path.length ((path.length : ℤ) - 1) =
        some (path.length - 1) := by
      rw [← Ragged.position_natCast (by omega : path.length - 1 < path.length)]
      congr 1
      omega
    rw [Attention.countDepth]
    rw [hcounted, hnew.1, hposition]
  refine ⟨_, hok, done ++ [path], ?_, ?_, ?_, ?_, hlater⟩
  · rw [hdone, append_assoc, singleton_append]
  · rw [length_modify, hnew.1]
  · rw [sum_modify_succ (by omega), hnew.2, length_append, length_singleton]
  · intro p hp
    rcases mem_append.mp hp with hp | hp
    · exact (hbefore p hp).trans hle
    · rw [mem_singleton.mp hp]

theorem IsTree.getDepthCounts_eq_ok (h : IsTree paths) :
    ∃ counts, getDepthCounts paths = .ok counts ∧ counts.sum = paths.length := by
  have hstart : Counted paths paths ([], 0) := ⟨[], rfl, rfl, rfl, nofun, fun _ _ => Nat.zero_le _⟩
  obtain ⟨⟨counts, depth⟩, hfold, done, hdone, -, hsum, -⟩ :=
    foldlM_isOk hstart fun _ _ _ hst => h.countDepth hst
  rw [append_nil] at hdone
  refine ⟨counts, ?_, hdone ▸ hsum⟩
  rw [getDepthCounts, hfold]
  rfl

/-! ### Tables -/

/-- The square bias that is zero where a test says so. -/
def table (n : ℕ) (p : ℕ → ℕ → Bool) : Bias :=
  (range n).map fun i => (range n).map fun j => if p i j then 0 else ⊥

theorem set_map_range {α : Type} (n j : ℕ) (f : ℕ → α) (x : α) :
    ((range n).map f).set j x = (range n).map fun k => if k = j then x else f k := by
  refine ext_getElem? fun k => ?_
  rw [getElem?_set, getElem?_map, getElem?_map]
  by_cases hk : k < n
  · rw [getElem?_range hk, length_map, length_range]
    by_cases hjk : j = k
    · simp [hjk, hk]
    · simp [hjk, Ne.symm hjk]
  · rw [getElem?_eq_none (by simpa using hk), length_map, length_range]
    by_cases hjk : j = k
    · simp [hjk, hk]
    · simp [hjk]

theorem attend_table {n row : ℕ} (p : ℕ → ℕ → Bool) (columns : List ℕ) :
    attend (table n p) row columns =
      table n fun i j => p i j || (i == row && columns.contains j) := by
  have hrow (q : ℕ → Bool) : columns.foldl (fun entries j => entries.set j 0)
      ((range n).map fun j => if q j then (0 : WithBot ℤ) else ⊥) =
        (range n).map fun j => if q j || columns.contains j then 0 else ⊥ := by
    induction columns generalizing q with
    | nil => simp
    | cons c columns ih =>
      have hset : ((range n).map fun j => if j = c then (0 : WithBot ℤ) else if q j then 0 else ⊥) =
          (range n).map fun j => if q j || j == c then 0 else ⊥ := by
        refine map_congr_left fun j _ => ?_
        by_cases hj : j = c <;> simp [hj]
      rw [foldl_cons, set_map_range, hset, ih]
      simp only [Bool.or_assoc, contains_cons]
  refine ext_getElem? fun i => ?_
  rw [attend, getElem?_modify, table, table, getElem?_map, getElem?_map]
  by_cases hi : i < n
  · rw [getElem?_range hi]
    by_cases heq : row = i
    · simp [heq, hrow]
    · simp [heq, Ne.symm heq]
  · rw [getElem?_eq_none (by simpa using hi)]
    rfl

theorem foldl_attend_table {n : ℕ} (row : ℕ → ℕ) (columns : ℕ → List ℕ) (ks : List ℕ)
    (p : ℕ → ℕ → Bool) :
    ks.foldl (fun bias k => attend bias (row k) (columns k)) (table n p) =
      table n fun i j => p i j || ks.any fun k => i == row k && (columns k).contains j := by
  induction ks generalizing p with
  | nil => simp
  | cons k ks ih =>
    rw [foldl_cons, attend_table, ih]
    simp only [any_cons, Bool.or_assoc]

/-! ### Ancestors -/

/-- The nodes of the proper prefixes of a path. -/
def ancestors (paths : List TreePath) (path : TreePath) : List ℕ :=
  (range (path.length - 1)).map fun c => paths.idxOf (path.take (c + 1)) + 1

theorem IsTree.mem_ancestors (h : IsTree paths) {path : TreePath} (hpath : path ∈ paths) {j : ℕ} :
    j ∈ ancestors paths path ↔
      ∃ i p, j = i + 1 ∧ paths[i]? = some p ∧ p <+: path ∧ p ≠ path := by
  rw [ancestors, mem_map]
  constructor
  · rintro ⟨c, hc, rfl⟩
    rw [mem_range] at hc
    have hmem := h.closed path hpath (c + 1) (by omega) (by omega)
    refine ⟨_, path.take (c + 1), rfl, ?_, take_prefix _ _, fun heq => ?_⟩
    · rw [getElem?_eq_getElem (idxOf_lt_length_of_mem hmem), getElem_idxOf]
    · have := congrArg length heq
      rw [length_take] at this
      omega
  · rintro ⟨i, p, rfl, hp, hpre, hne⟩
    have hpos : 1 ≤ p.length := length_pos_iff.mpr (h.nonempty p (mem_of_getElem? hp))
    have hlt : p.length < path.length :=
      lt_of_le_of_ne hpre.length_le fun heq => hne (hpre.eq_of_length heq)
    refine ⟨p.length - 1, mem_range.mpr (by omega), ?_⟩
    rw [Nat.sub_add_cancel hpos, ← prefix_iff_eq_take.mp hpre]
    obtain ⟨-, rfl⟩ := List.getElem?_eq_some_iff.mp hp
    rw [h.nodup.idxOf_getElem]

/-- In a tree the ancestors of every path are found. -/
theorem IsTree.attendAncestors_eq_ok (h : IsTree paths) {k : ℕ} (hk : k < paths.length)
    (bias : Bias) : attendAncestors paths bias k =
      .ok (attend bias (k + 1) (ancestors paths (paths.getD k []))) := by
  have hget : paths[k]? = some paths[k] := getElem?_eq_getElem hk
  have hmem : paths[k] ∈ paths := getElem_mem hk
  rw [attendAncestors, getD_eq_getElem?_getD, hget]
  dsimp only [Option.getD_some]
  split_ifs with hone
  · rw [ancestors, hone, attend]
    exact congrArg _ (modify_id _ _).symm
  · have hmap : (range (paths[k].length - 1)).mapM (fun c =>
        (· + 1) <$> indexOf paths (paths[k].take (c + 1))) = .ok (ancestors paths paths[k]) := by
      refine mapM_eq_ok _ fun c hc => ?_
      rw [mem_range] at hc
      rw [indexOf, if_pos (h.closed _ hmem (c + 1) (by omega) (by omega))]
      rfl
    rw [hmap]
    rfl

/-- The levels go through all paths, one after the other. -/
theorem IsTree.attendLevels_eq_ok (h : IsTree paths) (counts : List ℕ) {start : ℕ}
    (hcounts : start + counts.sum ≤ paths.length) (bias : Bias) :
    counts.foldlM (attendLevel paths) (bias, start) =
      .ok ((range' start counts.sum).foldl (fun bias k => attend bias (k + 1)
        (ancestors paths (paths.getD k []))) bias, start + counts.sum) := by
  induction counts generalizing start bias with
  | nil => rfl
  | cons count counts ih =>
    rw [sum_cons] at hcounts ⊢
    have hlevel : (range count).foldlM (fun bias j => attendAncestors paths bias (start + j)) bias =
        .ok ((range count).foldl (fun bias j => attend bias (start + j + 1)
          (ancestors paths (paths.getD (start + j) []))) bias) :=
      foldlM_eq_ok _ (fun j hj bias =>
        h.attendAncestors_eq_ok (by have := mem_range.mp hj; omega) bias) bias
    have hrange : range' start (count + counts.sum) =
        (range count).map (start + ·) ++ range' (start + count) counts.sum := by
      rw [← range'_append_1, range'_eq_map_range]
    rw [hrange, foldl_append, foldl_map, ← add_assoc]
    exact foldlM_cons_eq_ok.mpr ⟨_, bind_eq_ok.mpr ⟨_, hlevel, rfl⟩, ih (by omega) _⟩

/-! ### The ancestor relation -/

/-- The path of a node, of which the root is the first. -/
def nodePath (paths : List TreePath) (i : ℕ) : TreePath :=
  ([] :: paths).getD i []

/-- A node attends to the root, to itself, and to the nodes whose paths lead up to its own. -/
def Attends (paths : List TreePath) (i j : ℕ) : Prop :=
  j = 0 ∨ j = i ∨ (nodePath paths j <+: nodePath paths i ∧ nodePath paths j ≠ nodePath paths i)

instance (paths : List TreePath) (i j : ℕ) : Decidable (Attends paths i j) :=
  inferInstanceAs (Decidable (_ ∨ _ ∨ (_ ∧ _)))

theorem nodePath_succ {k : ℕ} (hk : k < paths.length) : nodePath paths (k + 1) = paths[k] := by
  rw [nodePath, getD_cons_succ, getD_eq_getElem?_getD, getElem?_eq_getElem hk, Option.getD_some]

theorem IsTree.attends_iff (h : IsTree paths) {i j : ℕ} (hi : i ≤ paths.length)
    (hj : j ≤ paths.length) :
    Attends paths i j ↔ (i = j ∨ j = 0) ∨ ∃ k < paths.length,
      i = k + 1 ∧ j ∈ ancestors paths (paths.getD k []) := by
  constructor
  · rintro (hroot | hself | ⟨hpre, hne⟩)
    · exact .inl (.inr hroot)
    · exact .inl (.inl hself.symm)
    · match i, j with
      | 0, _ => exact absurd (prefix_nil.mp hpre) hne
      | _ + 1, 0 => exact .inl (.inr rfl)
      | k + 1, l + 1 =>
        have hget : paths[k]? = some paths[k] := getElem?_eq_getElem hi
        rw [nodePath_succ hi, nodePath_succ hj] at hpre hne
        refine .inr ⟨k, hi, rfl, ?_⟩
        rw [getD_eq_getElem?_getD, hget, Option.getD_some, h.mem_ancestors (getElem_mem hi)]
        exact ⟨l, _, rfl, getElem?_eq_getElem hj, hpre, hne⟩
  · rintro ((hself | hroot) | ⟨k, hk, rfl, hmem⟩)
    · exact .inr (.inl hself.symm)
    · exact .inl hroot
    · rw [getD_eq_getElem?_getD, getElem?_eq_getElem hk, Option.getD_some,
        h.mem_ancestors (getElem_mem hk)] at hmem
      obtain ⟨l, _, rfl, hp, hpre, hne⟩ := hmem
      obtain ⟨hl, rfl⟩ := List.getElem?_eq_some_iff.mp hp
      refine .inr (.inr ?_)
      rw [nodePath_succ hk, nodePath_succ hl]
      exact ⟨hpre, hne⟩

theorem table_congr {n : ℕ} {p q : ℕ → ℕ → Bool} (h : ∀ i < n, ∀ j < n, p i j = q i j) :
    table n p = table n q :=
  map_congr_left fun i hi => map_congr_left fun j hj => by
    rw [h i (mem_range.mp hi) j (mem_range.mp hj)]

theorem IsTree.prepareTreeAttnBias_eq_ok (h : IsTree paths) {counts : List ℕ}
    (hcounts : counts.sum = paths.length) :
    prepareTreeAttnBias paths counts =
      .ok (table (paths.length + 1) fun i j => Attends paths i j) := by
  have hmasked : replicate (paths.length + 1) (replicate (paths.length + 1) ⊥) =
      table (paths.length + 1) fun _ _ => false := by
    simp [table]
  have hrooted (p : ℕ → ℕ → Bool) : (table (paths.length + 1) p).map (·.set 0 0) =
      table (paths.length + 1) fun i j => p i j || j == 0 := by
    rw [table, map_map]
    refine map_congr_left fun i _ => (set_map_range _ _ _ _).trans (map_congr_left fun j _ => ?_)
    by_cases hj : j = 0 <;> simp [hj]
  rw [prepareTreeAttnBias, hmasked, foldl_attend_table (fun i => i) (fun i => [i]), hrooted,
    h.attendLevels_eq_ok counts (by omega), hcounts, ← range_eq_range', foldl_attend_table]
  refine congrArg Except.ok (table_congr fun i hi j hj => Bool.eq_iff_iff.mpr ?_)
  rw [decide_eq_true_iff, h.attends_iff (Nat.le_of_lt_succ hi) (Nat.le_of_lt_succ hj)]
  simp only [Bool.or_eq_true, Bool.false_or, any_eq_true, mem_range, Bool.and_eq_true, beq_iff_eq,
    contains_iff_mem, mem_singleton]
  refine or_congr_left (or_congr_left ⟨fun ⟨k, _, hik, hjk⟩ => hik.trans hjk.symm, fun heq => ?_⟩)
  exact ⟨i, hi, rfl, heq.symm⟩

/-! ### Cuts -/

theorem drop_take_map_range {α : Type} (n start count : ℕ) (f : ℕ → α) :
    (((range n).map f).take (start + count)).drop start =
      (range (min (start + count) n - start)).map fun k => f (start + k) := by
  refine ext_getElem? fun k => ?_
  rw [getElem?_drop, getElem?_map]
  by_cases hk : k < min (start + count) n - start
  · rw [getElem?_take_of_lt (by omega), getElem?_map, getElem?_range hk,
      getElem?_range (by omega), Option.map_some, Option.map_some]
  · rw [getElem?_eq_none (by simp; omega), getElem?_eq_none (by simp; omega), Option.map_none]

theorem draftingBias_table {n draftIndex : ℕ} (p : ℕ → ℕ → Bool) (h : draftIndex ≠ 0)
    (maxQueryLen : ℕ) : draftingBias (table n p) draftIndex maxQueryLen =
      table (min (draftIndex + maxQueryLen) n - draftIndex) fun a b =>
        p (draftIndex + a) (draftIndex + b) := by
  rw [draftingBias, if_neg h, table, drop_take_map_range, map_map]
  exact map_congr_left fun a _ => drop_take_map_range _ _ _ _

/-- The bias of a tree lets each node attend to the root, to itself and to its ancestors, and the
square for a range of nodes lets each of them attend to those of the range. -/
theorem treeBias_eq (h : IsTree paths) :
    ∃ counts, getDepthCounts paths = .ok counts ∧
      prepareTreeAttnBias paths counts =
        .ok (table (paths.length + 1) fun i j => Attends paths i j) ∧
      ∀ draftIndex ≠ 0, ∀ maxQueryLen,
        draftingBias (table (paths.length + 1) fun i j => Attends paths i j) draftIndex
            maxQueryLen =
          table (min (draftIndex + maxQueryLen) (paths.length + 1) - draftIndex) fun a b =>
            Attends paths (draftIndex + a) (draftIndex + b) := by
  obtain ⟨counts, hcounts, hsum⟩ := h.getDepthCounts_eq_ok
  exact ⟨counts, hcounts, h.prepareTreeAttnBias_eq_ok hsum, fun _ hdraft =>
    draftingBias_table _ hdraft⟩

/-- Two branches of two nodes, and the square of the last three nodes. -/
theorem treeBias_eq_two_branches :
    getDepthCounts [[0], [1], [0, 0], [1, 0]] = .ok [2, 2] ∧
    prepareTreeAttnBias [[0], [1], [0, 0], [1, 0]] [2, 2] =
      .ok [[0, ⊥, ⊥, ⊥, ⊥], [0, 0, ⊥, ⊥, ⊥], [0, ⊥, 0, ⊥, ⊥], [0, 0, ⊥, 0, ⊥],
        [0, ⊥, 0, ⊥, 0]] ∧
    draftingBias [[0, ⊥, ⊥, ⊥, ⊥], [0, 0, ⊥, ⊥, ⊥], [0, ⊥, 0, ⊥, ⊥], [0, 0, ⊥, 0, ⊥],
        [0, ⊥, 0, ⊥, 0]] 2 3 = [[0, ⊥, ⊥], [⊥, 0, ⊥], [0, ⊥, 0]] := by
  have htree : IsTree [[0], [1], [0, 0], [1, 0]] := by
    have hclosed : ∀ p ∈ [[0], [1], [0, 0], [1, 0]], ∀ k < p.length, 1 ≤ k →
        p.take k ∈ [[0], [1], [0, 0], [1, (0 : ℤ)]] := by decide
    exact ⟨by decide, by decide, by decide, fun p hp k hk hlt => hclosed p hp k hlt hk⟩
  obtain ⟨_, hcounts, hbias, hcut⟩ := treeBias_eq htree
  have hok : getDepthCounts [[0], [1], [0, 0], [1, 0]] = .ok [2, 2] := by decide
  cases hcounts.symm.trans hok
  have htable : table 5 (fun i j => Attends [[0], [1], [0, 0], [1, 0]] i j) =
      [[0, ⊥, ⊥, ⊥, ⊥], [0, 0, ⊥, ⊥, ⊥], [0, ⊥, 0, ⊥, ⊥], [0, 0, ⊥, 0, ⊥], [0, ⊥, 0, ⊥, 0]] := by
    decide
  have hsquare := hcut 2 (by decide) 3
  rw [show [[0], [1], [0, 0], [1, (0 : ℤ)]].length + 1 = 5 from rfl, htable] at hbias hsquare
  exact ⟨hok, hbias, hsquare.trans (by decide)⟩

end Attention
