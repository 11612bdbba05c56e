import Mosaic.Control.Fallible
import Mosaic.Table.Segments
import Mathlib.Data.List.Induction
import Mathlib.Data.List.MinMax
import Mathlib.Order.Nat

/-!
# Decodes before prefills

Some attention backends want the requests with few scheduled tokens, the decodes, at the front of
the batch. The batch is reordered by swaps: the last decode with the first prefill, the last but one
with the second, and so on. Both lists of indices are computed before the first swap, and the loop
is left at the first decode that is not at the back. Afterwards the boundary is read off the
lengths of the queries.

The batch is the list of its rows, and `swap_states` exchanges two of them.
-/

namespace Attention

open List Int Fallible

variable {ρ : Type}

inductive Error
  | indexError
  | valueError
  | assertionError (condition : String)
  deriving DecidableEq

/-! ### Swapping rows -/

/-- `swap_states`: what stands at the two indices is exchanged. -/
def swapStates (rows : List ρ) (i₁ i₂ : ℕ) : Except Error (List ρ) := do
  let row₁ ← orError .indexError rows[i₁]?
  let row₂ ← orError .indexError rows[i₂]?
  .ok ((rows.set i₁ row₂).set i₂ row₁)

theorem swapStates_eq_ok {rows : List ρ} {i₁ i₂ : ℕ} {row₁ row₂ : ρ} (h₁ : rows[i₁]? = some row₁)
    (h₂ : rows[i₂]? = some row₂) :
    swapStates rows i₁ i₂ = .ok ((rows.set i₁ row₂).set i₂ row₁) := by
  unfold swapStates
  rw [orError_eq_ok.mpr h₁, orError_eq_ok.mpr h₂]
  rfl

/-- The indices of the two classes, and how many tokens they have. -/
structure Classes where
  decodes : List ℕ
  prefills : List ℕ
  numDecodeTokens : ℕ
  numPrefillTokens : ℕ

/-- The body of the loop over the requests. -/
def Classes.add (numScheduledTokens : ρ → ℕ) (decodeThreshold : ℕ) (c : Classes)
    (entry : ρ × ℕ) : Classes :=
  let numTokens := numScheduledTokens entry.1
  if numTokens ≤ decodeThreshold then
    { c with decodes := c.decodes ++ [entry.2], numDecodeTokens := c.numDecodeTokens + numTokens }
  else
    { c with prefills := c.prefills ++ [entry.2]
             numPrefillTokens := c.numPrefillTokens + numTokens }

def classify (numScheduledTokens : ρ → ℕ) (decodeThreshold : ℕ) (rows : List ρ) : Classes :=
  rows.zipIdx.foldl (Classes.add numScheduledTokens decodeThreshold)
    { decodes := [], prefills := [], numDecodeTokens := 0, numPrefillTokens := 0 }

/-- The batch after some rounds of the loop, with the calls of `swap_states` that were made. -/
structure Reordering (ρ : Type) where
  rows : List ρ
  swaps : List (ℕ × ℕ)
  modifiedBatch : Bool

/-- The loop that swaps, over the rounds that are left. -/
def swapLoop (decodes prefills : List ℕ) : List ℕ → Reordering ρ → Except Error (Reordering ρ)
  | [], batch => .ok batch
  | i :: rounds, batch => do
    let decodeIdx ← orError .indexError decodes[decodes.length - i]?
    if decodeIdx < decodes.length then
      .ok batch
    else
      let prefillIdx ← orError .indexError prefills[i - 1]?
      let rows ← swapStates batch.rows prefillIdx decodeIdx
      swapLoop decodes prefills rounds
        { rows, swaps := batch.swaps ++ [(prefillIdx, decodeIdx)], modifiedBatch := true }

/-- The loop is left at a decode that is not at the back. -/
theorem swapLoop_stop {decodes prefills rounds : List ℕ} {i d : ℕ} {batch : Reordering ρ}
    (hd : decodes[decodes.length - i]? = some d) (hfront : d < decodes.length) :
    swapLoop decodes prefills (i :: rounds) batch = .ok batch := by
  rw [swapLoop, orError_eq_ok.mpr hd]
  exact if_pos hfront

/-- Any other one is swapped with the prefill whose turn it is. -/
theorem swapLoop_swap {decodes prefills rounds : List ℕ} {i d q : ℕ} {batch : Reordering ρ}
    {rows : List ρ} (hd : decodes[decodes.length - i]? = some d) (hback : ¬ d < decodes.length)
    (hq : prefills[i - 1]? = some q) (hswap : swapStates batch.rows q d = .ok rows) :
    swapLoop decodes prefills (i :: rounds) batch = swapLoop decodes prefills rounds
      { rows, swaps := batch.swaps ++ [(q, d)], modifiedBatch := true } := by
  rw [swapLoop, orError_eq_ok.mpr hd]
  refine (if_neg hback).trans ?_
  rw [orError_eq_ok.mpr hq]
  change (swapStates batch.rows q d >>= _) = _
  rw [hswap]
  rfl

/-- `reorder_batch_to_split_decodes_and_prefills` -/
def reorderBatchToSplitDecodesAndPrefills (numScheduledTokens : ρ → ℕ) (decodeThreshold : ℕ)
    (rows : List ρ) : Except Error (Reordering ρ) :=
  let classes := classify numScheduledTokens decodeThreshold rows
  let numDecodes := classes.decodes.length
  let numPrefills := classes.prefills.length
  swapLoop classes.decodes classes.prefills (List.range' 1 (min numDecodes numPrefills))
    { rows, swaps := [], modifiedBatch := false }

/-! ### The boundary -/

/-- The fields of `CommonAttentionMetadata` that the boundary is read from. -/
structure CommonAttentionMetadata where
  queryStartLocCpu : List ℤ
  numReqs : ℕ
  numActualTokens : ℤ
  maxQueryLen : ℤ

/-- The metadata that the model runner makes for a batch. -/
def CommonAttentionMetadata.ofTokens (tokens : List ℕ) : CommonAttentionMetadata where
  queryStartLocCpu := 0 :: (Ragged.cumsum tokens).map (↑)
  numReqs := tokens.length
  numActualTokens := tokens.sum
  maxQueryLen := (tokens.foldr max 0 : ℕ)

/-- `query_start_loc[1:] - query_start_loc[:-1]` -/
def queryLens (queryStartLoc : List ℤ) : List ℤ :=
  List.zipWith (· - ·) queryStartLoc.tail queryStartLoc.dropLast

/-- The numbers of requests and of tokens of the two classes. -/
structure Boundary where
  numDecodes : ℕ
  numPrefills : ℤ
  numDecodeTokens : ℤ
  numPrefillTokens : ℤ
  deriving DecidableEq

/-- `split_decodes_and_prefills` -/
def splitDecodesAndPrefills (metadata : CommonAttentionMetadata) (decodeThreshold : ℕ) :
    Except Error Boundary :=
  if metadata.maxQueryLen ≤ decodeThreshold then
    .ok ⟨metadata.numReqs, 0, metadata.numActualTokens, 0⟩
  else
    let queryLens := queryLens metadata.queryStartLocCpu
    let isPrefill := queryLens.map fun len => decide ((decodeThreshold : ℤ) < len)
    if isPrefill.any id = false then
      .ok ⟨metadata.numReqs, 0, metadata.numActualTokens, 0⟩
    else
      -- `argmax` of the flags is the first one that is set
      let firstPrefill := isPrefill.findIdx id
      if ¬ ∀ len ∈ queryLens.drop firstPrefill, (decodeThreshold : ℤ) < len then
        .error (.assertionError "torch.all(query_lens[first_prefill:] > decode_threshold)")
      else if ¬ ∀ len ∈ queryLens.take firstPrefill, len ≤ (decodeThreshold : ℤ) then
        .error (.assertionError "torch.all(query_lens[:first_prefill] <= decode_threshold)")
      else do
        let numDecodeTokens ← orError .indexError metadata.queryStartLocCpu[firstPrefill]?
        .ok ⟨firstPrefill, (metadata.numReqs : ℤ) - firstPrefill, numDecodeTokens,
          metadata.numActualTokens - numDecodeTokens⟩

/-! ### Rows cut in two -/

/-- The rows of a class come first, and there are `n` of them. -/
structure Cut (p : ρ → Bool) (n : ℕ) (rows : List ρ) : Prop where
  front : ∀ r ∈ rows.take n, p r = true
  back : ∀ r ∈ rows.drop n, p r = false

namespace Cut

variable {p : ρ → Bool} {rows : List ρ} {n : ℕ}

theorem countP_add (p : ρ → Bool) (rows : List ρ) (n : ℕ) :
    (rows.take n).countP p + (rows.drop n).countP p = rows.countP p := by
  rw [← countP_append, take_append_drop]

theorem length_take (p : ρ → Bool) (rows : List ρ) :
    (rows.take (rows.countP p)).length = rows.countP p :=
  length_take_of_le countP_le_length

/-- With as many of the class in front as there are, none is left for the back. -/
theorem of_front (h : ∀ r ∈ rows.take (rows.countP p), p r = true) :
    Cut p (rows.countP p) rows := by
  refine ⟨h, ?_⟩
  have htake := countP_eq_length.mpr h
  have hsum := countP_add p rows (rows.countP p)
  rw [htake, length_take] at hsum
  have hdrop : (rows.drop (rows.countP p)).countP p = 0 := by omega
  intro r hr
  exact Bool.eq_false_iff.mpr (countP_eq_zero.mp hdrop r hr)

/-- With none of the class at the back, the front has room for no other row. -/
theorem of_back (h : ∀ r ∈ rows.drop (rows.countP p), p r = false) :
    Cut p (rows.countP p) rows := by
  refine ⟨?_, h⟩
  have hdrop : (rows.drop (rows.countP p)).countP p = 0 :=
    countP_eq_zero.mpr fun r hr => Bool.eq_false_iff.mp (h r hr)
  have hsum := countP_add p rows (rows.countP p)
  rw [hdrop, add_zero] at hsum
  exact countP_eq_length.mp (hsum.trans (length_take p rows).symm)

theorem take_eq (h : Cut p n rows) : rows.take n = rows.filter p := by
  conv_rhs => rw [← take_append_drop n rows, filter_append]
  rw [filter_eq_self.mpr h.front, filter_eq_nil_iff.mpr fun r hr =>
    Bool.eq_false_iff.mp (h.back r hr), append_nil]

theorem drop_eq (h : Cut p n rows) : rows.drop n = rows.filter (!p ·) := by
  conv_rhs => rw [← take_append_drop n rows, filter_append]
  have hfront : ∀ r ∈ rows.take n, ¬ (!p r) = true := fun r hr => by simp [h.front r hr]
  have hback : ∀ r ∈ rows.drop n, (!p r) = true := fun r hr => by simp [h.back r hr]
  rw [filter_eq_nil_iff.mpr hfront, filter_eq_self.mpr hback, nil_append]

/-- A row of the class stands before every other one. -/
theorem precedes (h : Cut p n rows) {i j : ℕ} {r s : ρ} (hr : rows[i]? = some r)
    (hs : rows[j]? = some s) (hpr : p r = true) (hps : p s = false) : i < j := by
  have hi : i < n := by
    by_contra hge
    have hmem : r ∈ rows.drop n := mem_of_getElem? (i := i - n) (by
      rw [getElem?_drop, Nat.add_sub_cancel' (Nat.le_of_not_lt hge), hr])
    exact Bool.false_ne_true ((h.back r hmem).symm.trans hpr)
  have hj : n ≤ j := by
    by_contra hlt
    have hmem : s ∈ rows.take n := mem_of_getElem? (i := j) (by
      rw [getElem?_take_of_lt (Nat.lt_of_not_le hlt), hs])
    exact Bool.false_ne_true (hps.symm.trans (h.front s hmem))
  exact Nat.lt_of_lt_of_le hi hj

end Cut

/-! ### What the loop has still to do -/

section Swaps

variable {p : ρ → Bool} {rows : List ρ} {decodes prefills : List ℕ} {t : ℕ}

/-- After `t` swaps: the rows of the class that do not stand in front are among the decodes whose
turn is still to come, and the others in front are among the prefills. -/
structure Pending (p : ρ → Bool) (decodes prefills : List ℕ) (t : ℕ) (rows : List ρ) : Prop where
  count : rows.countP p = decodes.length
  in_front : ∀ k r, rows[k]? = some r → p r = true →
    k < decodes.length ∨ k ∈ decodes.take (decodes.length - t)
  at_back : ∀ k r, rows[k]? = some r → p r = false → decodes.length ≤ k ∨ k ∈ prefills.drop t
  decode : ∀ k ∈ decodes.take (decodes.length - t), ∃ r, rows[k]? = some r ∧ p r = true
  prefill : ∀ k ∈ prefills.drop t, ∃ r, rows[k]? = some r ∧ p r = false

namespace Pending

theorem cut_of_front (h : Pending p decodes prefills t rows)
    (hfront : ∀ k r, rows[k]? = some r → p r = true → k < decodes.length) :
    Cut p decodes.length rows := by
  rw [← h.count] at hfront ⊢
  apply Cut.of_back
  intro r hr
  obtain ⟨k, hk⟩ := getElem?_of_mem hr
  rw [getElem?_drop] at hk
  by_contra hp
  have := hfront _ r hk (eq_true_of_ne_false hp)
  omega

theorem cut_of_back (h : Pending p decodes prefills t rows)
    (hback : ∀ k r, rows[k]? = some r → p r = false → decodes.length ≤ k) :
    Cut p decodes.length rows := by
  rw [← h.count] at hback ⊢
  apply Cut.of_front
  intro r hr
  obtain ⟨k, hk⟩ := getElem?_of_mem hr
  have hlt : k < rows.countP p := by
    have hlen := (List.getElem?_eq_some_iff.mp hk).1
    rwa [Cut.length_take] at hlen
  rw [getElem?_take_of_lt hlt] at hk
  by_contra hp
  have := hback k r hk (Bool.eq_false_iff.mpr hp)
  omega

/-- When the turn is with a decode in front, all the decodes that are left stand in front. -/
theorem finished (h : Pending p decodes prefills t rows) (hsorted : decodes.Pairwise (· < ·))
    {d : ℕ} (hd : decodes[decodes.length - (t + 1)]? = some d) (hlt : d < decodes.length) :
    Cut p decodes.length rows := by
  apply h.cut_of_front
  intro k r hk hp
  rcases h.in_front k r hk hp with hfront | hleft
  · exact hfront
  obtain ⟨j, hj⟩ := getElem?_of_mem hleft
  have hjlt : j < decodes.length - t := by
    have := (List.getElem?_eq_some_iff.mp hj).1
    rw [List.length_take] at this
    omega
  rw [getElem?_take_of_lt hjlt] at hj
  -- the turn goes downwards, so the decodes that are left have lower indices
  rcases Nat.lt_or_ge j (decodes.length - (t + 1)) with hbefore | hat
  · obtain ⟨hj', rfl⟩ := List.getElem?_eq_some_iff.mp hj
    obtain ⟨hd', rfl⟩ := List.getElem?_eq_some_iff.mp hd
    have := pairwise_iff_getElem.mp hsorted _ _ hj' hd' hbefore
    omega
  · have hsame : j = decodes.length - (t + 1) := by omega
    rw [hsame, hd] at hj
    rwa [← Option.some.inj hj]

/-- The first prefill whose turn it is stands in front when the decode stands at the back. -/
theorem prefill_lt (h : Pending p decodes prefills t rows) (hsorted : prefills.Pairwise (· < ·))
    {d q : ℕ} {row : ρ} (hd : rows[d]? = some row) (hp : p row = true) (hback : decodes.length ≤ d)
    (hq : prefills[t]? = some q) : q < decodes.length := by
  by_contra hge
  have hcut : Cut p decodes.length rows := by
    apply h.cut_of_back
    intro k r hk hpk
    rcases h.at_back k r hk hpk with hback | hleft
    · exact hback
    -- the prefills that are left are not before `q`
    obtain ⟨j, hj⟩ := getElem?_of_mem hleft
    rw [getElem?_drop] at hj
    obtain ⟨hj', rfl⟩ := List.getElem?_eq_some_iff.mp hj
    obtain ⟨hq', rfl⟩ := List.getElem?_eq_some_iff.mp hq
    rcases Nat.eq_zero_or_pos j with rfl | hpos
    · exact Nat.le_of_not_lt hge
    · have := pairwise_iff_getElem.mp hsorted t (t + j) hq' hj' (by omega)
      omega
  have hmem : row ∈ rows.drop decodes.length := by
    apply mem_of_getElem? (i := d - decodes.length)
    rw [getElem?_drop, Nat.add_sub_cancel' hback, hd]
  exact Bool.false_ne_true ((hcut.back row hmem).symm.trans hp)

theorem getElem?_swapped {q d : ℕ} {a b : ρ} (hq : rows[q]? = some a) (hd : rows[d]? = some b)
    (k : ℕ) : ((rows.set q b).set d a)[k]? =
      if k = d then some a else if k = q then some b else rows[k]? := by
  obtain ⟨-, -⟩ := List.getElem?_eq_some_iff.mp hq
  obtain ⟨-, -⟩ := List.getElem?_eq_some_iff.mp hd
  grind

/-- One swap settles the decode and the prefill whose turn it is. -/
theorem swapped (h : Pending p decodes prefills t rows) (hdecodes : decodes.Pairwise (· < ·))
    (hprefills : prefills.Pairwise (· < ·)) {q d : ℕ} {a b : ρ} (ht : t < decodes.length)
    (hd : decodes[decodes.length - (t + 1)]? = some d) (hback : decodes.length ≤ d)
    (hq : prefills[t]? = some q) (ha : rows[q]? = some a) (hb : rows[d]? = some b)
    (hpa : p a = false) (hpb : p b = true) :
    Pending p decodes prefills (t + 1) ((rows.set q b).set d a) := by
  have hqlt := h.prefill_lt hprefills hb hpb hback hq
  have hget := getElem?_swapped ha hb
  -- The decode and the prefill whose turn it is leave the two lists of pending rows.
  have htake : decodes.take (decodes.length - t) =
      decodes.take (decodes.length - (t + 1)) ++ [d] := by
    rw [show decodes.length - t = decodes.length - (t + 1) + 1 from by omega, take_add_one, hd]
    rfl
  have hdrop : prefills.drop t = q :: prefills.drop (t + 1) := by
    obtain ⟨hlt, rfl⟩ := List.getElem?_eq_some_iff.mp hq
    exact drop_eq_getElem_cons hlt
  -- The lists are increasing, so the rows that stay pending lie on the far sides of the two.
  have hdnot : ∀ k ∈ decodes.take (decodes.length - (t + 1)), k < d := by
    have hpw : (decodes.take (decodes.length - t)).Pairwise (· < ·) := hdecodes.take
    rw [htake, pairwise_append] at hpw
    exact fun k hk => hpw.2.2 k hk d (mem_singleton.mpr rfl)
  have hqnot : ∀ k ∈ prefills.drop (t + 1), q < k := by
    have hpw : (prefills.drop t).Pairwise (· < ·) := hprefills.drop
    rw [hdrop, pairwise_cons] at hpw
    exact hpw.1
  constructor
  case count =>
    obtain ⟨hqlen, rfl⟩ := List.getElem?_eq_some_iff.mp ha
    obtain ⟨hdlen, rfl⟩ := List.getElem?_eq_some_iff.mp hb
    rw [← h.count]
    exact (set_set_perm hqlen hdlen).countP_eq p
  case in_front =>
    intro k r hk hp
    rw [hget] at hk
    split_ifs at hk with hkd hkq
    · rw [← Option.some.inj hk, hpa] at hp
      cases hp
    · exact .inl (hkq ▸ hqlt)
    · rcases h.in_front k r hk hp with hlt | hleft
      · exact .inl hlt
      · rw [htake, mem_append, mem_singleton] at hleft
        exact .inr (hleft.resolve_right hkd)
  case at_back =>
    intro k r hk hp
    rw [hget] at hk
    split_ifs at hk with hkd hkq
    · exact .inl (hkd ▸ hback)
    · rw [← Option.some.inj hk, hpb] at hp
      cases hp
    · rcases h.at_back k r hk hp with hle | hleft
      · exact .inl hle
      · rw [hdrop, mem_cons] at hleft
        exact .inr (hleft.resolve_left hkq)
  case decode =>
    intro k hk
    obtain ⟨r, hr, hp⟩ := h.decode k (htake ▸ mem_append_left _ hk)
    have hkq : k ≠ q := by
      rintro rfl
      rw [ha] at hr
      rw [← Option.some.inj hr, hpa] at hp
      cases hp
    refine ⟨r, ?_, hp⟩
    rw [hget, if_neg (Nat.ne_of_lt (hdnot k hk)), if_neg hkq, hr]
  case prefill =>
    intro k hk
    obtain ⟨r, hr, hp⟩ := h.prefill k (hdrop ▸ mem_cons_of_mem _ hk)
    have hkd : k ≠ d := by
      rintro rfl
      rw [hb] at hr
      rw [← Option.some.inj hr, hpb] at hp
      cases hp
    refine ⟨r, ?_, hp⟩
    rw [hget, if_neg hkd, if_neg (Nat.ne_of_gt (hqnot k hk)), hr]

end Pending

/-- What the loop leaves. The calls that it made lead from the rows it was given to the rows it
returns, and the flag tells whether there were any. -/
structure Reordered (p : ρ → Bool) (n : ℕ) (batch result : Reordering ρ) : Prop where
  cut : Cut p n result.rows
  perm : result.rows.Perm batch.rows
  swaps : ∃ swaps, result.swaps = batch.swaps ++ swaps ∧
    swaps.foldlM (fun rows swap => swapStates rows swap.1 swap.2) batch.rows = .ok result.rows ∧
    (result.modifiedBatch = true ↔ batch.modifiedBatch = true ∨ swaps ≠ [])

/-- The loop returns, and the decodes come first. -/
theorem swapLoop_spec (hdecodes : decodes.Pairwise (· < ·)) (hprefills : prefills.Pairwise (· < ·))
    {left : ℕ} (hleft : t + left = min decodes.length prefills.length) (batch : Reordering ρ)
    (h : Pending p decodes prefills t batch.rows) :
    ∃ result, swapLoop decodes prefills (List.range' (t + 1) left) batch = .ok result ∧
      Reordered p decodes.length batch result := by
  induction left generalizing t batch with
  | zero =>
    refine ⟨batch, rfl, ?_, .refl _, [], (append_nil _).symm, rfl, by simp⟩
    -- one of the two lists has been used up
    rcases Nat.le_total decodes.length prefills.length with hle | hle
    · have hend : decodes.length - t = 0 := by omega
      apply h.cut_of_front
      intro k r hk hp
      have hfront := h.in_front k r hk hp
      rw [hend, take_zero] at hfront
      exact hfront.resolve_right not_mem_nil
    · have hend : prefills.length ≤ t := by omega
      apply h.cut_of_back
      intro k r hk hp
      have hback := h.at_back k r hk hp
      rw [drop_eq_nil_of_le hend] at hback
      exact hback.resolve_right not_mem_nil
  | succ left ih =>
    have hdlt : decodes.length - (t + 1) < decodes.length := by omega
    have hqlt : t < prefills.length := by omega
    have hd := getElem?_eq_getElem hdlt
    have hq := getElem?_eq_getElem hqlt
    rw [range'_succ]
    by_cases hfront : decodes[decodes.length - (t + 1)] < decodes.length
    · rw [swapLoop_stop hd hfront]
      exact ⟨batch, rfl, h.finished hdecodes hd hfront, .refl _, [], (append_nil _).symm, rfl,
        by simp⟩
    · obtain ⟨a, ha, hpa⟩ := h.prefill prefills[t] (by
        rw [drop_eq_getElem_cons hqlt]
        exact mem_cons_self)
      obtain ⟨b, hb, hpb⟩ := h.decode decodes[decodes.length - (t + 1)] (by
        apply mem_of_getElem? (i := decodes.length - (t + 1))
        rw [getElem?_take_of_lt (by omega), hd])
      have hswapped := h.swapped hdecodes hprefills (by omega) hd (Nat.le_of_not_lt hfront) hq ha
        hb hpa hpb
      have hswap := swapStates_eq_ok ha hb
      rw [swapLoop_swap hd hfront hq hswap]
      obtain ⟨result, hloop, hresult⟩ := ih (t := t + 1) (by omega) ⟨_, _, _⟩ hswapped
      obtain ⟨swaps, hlog, hfold, hflag⟩ := hresult.swaps
      refine ⟨result, hloop, hresult.cut, ?_,
        (prefills[t], decodes[decodes.length - (t + 1)]) :: swaps, ?_, ?_, ?_⟩
      · obtain ⟨hqlen, rfl⟩ := List.getElem?_eq_some_iff.mp ha
        obtain ⟨hdlen, rfl⟩ := List.getElem?_eq_some_iff.mp hb
        exact hresult.perm.trans (set_set_perm hqlen hdlen)
      · rw [hlog, append_assoc, singleton_append]
      · exact Fallible.foldlM_cons_eq_ok.mpr ⟨_, hswap, hfold⟩
      · simp [hflag]

end Swaps

/-! ### The classes -/

section Classes

variable (numScheduledTokens : ρ → ℕ) (decodeThreshold : ℕ)

def isDecode (r : ρ) : Bool :=
  decide (numScheduledTokens r ≤ decodeThreshold)

theorem isDecode_eq_true {r : ρ} : isDecode numScheduledTokens decodeThreshold r = true ↔
    numScheduledTokens r ≤ decodeThreshold :=
  decide_eq_true_iff

theorem isDecode_eq_false {r : ρ} : isDecode numScheduledTokens decodeThreshold r = false ↔
    decodeThreshold < numScheduledTokens r :=
  decide_eq_false_iff_not.trans Nat.not_le

/-- The two lists have the indices of the two classes, in ascending order. -/
structure Classified (p : ρ → Bool) (rows : List ρ) (c : Classes) : Prop where
  decodes_sorted : c.decodes.Pairwise (· < ·)
  prefills_sorted : c.prefills.Pairwise (· < ·)
  mem_decodes : ∀ k, k ∈ c.decodes ↔ ∃ r, rows[k]? = some r ∧ p r = true
  mem_prefills : ∀ k, k ∈ c.prefills ↔ ∃ r, rows[k]? = some r ∧ p r = false
  length_decodes : c.decodes.length = rows.countP p

theorem classify_append (rows : List ρ) (r : ρ) :
    classify numScheduledTokens decodeThreshold (rows ++ [r]) =
      (classify numScheduledTokens decodeThreshold rows).add numScheduledTokens decodeThreshold
        (r, rows.length) := by
  unfold classify
  rw [zipIdx_append, foldl_append, zero_add]
  rfl

theorem lt_length_of_getElem? {rows : List ρ} {k : ℕ} {q : ρ → Prop}
    (h : ∃ r, rows[k]? = some r ∧ q r) : k < rows.length := by
  obtain ⟨r, hr, -⟩ := h
  exact (List.getElem?_eq_some_iff.mp hr).1

theorem exists_getElem?_append {rows : List ρ} {r : ρ} {k : ℕ} {q : ρ → Prop} :
    (∃ r', (rows ++ [r])[k]? = some r' ∧ q r') ↔
      (∃ r', rows[k]? = some r' ∧ q r') ∨ k = rows.length ∧ q r := by
  rcases Nat.lt_trichotomy k rows.length with hlt | rfl | hgt
  · rw [getElem?_append_left hlt]
    exact ⟨.inl, fun h => h.resolve_right fun h => Nat.ne_of_lt hlt h.1⟩
  · simp
  · rw [getElem?_eq_none (by simp; omega), getElem?_eq_none (Nat.le_of_lt hgt)]
    simp [Nat.ne_of_gt hgt]

theorem classified_classify (rows : List ρ) :
    Classified (isDecode numScheduledTokens decodeThreshold) rows
      (classify numScheduledTokens decodeThreshold rows) := by
  induction rows using List.reverseRecOn with
  | nil => exact ⟨.nil, .nil, by simp [classify], by simp [classify], rfl⟩
  | append_singleton rows r ih =>
    rw [classify_append]
    have hdlt := fun k hk => lt_length_of_getElem? ((ih.mem_decodes k).mp hk)
    have hqlt := fun k hk => lt_length_of_getElem? ((ih.mem_prefills k).mp hk)
    by_cases hle : numScheduledTokens r ≤ decodeThreshold
    · have hp := (isDecode_eq_true numScheduledTokens decodeThreshold).mpr hle
      simp only [Classes.add, if_pos hle]
      constructor
      case decodes_sorted => exact pairwise_append.mpr ⟨ih.decodes_sorted,
        pairwise_singleton _ _, by simpa using hdlt⟩
      case prefills_sorted => exact ih.prefills_sorted
      case mem_decodes => simp [exists_getElem?_append, ih.mem_decodes, hp]
      case mem_prefills => simp [exists_getElem?_append, ih.mem_prefills, hp]
      case length_decodes => simp [ih.length_decodes, hp]
    · have hp := (isDecode_eq_false numScheduledTokens decodeThreshold).mpr (Nat.lt_of_not_le hle)
      simp only [Classes.add, if_neg hle]
      constructor
      case decodes_sorted => exact ih.decodes_sorted
      case prefills_sorted => exact pairwise_append.mpr ⟨ih.prefills_sorted,
        pairwise_singleton _ _, by simpa using hqlt⟩
      case mem_decodes => simp [exists_getElem?_append, ih.mem_decodes, hp]
      case mem_prefills => simp [exists_getElem?_append, ih.mem_prefills, hp]
      case length_decodes => simp [ih.length_decodes, hp]

/-- Before the first swap all is still to be done. -/
theorem Classified.pending {p : ρ → Bool} {rows : List ρ} {c : Classes}
    (h : Classified p rows c) : Pending p c.decodes c.prefills 0 rows where
  count := h.length_decodes.symm
  in_front k r hk hp := .inr (by
    rw [Nat.sub_zero, take_length]
    exact (h.mem_decodes k).mpr ⟨r, hk, hp⟩)
  at_back k r hk hp := .inr ((h.mem_prefills k).mpr ⟨r, hk, hp⟩)
  decode k hk := (h.mem_decodes k).mp (mem_of_mem_take hk)
  prefill k hk := (h.mem_prefills k).mp hk

end Classes

/-! ### Reading the boundary -/

theorem queryLens_cumsumFrom (start : ℕ) (tokens : List ℕ) :
    queryLens ((start : ℤ) :: (Ragged.cumsumFrom start tokens).map (↑)) =
      tokens.map ((↑) : ℕ → ℤ) := by
  induction tokens generalizing start with
  | nil => rfl
  | cons n tokens ih =>
    have hrest := ih (start + n)
    unfold queryLens at hrest ⊢
    rw [Ragged.cumsumFrom, map_cons, tail_cons, dropLast_cons_cons,
      zipWith_cons_cons, map_cons]
    rw [tail_cons] at hrest
    rw [hrest, natCast_add, add_sub_cancel_left]

variable {tokens : List ℕ}

theorem getElem?_cumsumFrom_cons (start : ℕ) {i : ℕ} (h : i ≤ tokens.length) :
    (start :: Ragged.cumsumFrom start tokens)[i]? = some (start + (tokens.take i).sum) := by
  induction tokens generalizing start i with
  | nil =>
    obtain rfl := Nat.le_zero.mp h
    rfl
  | cons n tokens ih =>
    cases i with
    | zero => rfl
    | succ i =>
      rw [getElem?_cons_succ, Ragged.cumsumFrom, ih _ (Nat.le_of_succ_le_succ h),
        take_succ_cons, sum_cons, add_assoc]

section Boundary

variable {numScheduledTokens : ρ → ℕ} {decodeThreshold : ℕ} {rows : List ρ}

/-- The numbers that belong to the two classes of a batch. -/
def boundaryOf (numScheduledTokens : ρ → ℕ) (decodeThreshold : ℕ) (rows : List ρ) : Boundary :=
  let decodes := rows.filter (isDecode numScheduledTokens decodeThreshold)
  let prefills := rows.filter (!isDecode numScheduledTokens decodeThreshold ·)
  ⟨decodes.length, prefills.length, (decodes.map numScheduledTokens).sum,
    (prefills.map numScheduledTokens).sum⟩

theorem boundaryOf_perm {rows' : List ρ} (h : rows'.Perm rows) :
    boundaryOf numScheduledTokens decodeThreshold rows' =
      boundaryOf numScheduledTokens decodeThreshold rows := by
  unfold boundaryOf
  dsimp only
  rw [(h.filter _).length_eq, (h.filter _).length_eq, ((h.filter _).map _).sum_eq,
    ((h.filter _).map _).sum_eq]

/-- A batch of decodes has the whole batch in front. -/
theorem boundaryOf_of_decodes (h : ∀ r ∈ rows, numScheduledTokens r ≤ decodeThreshold) :
    boundaryOf numScheduledTokens decodeThreshold rows =
      ⟨rows.length, 0, (rows.map numScheduledTokens).sum, 0⟩ := by
  have hall : rows.filter (isDecode numScheduledTokens decodeThreshold) = rows :=
    filter_eq_self.mpr fun r hr =>
      (isDecode_eq_true numScheduledTokens decodeThreshold).mpr (h r hr)
  have hnone : rows.filter (!isDecode numScheduledTokens decodeThreshold ·) = [] :=
    filter_eq_nil_iff.mpr fun r hr => by
      simp [(isDecode_eq_true numScheduledTokens decodeThreshold).mpr (h r hr)]
  unfold boundaryOf
  rw [hall, hnone]
  rfl

theorem queryStartLoc_ofTokens (tokens : List ℕ) {i : ℕ} (h : i ≤ tokens.length) :
    (CommonAttentionMetadata.ofTokens tokens).queryStartLocCpu[i]? =
      some ((tokens.take i).sum : ℤ) := by
  have hget := congrArg (Option.map ((↑) : ℕ → ℤ)) (getElem?_cumsumFrom_cons 0 h)
  rw [← getElem?_map, map_cons, zero_add] at hget
  exact hget

section

variable {n : ℕ} (h : Cut (isDecode numScheduledTokens decodeThreshold) n rows)
include h

/-- The first prefill is where the batch is cut. -/
theorem findIdx_isPrefill (hn : n < rows.length) :
    (((rows.map numScheduledTokens).map ((↑) : ℕ → ℤ)).map
      fun len => decide ((decodeThreshold : ℤ) < len)).findIdx id = n := by
  rw [findIdx_map, findIdx_map, findIdx_map, findIdx_eq hn]
  have hback := h.back rows[n] (by
    rw [drop_eq_getElem_cons hn]
    exact mem_cons_self)
  refine ⟨?_, fun j hj => ?_⟩
  · exact decide_eq_true (ofNat_lt.mpr ((isDecode_eq_false _ _).mp hback))
  · have hfront := h.front rows[j] (mem_of_getElem? (i := j) (by
      rw [getElem?_take_of_lt hj, getElem?_eq_getElem]))
    exact decide_eq_false (Int.not_lt.mpr (ofNat_le.mpr ((isDecode_eq_true _ _).mp hfront)))

/-- In a batch that is cut the boundary is found, and no assertion is tripped. -/
theorem splitDecodesAndPrefills_spec :
    splitDecodesAndPrefills (.ofTokens (rows.map numScheduledTokens)) decodeThreshold =
      .ok (boundaryOf numScheduledTokens decodeThreshold rows) := by
  have hlens : queryLens (CommonAttentionMetadata.ofTokens
      (rows.map numScheduledTokens)).queryStartLocCpu =
        (rows.map numScheduledTokens).map ((↑) : ℕ → ℤ) := queryLens_cumsumFrom 0 _
  unfold splitDecodesAndPrefills
  rw [hlens]
  by_cases hn : n < rows.length
  · -- There is a prefill: the early return is not taken, and the first prefill is at `n`.
    have hfind := findIdx_isPrefill h hn
    have hback : ∀ r ∈ rows.drop n, decodeThreshold < numScheduledTokens r := fun r hr =>
      (isDecode_eq_false _ _).mp (h.back r hr)
    have hfront : ∀ r ∈ rows.take n, numScheduledTokens r ≤ decodeThreshold := fun r hr =>
      (isDecode_eq_true _ _).mp (h.front r hr)
    have hlast := hback rows[n] (by
      rw [drop_eq_getElem_cons hn]
      exact mem_cons_self)
    have hmax : ¬ (CommonAttentionMetadata.ofTokens (rows.map numScheduledTokens)).maxQueryLen ≤
        decodeThreshold := by
      intro hle
      have hmem := mem_map_of_mem (f := numScheduledTokens) (getElem_mem hn)
      exact Nat.not_le_of_lt hlast (Nat.le_trans (le_max_of_le' 0 hmem le_rfl) (ofNat_le.mp hle))
    have hany : ¬ (((rows.map numScheduledTokens).map ((↑) : ℕ → ℤ)).map
        fun len => decide ((decodeThreshold : ℤ) < len)).any id = false := by
      simp only [any_map, Bool.not_eq_false, any_eq_true]
      exact ⟨rows[n], getElem_mem hn, decide_eq_true (ofNat_lt.mpr hlast)⟩
    have hdrop : ∀ len ∈ (((rows.map numScheduledTokens).map ((↑) : ℕ → ℤ))).drop n,
        (decodeThreshold : ℤ) < len := by
      rw [← map_drop, ← map_drop]
      exact forall_mem_map.mpr (forall_mem_map.mpr fun r hr =>
        ofNat_lt.mpr (hback r hr))
    have htake : ∀ len ∈ (((rows.map numScheduledTokens).map ((↑) : ℕ → ℤ))).take n,
        len ≤ (decodeThreshold : ℤ) := by
      rw [← List.map_take, ← List.map_take]
      exact forall_mem_map.mpr (forall_mem_map.mpr fun r hr =>
        ofNat_le.mpr (hfront r hr))
    have hstart := queryStartLoc_ofTokens (rows.map numScheduledTokens) (i := n) (by
      rw [length_map]
      exact Nat.le_of_lt hn)
    rw [if_neg hmax, if_neg hany, hfind, if_neg (not_not_intro hdrop), if_neg (not_not_intro htake),
      orError_eq_ok.mpr hstart]
    -- The start of row `n` is the number of decode tokens; what is left are the prefill tokens.
    have hsum := congrArg (fun xs => (xs.map numScheduledTokens).sum) (take_append_drop n rows)
    rw [map_append, sum_append] at hsum
    unfold boundaryOf
    dsimp only
    rw [← h.take_eq, ← h.drop_eq, length_take_of_le (Nat.le_of_lt hn), length_drop,
      ofNat_sub (Nat.le_of_lt hn), List.map_take]
    have htokens : ((rows.map numScheduledTokens).sum : ℤ) -
        ((rows.map numScheduledTokens).take n).sum =
          ((rows.drop n).map numScheduledTokens).sum := by
      rw [← hsum, List.map_take]
      omega
    change Except.ok (Boundary.mk n (((rows.map numScheduledTokens).length : ℕ) - n) _
      (((rows.map numScheduledTokens).sum : ℕ) - _)) = _
    rw [htokens, length_map]
  · -- Only decodes: the longest query passes the threshold, and the function returns early.
    have hall : ∀ r ∈ rows, numScheduledTokens r ≤ decodeThreshold := by
      intro r hr
      apply (isDecode_eq_true _ _).mp
      apply h.front r
      rwa [take_of_length_le (Nat.le_of_not_lt hn)]
    have hmax : (CommonAttentionMetadata.ofTokens (rows.map numScheduledTokens)).maxQueryLen ≤
        decodeThreshold :=
      ofNat_le.mpr (max_le_of_forall_le _ _ (forall_mem_map.mpr hall))
    rw [if_pos hmax, boundaryOf_of_decodes hall]
    simp [CommonAttentionMetadata.ofTokens]

end

end Boundary

/-! ### The whole reordering -/

/-- The swaps partition the batch: the rows that come out are the rows that went in, and every
request with at most `decode_threshold` tokens stands before every other one. The answer tells
whether there was a swap. The boundary that is read from the metadata of the new batch is the right
one, and its assertions hold. -/
theorem reorder_split_spec (numScheduledTokens : ρ → ℕ) (decodeThreshold : ℕ) (rows : List ρ) :
    ∃ batch, reorderBatchToSplitDecodesAndPrefills numScheduledTokens decodeThreshold rows =
        .ok batch ∧
      batch.rows.Perm rows ∧
      (∀ (i j : ℕ) (r s : ρ), batch.rows[i]? = some r → batch.rows[j]? = some s →
        numScheduledTokens r ≤ decodeThreshold → decodeThreshold < numScheduledTokens s → i < j) ∧
      batch.swaps.foldlM (fun rows swap => swapStates rows swap.1 swap.2) rows = .ok batch.rows ∧
      (batch.modifiedBatch = true ↔ batch.swaps ≠ []) ∧
      splitDecodesAndPrefills (.ofTokens (batch.rows.map numScheduledTokens)) decodeThreshold =
        .ok (boundaryOf numScheduledTokens decodeThreshold rows) := by
  have hclasses := classified_classify numScheduledTokens decodeThreshold rows
  obtain ⟨batch, hloop, hbatch⟩ := swapLoop_spec hclasses.decodes_sorted hclasses.prefills_sorted
    (zero_add _) ⟨rows, [], false⟩ hclasses.pending
  obtain ⟨swaps, hlog, hfold, hflag⟩ := hbatch.swaps
  obtain rfl : batch.swaps = swaps := hlog
  refine ⟨batch, hloop, hbatch.perm, ?_, hfold, ?_, ?_⟩
  · intro i j r s hr hs hle hlt
    exact hbatch.cut.precedes hr hs ((isDecode_eq_true _ _).mpr hle)
      ((isDecode_eq_false _ _).mpr hlt)
  · rw [hflag]
    exact or_iff_right Bool.false_ne_true
  · rw [splitDecodesAndPrefills_spec hbatch.cut, boundaryOf_perm hbatch.perm]

-- two prefills in front of two decodes: the second decode is already in its place
example : (reorderBatchToSplitDecodesAndPrefills id 1 [5, 1, 7, 1]).toOption.map
    (fun batch => (batch.rows, batch.swaps)) = some ([1, 1, 7, 5], [(0, 3)]) := by decide

end Attention
