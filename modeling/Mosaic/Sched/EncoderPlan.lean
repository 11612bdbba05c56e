import Mosaic.Sched.EncoderSlots

/-!
# What is planned for the items of a request

The loop over the items of a request takes those that the next tokens need. Where an item cannot be
taken, the tokens end in front of it, and the items that were taken before end there or earlier. An
item is not to be cut by the end of the tokens if this is disabled, but the test is skipped for an
item that begins at the first of them.
-/

namespace Sched

open List

namespace Scheduler

variable {s : Scheduler} {r : Request} {c n budget : ℤ}

/-- The plan for the items that are left: which of them are taken, how many tokens are scheduled,
and the budget behind them. -/
structure PlanFor (s : Scheduler) (r : Request) (c n budget : ℤ)
    (items : List (Kv.PlaceholderRange × ℕ)) (chosen : List ℕ) (n' budget' : ℤ) : Prop where
  spent : budget' = budget - ((chosen.map r.itemLength).sum : ℕ)
  afford : 0 ≤ budget → 0 ≤ budget'
  fits : ∀ i ∈ chosen, (r.itemLength i : ℤ) ≤ s.encoderCacheManager.numFreeSlots ∧
    (r.itemLength i : ℤ) ≤ budget
  stops : n' = n ∨ n' = 0 ∨ ∃ pos i, (pos, i) ∈ items ∧ c < pos.offset ∧ pos.offset < c + n ∧
    n' = pos.offset - c
  covered : ∀ pos i, (pos, i) ∈ items → ∀ t : ℤ, pos.offset ≤ t → t < pos.offset + pos.length →
    c ≤ t → t < c + n' → i ∈ chosen ∨ i ∈ s.encoderCacheManager.cached r.requestId
  whole : s.config.disableChunkedMmInput = true → ∀ pos i, (pos, i) ∈ items →
    i ∉ s.encoderCacheManager.cached r.requestId → c < pos.offset → pos.offset < c + n' →
    pos.offset + pos.length ≤ c + n'

namespace PlanFor

variable {items : List (Kv.PlaceholderRange × ℕ)} {pos : Kv.PlaceholderRange} {i : ℕ}
  {chosen : List ℕ} {n' budget' : ℤ}

/-- All items that are left begin behind the tokens. -/
theorem stop (hstops : n' = n ∨ n' = 0 ∨ ∃ pos i, (pos, i) ∈ items ∧ c < pos.offset ∧
      pos.offset < c + n ∧ n' = pos.offset - c)
    (hbehind : n' = 0 ∨ ∀ pos i, (pos, i) ∈ items → c + n' ≤ pos.offset) :
    PlanFor s r c n budget items [] n' budget where
  spent := by simp
  afford := id
  fits := nofun
  stops := hstops
  covered pos i hmem t hfrom hto hc ht := by
    rcases hbehind with hzero | hbehind
    · omega
    · have := hbehind pos i hmem
      omega
  whole _ pos i hmem _ hc ht := by
    rcases hbehind with hzero | hbehind
    · omega
    · have := hbehind pos i hmem
      omega

/-- An item that is consumed or cached is passed over. -/
theorem skip (h : PlanFor s r c n budget items chosen n' budget')
    (hskip : ((pos.offset + pos.length : ℕ) : ℤ) ≤ c ∨
      i ∈ s.encoderCacheManager.cached r.requestId) :
    PlanFor s r c n budget ((pos, i) :: items) chosen n' budget' where
  spent := h.spent
  afford := h.afford
  fits := h.fits
  stops := by
    rcases h.stops with hsame | hzero | ⟨pos, i, hmem, hfacts⟩
    · exact .inl hsame
    · exact .inr (.inl hzero)
    · exact .inr (.inr ⟨pos, i, mem_cons_of_mem _ hmem, hfacts⟩)
  covered pos' j hmem t hfrom hto hc ht := by
    rcases mem_cons.mp hmem with heq | hrest
    · obtain ⟨rfl, rfl⟩ := Prod.mk.inj heq
      rcases hskip with hconsumed | hcached
      · omega
      · exact .inr hcached
    · exact h.covered pos' j hrest t hfrom hto hc ht
  whole hdisable pos' j hmem hnew hc ht := by
    rcases mem_cons.mp hmem with heq | hrest
    · obtain ⟨rfl, rfl⟩ := Prod.mk.inj heq
      rcases hskip with hconsumed | hcached
      · omega
      · exact absurd hcached hnew
    · exact h.whole hdisable pos' j hrest hnew hc ht

/-- An item is taken. The tokens end at its end or behind it. -/
theorem take (hlength : r.itemLength i = pos.length)
    (hsorted : ∀ q ∈ items, pos.offset + pos.length ≤ q.1.offset)
    (hwhole : s.config.disableChunkedMmInput = true → c < pos.offset →
      pos.offset + pos.length ≤ c + n)
    (hfree : (pos.length : ℤ) ≤ s.encoderCacheManager.numFreeSlots)
    (hbudget : (pos.length : ℤ) ≤ budget)
    (h : PlanFor s r c n (budget - pos.length) items chosen n' budget') :
    PlanFor s r c n budget ((pos, i) :: items) (i :: chosen) n' budget' where
  spent := by
    have hspent := h.spent
    rw [map_cons, sum_cons, hlength, Nat.cast_add]
    omega
  afford _ := h.afford (by omega)
  fits j hj := by
    rcases mem_cons.mp hj with rfl | hrest
    · rw [hlength]
      exact ⟨hfree, hbudget⟩
    · have := h.fits j hrest
      exact ⟨this.1, by omega⟩
  stops := by
    rcases h.stops with hsame | hzero | ⟨pos, i, hmem, hfacts⟩
    · exact .inl hsame
    · exact .inr (.inl hzero)
    · exact .inr (.inr ⟨pos, i, mem_cons_of_mem _ hmem, hfacts⟩)
  covered pos' j hmem t hfrom hto hc ht := by
    rcases mem_cons.mp hmem with heq | hrest
    · obtain ⟨rfl, rfl⟩ := Prod.mk.inj heq
      exact .inl mem_cons_self
    · exact (h.covered pos' j hrest t hfrom hto hc ht).imp_left (mem_cons_of_mem _)
  whole hdisable pos' j hmem hnew hc ht := by
    rcases mem_cons.mp hmem with heq | hrest
    · obtain ⟨rfl, rfl⟩ := Prod.mk.inj heq
      rcases h.stops with rfl | rfl | ⟨q, k, hq, -, -, rfl⟩
      · exact hwhole hdisable hc
      · omega
      · have hend : pos'.offset + pos'.length ≤ q.offset := hsorted (q, k) hq
        omega
    · exact h.whole hdisable pos' j hrest hnew hc ht

end PlanFor

theorem canAllocate_eq_ok {i : ℕ} {pos : Kv.PlaceholderRange}
    (hpos : r.mmPositions[i]? = some pos) :
    s.encoderCacheManager.canAllocate r i =
      .ok (decide ((pos.length : ℤ) ≤ s.encoderCacheManager.numFreeSlots)) := by
  rw [EncoderCacheManager.canAllocate, Request.getNumEncoderTokens, hpos]
  rfl

/-- The items in their order, none of which begins before the end of an earlier one. -/
def SortedItems (items : List (Kv.PlaceholderRange × ℕ)) : Prop :=
  items.Pairwise fun p q => p.1.offset + p.1.length ≤ q.1.offset

/-- What the loop over the items plans. -/
theorem encoderLoop_plan {items : List (Kv.PlaceholderRange × ℕ)}
    (hpositions : ∀ pos i, (pos, i) ∈ items → r.mmPositions[i]? = some pos)
    (hsorted : SortedItems items) (taken : List ℕ) :
    ∃ chosen n' budget', s.encoderLoop r c items taken n budget =
      .ok (taken ++ chosen, n', budget') ∧ PlanFor s r c n budget items chosen n' budget' := by
  -- where the loop ends, nothing more is taken
  have hend : ∀ {items : List (Kv.PlaceholderRange × ℕ)} {taken : List ℕ} {n' budget : ℤ},
      PlanFor s r c n budget items [] n' budget →
      ∃ chosen n'' budget', (Except.ok (taken, n', budget) : Except SchedulerError _) =
        .ok (taken ++ chosen, n'', budget') ∧
        PlanFor s r c n budget items chosen n'' budget' := by
    intro items taken n' budget h
    exact ⟨[], n', budget, by rw [append_nil], h⟩
  induction items generalizing taken budget with
  | nil => exact hend (.stop (.inl rfl) (.inr nofun))
  | cons item rest ih =>
    obtain ⟨pos, i⟩ := item
    obtain ⟨hfirst, hrest⟩ := pairwise_cons.mp hsorted
    have hpos := hpositions pos i mem_cons_self
    have hlength : r.itemLength i = pos.length := by
      rw [Request.itemLength, hpos]
      rfl
    have hlater := fun q j hj => hpositions q j (mem_cons_of_mem _ hj)
    -- all items begin at the first one or behind it
    have hbehind : ∀ q j, (q, j) ∈ (pos, i) :: rest → (pos.offset : ℤ) ≤ q.offset := by
      intro q j hq
      rcases mem_cons.mp hq with heq | hq
      · obtain ⟨rfl, -⟩ := Prod.mk.inj heq
        exact le_rfl
      · have hend : pos.offset + pos.length ≤ q.offset := hfirst (q, j) hq
        omega
    have hfront : c < pos.offset → ¬ c + n ≤ pos.offset →
        PlanFor s r c n budget ((pos, i) :: rest) [] (pos.offset - c) budget := by
      intro hc hn
      refine .stop (.inr (.inr ⟨pos, i, mem_cons_self, hc, by omega, rfl⟩)) (.inr ?_)
      intro q j hq
      have := hbehind q j hq
      omega
    rw [encoderLoop]
    split
    · rename_i hout
      refine hend (.stop (.inl rfl) (.inr fun q j hq => ?_))
      have := hbehind q j hq
      omega
    · rename_i hbegun
      split
      · rename_i hconsumed
        obtain ⟨chosen, n', budget', hok, hplan⟩ := ih hlater hrest taken
        exact ⟨chosen, n', budget', hok, hplan.skip (.inl hconsumed)⟩
      · split
        · rename_i hcached
          obtain ⟨chosen, n', budget', hok, hplan⟩ := ih hlater hrest taken
          exact ⟨chosen, n', budget', hok, hplan.skip (.inr (of_decide_eq_true hcached))⟩
        · split
          · rename_i hcut
            exact hend (hfront hcut.2.1 hbegun)
          · rename_i hwhole
            rw [canAllocate_eq_ok hpos]
            dsimp only
            split
            · split
              · rename_i hc
                exact hend (hfront hc hbegun)
              · exact hend (.stop (.inr (.inl rfl)) (.inl rfl))
            · rename_i hroom
              rw [not_or, not_lt, Bool.not_eq_false, decide_eq_true_eq] at hroom
              obtain ⟨chosen, n', budget', hok, hplan⟩ := ih hlater hrest (taken ++ [i])
              refine ⟨i :: chosen, n', budget', by rw [hok, append_assoc]; rfl, ?_⟩
              refine .take hlength hfirst (fun hdisable hc => ?_) hroom.1 hroom.2 hplan
              by_contra hlt
              exact hwhole ⟨hdisable, hc, by omega⟩

/-- An item that begins at the first token and is longer than the tokens is taken if it fits, and
the tokens are scheduled as they are. -/
theorem encoderLoop_keeps {items : List (Kv.PlaceholderRange × ℕ)}
    (hpositions : ∀ pos i, (pos, i) ∈ items → r.mmPositions[i]? = some pos)
    (hsorted : SortedItems items) (hn : 0 < n) {pos : Kv.PlaceholderRange} {i : ℕ}
    (hmem : (pos, i) ∈ items) (hstart : (pos.offset : ℤ) = c) (hlong : n < pos.length)
    (hnew : i ∉ s.encoderCacheManager.cached r.requestId)
    (hfree : (pos.length : ℤ) ≤ s.encoderCacheManager.numFreeSlots)
    (hbudget : (pos.length : ℤ) ≤ budget) (taken : List ℕ) :
    ∃ inputs budget', s.encoderLoop r c items taken n budget = .ok (inputs, n, budget') := by
  induction items with
  | nil => cases hmem
  | cons item rest ih =>
    obtain ⟨q, j⟩ := item
    obtain ⟨hfirst, hrest⟩ := pairwise_cons.mp hsorted
    have hlater := fun q j hj => hpositions q j (mem_cons_of_mem _ hj)
    rw [encoderLoop]
    rcases mem_cons.mp hmem with heq | hin
    · obtain ⟨rfl, rfl⟩ := Prod.mk.inj heq
      have hcached : s.encoderCacheManager.hasCache r i = false := decide_eq_false hnew
      rw [if_neg (by omega), if_neg (by omega), hcached, if_neg Bool.false_ne_true,
        if_neg (by omega), canAllocate_eq_ok (hpositions pos i mem_cons_self)]
      dsimp only
      rw [if_neg (by simp [hfree, hbudget])]
      -- the items behind it begin behind the tokens
      cases rest with
      | nil => exact ⟨_, _, rfl⟩
      | cons next rest =>
        obtain ⟨q, k⟩ := next
        have hend : pos.offset + pos.length ≤ q.offset := hfirst (q, k) mem_cons_self
        rw [encoderLoop, if_pos (by omega)]
        exact ⟨_, _, rfl⟩
    · have hend : q.offset + q.length ≤ pos.offset := hfirst (pos, i) hin
      rw [if_neg (by omega), if_pos (by omega)]
      exact ih hlater hrest hin

/-! ### The whole plan -/

/-- The next tokens of a request: there are enough outputs of the encoder for them, and no item that
begins among them is cut if this is disabled. -/
structure SoundPlan (s : Scheduler) (r : Request) (numComputedTokens numNewTokens budget : ℤ)
    (inputs : List ℕ) (n budget' : ℤ) : Prop where
  nonneg : 0 ≤ n
  le : n ≤ numNewTokens
  spent : budget' = budget - ((inputs.map r.itemLength).sum : ℕ)
  afford : 0 ≤ budget'
  covered : ∀ pos i, r.mmPositions[i]? = some pos →
    (∃ t : ℤ, pos.offset ≤ t ∧ t < pos.offset + pos.length ∧ numComputedTokens ≤ t ∧
      t < numComputedTokens + n) →
    i ∈ inputs ∨ i ∈ s.encoderCacheManager.cached r.requestId
  whole : s.config.disableChunkedMmInput = true → ∀ pos i, r.mmPositions[i]? = some pos →
    i ∉ s.encoderCacheManager.cached r.requestId → numComputedTokens ≤ pos.offset →
    pos.offset < numComputedTokens + n → pos.offset + pos.length ≤ numComputedTokens + n

/-- An item that begins at the first token, is longer than the tokens, and fits. -/
def CutAtStart (s : Scheduler) (r : Request) (numComputedTokens numNewTokens budget : ℤ) : Prop :=
  s.config.disableChunkedMmInput = true ∧ ∃ pos i, r.mmPositions[i]? = some pos ∧
    i ∉ s.encoderCacheManager.cached r.requestId ∧ (pos.offset : ℤ) = numComputedTokens ∧
    numNewTokens < pos.length ∧ (pos.length : ℤ) ≤ s.encoderCacheManager.numFreeSlots ∧
    (pos.length : ℤ) ≤ budget

/-- An item that begins in front of another ends in front of it. -/
theorem end_le_of_lt {positions : List Kv.PlaceholderRange}
    (hsorted : positions.Pairwise fun p q => p.offset + p.length ≤ q.offset)
    {p q : Kv.PlaceholderRange} {i k : ℕ} (hp : positions[i]? = some p)
    (hq : positions[k]? = some q) (hlt : p.offset < q.offset) : p.offset + p.length ≤ q.offset := by
  obtain ⟨hi, rfl⟩ := List.getElem?_eq_some_iff.mp hp
  obtain ⟨hk, rfl⟩ := List.getElem?_eq_some_iff.mp hq
  rcases Nat.lt_trichotomy i k with hik | rfl | hki
  · exact pairwise_iff_getElem.mp hsorted i k hi hk hik
  · omega
  · have := pairwise_iff_getElem.mp hsorted k i hk hi hki
    omega

/-- What is planned is sound unless the first token begins an item that is longer than the tokens
and fits. -/
theorem soundPlan_iff (s : Scheduler) {r : Request}
    (hsorted : r.mmPositions.Pairwise fun p q => p.offset + p.length ≤ q.offset)
    (numComputedTokens : ℤ) {numNewTokens budget : ℤ} (hn : 1 ≤ numNewTokens)
    (hbudget : 0 ≤ budget) :
    ∃ inputs n budget', s.tryScheduleEncoderInputs r numComputedTokens numNewTokens budget =
      .ok (inputs, n, budget') ∧
      (SoundPlan s r numComputedTokens numNewTokens budget inputs n budget' ↔
        ¬ CutAtStart s r numComputedTokens numNewTokens budget) := by
  have hpositions : ∀ pos i, (pos, i) ∈ r.mmPositions.zipIdx → r.mmPositions[i]? = some pos :=
    fun pos i h => mem_zipIdx_iff_getElem?.mp h
  have hitems : ∀ pos i, r.mmPositions[i]? = some pos → (pos, i) ∈ r.mmPositions.zipIdx :=
    fun pos i h => mem_zipIdx_iff_getElem?.mpr h
  have hzip : SortedItems r.mmPositions.zipIdx := by
    rw [SortedItems, pairwise_iff_getElem] at *
    intro i j hi hj hij
    rw [getElem_zipIdx, getElem_zipIdx]
    exact hsorted i j _ _ hij
  have hlength : ∀ pos i, r.mmPositions[i]? = some pos → r.itemLength i = pos.length := by
    intro pos i hpos
    rw [Request.itemLength, hpos]
    rfl
  have hrun : s.tryScheduleEncoderInputs r numComputedTokens numNewTokens budget =
      s.encoderLoop r numComputedTokens r.mmPositions.zipIdx [] numNewTokens budget := by
    rw [tryScheduleEncoderInputs]
    split
    · rename_i hnone
      rcases hnone with hzero | hnone
      · omega
      · rw [Request.hasEncoderInputs, Bool.not_eq_false', List.isEmpty_iff] at hnone
        rw [hnone]
        rfl
    · rfl
  obtain ⟨chosen, n, budget', hok, hplan⟩ := @encoderLoop_plan s r numComputedTokens numNewTokens
    budget _ hpositions hzip []
  rw [nil_append] at hok
  refine ⟨chosen, n, budget', hrun.trans hok, ?_⟩
  have hbounds := encoderLoop_bounds (by omega) hok
  constructor
  · rintro hsound ⟨hdisable, pos, i, hpos, hnew, hstart, hlong, hfree, hafford⟩
    obtain ⟨inputs, _, hkeeps⟩ := encoderLoop_keeps hpositions hzip (by omega)
      (hitems pos i hpos) hstart hlong hnew hfree hafford []
    obtain ⟨-, heq⟩ := Prod.mk.inj (Except.ok.inj (hok.symm.trans hkeeps))
    obtain ⟨rfl, -⟩ := Prod.mk.inj heq
    have hwhole := hsound.whole hdisable pos i hpos hnew hstart.ge (by omega)
    omega
  · intro hcut
    refine ⟨hbounds.1, hbounds.2, hplan.spent, hplan.afford hbudget, ?_, ?_⟩
    · rintro pos i hpos ⟨t, hfrom, hto, hc, ht⟩
      exact hplan.covered pos i (hitems pos i hpos) t hfrom hto hc ht
    · intro hdisable pos i hpos hnew hc ht
      rcases hc.lt_or_eq with hlt | hstart
      · exact hplan.whole hdisable pos i (hitems pos i hpos) hnew hlt ht
      · -- an item at the first token is taken, and fits
        by_contra hlong
        have htaken := hplan.covered pos i (hitems pos i hpos) numComputedTokens hstart.ge
          (by omega) le_rfl (by omega)
        obtain ⟨hfree, hafford⟩ := hplan.fits i (htaken.resolve_right hnew)
        rw [hlength pos i hpos] at hfree hafford
        rcases hplan.stops with rfl | rfl | ⟨q, k, hq, hlt, -, rfl⟩
        · exact hcut ⟨hdisable, pos, i, hpos, hnew, hstart.symm, by omega, hfree, hafford⟩
        · omega
        · have hbefore := end_le_of_lt hsorted hpos (hpositions q k hq) (by omega)
          omega

/-- Items are not to be cut, and eight tokens may be scheduled at once. -/
def wholeItems : SchedulerConfig where
  maxNumRunningReqs := 4
  maxNumScheduledTokens := 8
  maxModelLen := 32
  disableChunkedMmInput := true
  blockSize := 2
  maxNumEncoderInputTokens := 8

/-- A request that begins with an item of six tokens. -/
def itemFirst : Request where
  requestId := "image"
  promptTokenIds := [1, 2, 3, 4, 5, 6, 7, 8, 9, 10]
  maxTokens := 4
  mmPositions := [⟨0, 6⟩]

/-- All eight tokens are left for the request. -/
theorem soundPlan_iff_itemFirst : ∃ kv,
    Kv.KVCacheManager.new (Pipeline.oneGroup 7 2) 32 false false false = .ok kv ∧
    ∃ inputs n budget', (Scheduler.new wholeItems 8 kv).tryScheduleEncoderInputs itemFirst 0 8 8 =
      .ok (inputs, n, budget') ∧
      SoundPlan (.new wholeItems 8 kv) itemFirst 0 8 8 inputs n budget' := by
  obtain ⟨kv, hkv⟩ : ∃ kv,
      Kv.KVCacheManager.new (Pipeline.oneGroup 7 2) 32 false false false = .ok kv := ⟨_, rfl⟩
  obtain ⟨inputs, n, budget', hok, hiff⟩ := soundPlan_iff (Scheduler.new wholeItems 8 kv)
    (r := itemFirst) (pairwise_singleton _ _) 0 (by decide : (1 : ℤ) ≤ 8)
    (by decide : (0 : ℤ) ≤ 8)
  refine ⟨kv, hkv, inputs, n, budget', hok, hiff.mpr ?_⟩
  rintro ⟨-, _, _, hpos, -, -, hlong, -, hbudget⟩
  omega

/-- Four of the tokens went to another request, and the item is cut behind its fourth token. -/
theorem soundPlan_cut : ∃ kv,
    Kv.KVCacheManager.new (Pipeline.oneGroup 7 2) 32 false false false = .ok kv ∧
    (Scheduler.new wholeItems 8 kv).tryScheduleEncoderInputs itemFirst 0 4 8 = .ok ([0], 4, 2) ∧
    ¬ SoundPlan (.new wholeItems 8 kv) itemFirst 0 4 8 [0] 4 2 := by
  refine ⟨_, rfl, rfl, fun hsound => ?_⟩
  have hwhole := hsound.whole rfl ⟨0, 6⟩ 0 rfl not_mem_nil le_rfl (by decide)
  exact absurd hwhole (by decide)

end Scheduler

end Sched
