import Mosaic.Sched.Once
import Mathlib.Algebra.BigOperators.Group.Finset.Basic
import Mathlib.Algebra.Order.BigOperators.Group.List

/-!
# The slots of the encoder cache

Every cached item takes its slots, and an item that is freed is listed until the list is asked
for. Whether an item fits is tested before any of the items of the same request has taken its
slots, so items that fit one by one may not fit together.
-/

namespace Sched

open List Fallible Function Except

/-! ### The cache -/

/-- The length of an item of a request. -/
def Request.itemLength (r : Request) (i : ℕ) : ℕ :=
  (r.mmPositions[i]?.map Kv.PlaceholderRange.length).getD 0

theorem Request.getNumEncoderTokens_eq_ok {r : Request} {i n : ℕ}
    (hok : r.getNumEncoderTokens i = .ok n) : n = r.itemLength i := by
  unfold getNumEncoderTokens at hok
  split at hok
  · cases hok
  · rename_i pos hpos
    rw [itemLength, hpos]
    exact (ok.inj hok).symm

/-- The free slots are those that no cached item takes. -/
structure Balanced (length : String → ℕ → ℕ) (m : EncoderCacheManager) : Prop where
  nodup : ∀ id, (m.cached id).Nodup
  balance : ∃ ids : Finset String, (∀ id, m.cached id ≠ [] → id ∈ ids) ∧
    m.numFreeSlots = m.cacheSize - ∑ id ∈ ids, ((m.cached id).map (length id)).sum

theorem sum_update {ids : Finset String} {id : String} (hid : id ∈ ids)
    (g : String → List ℕ → ℕ) (cached : String → List ℕ) (items : List ℕ) :
    ∑ a ∈ ids, g a (update cached id items a) + g id (cached id) =
      ∑ a ∈ ids, g a (cached a) + g id items := by
  have hold := Finset.add_sum_erase ids (fun a => g a (cached a)) hid
  have hnew := Finset.add_sum_erase ids (fun a => g a (update cached id items a)) hid
  have hothers : ∑ a ∈ ids.erase id, g a (update cached id items a) =
      ∑ a ∈ ids.erase id, g a (cached a) := by
    apply Finset.sum_congr rfl
    intro a ha
    rw [update_of_ne (Finset.ne_of_mem_erase ha)]
  simp only [update_self] at hnew
  omega

namespace Balanced

variable {length : String → ℕ → ℕ} {m m' : EncoderCacheManager} {r : Request} {i : ℕ}

theorem congr {length' : String → ℕ → ℕ} (h : Balanced length m)
    (same : ∀ id, ∀ i ∈ m.cached id, length' id i = length id i) : Balanced length' m where
  nodup := h.nodup
  balance := by
    obtain ⟨ids, hids, hbalance⟩ := h.balance
    refine ⟨ids, hids, ?_⟩
    rw [hbalance]
    congr 2
    apply Finset.sum_congr rfl
    intro id _
    rw [map_congr_left (same id)]

/-- Any larger set of requests gives the same sum. -/
theorem exists_with (h : Balanced length m) (id : String) :
    ∃ ids : Finset String, id ∈ ids ∧ (∀ a, m.cached a ≠ [] → a ∈ ids) ∧
      m.numFreeSlots = m.cacheSize - ∑ a ∈ ids, ((m.cached a).map (length a)).sum := by
  obtain ⟨ids, hids, hbalance⟩ := h.balance
  refine ⟨insert id ids, Finset.mem_insert_self _ _,
    fun a ha => Finset.mem_insert_of_mem (hids a ha), ?_⟩
  by_cases hid : id ∈ ids
  · rw [Finset.insert_eq_of_mem hid]
    exact hbalance
  · have hnone : m.cached id = [] := by
      by_contra hsome
      exact hid (hids id hsome)
    rw [Finset.sum_insert hid, hnone]
    simpa using hbalance

theorem allocate (h : Balanced length m) (hlen : length r.requestId i = r.itemLength i)
    (hnew : i ∉ m.cached r.requestId) (hok : m.allocate r i = .ok m') :
    Balanced length m' ∧ m'.numFreeSlots = m.numFreeSlots - r.itemLength i ∧
      m'.cached = update m.cached r.requestId (m.cached r.requestId ++ [i]) ∧
      m'.freed = m.freed ∧ m'.cacheSize = m.cacheSize := by
  obtain ⟨_, hn, hok⟩ := bind_eq_ok.mp hok
  obtain rfl := Request.getNumEncoderTokens_eq_ok hn
  rw [if_neg hnew] at hok
  cases hok
  refine ⟨⟨?_, ?_⟩, rfl, rfl, rfl, rfl⟩
  · intro id
    dsimp only
    by_cases hid : id = r.requestId
    · subst hid
      rw [update_self, nodup_append]
      refine ⟨h.nodup _, nodup_singleton _, ?_⟩
      intro a ha b hb hab
      rw [mem_singleton] at hb
      exact hnew (hb ▸ hab ▸ ha)
    · rw [update_of_ne hid]
      exact h.nodup id
  · obtain ⟨ids, hmem, hids, hbalance⟩ := h.exists_with r.requestId
    refine ⟨ids, ?_, ?_⟩
    · intro id hid
      by_cases hne : id = r.requestId
      · exact hne ▸ hmem
      · exact hids id (by simpa [hne] using hid)
    · have hsum := sum_update hmem (fun a items => (items.map (length a)).sum) m.cached
        (m.cached r.requestId ++ [i])
      simp only [map_append, sum_append, map_cons, map_nil, sum_cons, sum_nil, hlen] at hsum
      dsimp only
      omega

end Balanced

/-- Items of one request were freed: the slots are given back, and the items are listed. -/
structure Released (length : String → ℕ → ℕ) (r : Request) (m m' : EncoderCacheManager) : Prop where
  balanced : Balanced length m'
  size : m'.cacheSize = m.cacheSize
  others : ∀ id ≠ r.requestId, m'.cached id = m.cached id
  sublist : (m'.cached r.requestId).Sublist (m.cached r.requestId)
  listed : ∀ id i, (m'.cached id).count i + m'.freed.count (id, i) =
    (m.cached id).count i + m.freed.count (id, i)
  free : m.numFreeSlots ≤ m'.numFreeSlots

namespace Released

variable {length : String → ℕ → ℕ} {m m' m'' : EncoderCacheManager} {r : Request} {i : ℕ}

theorem refl (h : Balanced length m) : Released length r m m :=
  ⟨h, rfl, fun _ _ => rfl, List.Sublist.refl _, fun _ _ => rfl, le_rfl⟩

theorem trans (h : Released length r m m') (h' : Released length r m' m'') :
    Released length r m m'' where
  balanced := h'.balanced
  size := h'.size.trans h.size
  others id hid := (h'.others id hid).trans (h.others id hid)
  sublist := h'.sublist.trans h.sublist
  listed id i := (h'.listed id i).trans (h.listed id i)
  free := h.free.trans h'.free

theorem freeEncoderInput (h : Balanced length m)
    (hlen : length r.requestId i = r.itemLength i) (hmem : i ∈ m.cached r.requestId)
    (hok : m.freeEncoderInput r i = .ok m') :
    Released length r m m' ∧ m'.cached r.requestId = (m.cached r.requestId).erase i := by
  unfold EncoderCacheManager.freeEncoderInput at hok
  rw [if_neg (ne_nil_of_mem hmem)] at hok
  obtain ⟨_, hn, hok⟩ := bind_eq_ok.mp hok
  obtain rfl := Request.getNumEncoderTokens_eq_ok hn
  cases hok
  refine ⟨⟨⟨?_, ?_⟩, rfl, ?_, ?_, ?_, ?_⟩, by simp⟩
  · intro id
    dsimp only
    by_cases hid : id = r.requestId
    · subst hid
      rw [update_self]
      exact (h.nodup _).erase _
    · rw [update_of_ne hid]
      exact h.nodup id
  · -- The slots of the item move from the sum over the cached items to the free ones.
    obtain ⟨ids, hin, hids, hbalance⟩ := h.exists_with r.requestId
    refine ⟨ids, ?_, ?_⟩
    · intro id hid
      by_cases hne : id = r.requestId
      · exact hne ▸ hin
      · exact hids id (by simpa [hne] using hid)
    · have hsum := sum_update hin (fun a items => (items.map (length a)).sum) m.cached
        ((m.cached r.requestId).erase i)
      have herase : ((m.cached r.requestId).map (length r.requestId)).sum =
          r.itemLength i + (((m.cached r.requestId).erase i).map (length r.requestId)).sum := by
        rw [((perm_cons_erase hmem).map _).sum_eq, map_cons, sum_cons, hlen]
      dsimp only
      omega
  · intro id hid
    simp [hid]
  · simpa using erase_sublist
  · -- The item is cached no longer, and stands once more in the list of freed items.
    intro id j
    by_cases hid : id = r.requestId
    · subst hid
      simp only [update_self, count_append, count_singleton, beq_iff_eq, Prod.mk.injEq, true_and]
      by_cases hj : i = j
      · subst hj
        have hcount := count_pos_iff.mpr hmem
        rw [count_erase_self]
        simp
        omega
      · rw [count_erase_of_ne (Ne.symm hj)]
        simp [hj]
    · simp [hid, count_append, Ne.symm hid]
  · dsimp only
    omega

/-- Some of the items of a request are freed, one after the other. -/
theorem foldlM {items : List ℕ} {f : EncoderCacheManager → ℕ →
      Except SchedulerError EncoderCacheManager}
    (frees : ∀ m i m', f m i = .ok m' → m' = m ∨ m.freeEncoderInput r i = .ok m')
    (hlen : ∀ i, length r.requestId i = r.itemLength i)
    (hnodup : items.Nodup) (hsub : items ⊆ m.cached r.requestId) (h : Balanced length m)
    (hok : items.foldlM f m = .ok m') : Released length r m m' := by
  induction items generalizing m with
  | nil =>
    cases hok
    exact refl h
  | cons i rest ih =>
    obtain ⟨m₁, hfirst, hrest⟩ := foldlM_cons_eq_ok.mp hok
    obtain ⟨hout, hnodup⟩ := nodup_cons.mp hnodup
    obtain ⟨hmem, hsub⟩ := cons_subset.mp hsub
    rcases frees m i m₁ hfirst with rfl | hfree
    · exact ih hnodup hsub h hrest
    · obtain ⟨hreleased, hcached⟩ := freeEncoderInput h (hlen i) hmem hfree
      refine hreleased.trans (ih hnodup ?_ hreleased.balanced hrest)
      intro j hj
      have hne : j ≠ i := fun heq => hout (heq ▸ hj)
      rw [hcached]
      exact (mem_erase_of_ne hne).mpr (hsub hj)

/-- Every item that is cached is freed. -/
theorem all (h : Balanced length m) (hlen : ∀ i, length r.requestId i = r.itemLength i)
    (hok : m.free r = .ok m') :
    Released length r m m' ∧ m'.cached r.requestId = [] := by
  refine ⟨foldlM (fun _ _ _ => .inr) hlen (h.nodup _) (List.Subset.refl _) h hok, ?_⟩
  unfold EncoderCacheManager.free EncoderCacheManager.getCachedInputIds at hok
  generalize hitems : m.cached r.requestId = items at hok
  induction items generalizing m with
  | nil =>
    cases hok
    exact hitems
  | cons i rest ih =>
    obtain ⟨_, hfirst, hrest⟩ := foldlM_cons_eq_ok.mp hok
    obtain ⟨hnext, hcached⟩ := freeEncoderInput h (hlen i) (by simp [hitems]) hfirst
    refine ih hnext.balanced ?_ hrest
    rw [hcached, hitems, erase_cons_head]

theorem consumed {s : Scheduler} (h : Balanced length s.encoderCacheManager)
    (hlen : ∀ i, length r.requestId i = r.itemLength i)
    (hok : s.consumeEncoderInputs r = .ok m') : Released length r s.encoderCacheManager m' := by
  unfold Scheduler.consumeEncoderInputs at hok
  split at hok
  · refine foldlM ?_ hlen (h.nodup _) (List.Subset.refl _) h hok
    intro m i m' hm'
    split at hm'
    · cases hm'
    · split at hm'
      · exact .inr hm'
      · exact .inl (ok.inj hm').symm
  · cases hok
    exact refl h

end Released

/-- The items that are planned for a request are allocated. -/
theorem Balanced.allocateAll {length : String → ℕ → ℕ} {m m' : EncoderCacheManager} {r : Request}
    {inputs : List ℕ} (h : Balanced length m)
    (hlen : ∀ i, length r.requestId i = r.itemLength i) (hnodup : inputs.Nodup)
    (hnew : ∀ i ∈ inputs, i ∉ m.cached r.requestId)
    (hok : ScheduleState.allocateEncoderInputs m r inputs = .ok m') :
    Balanced length m' ∧
      m'.numFreeSlots = m.numFreeSlots - ((inputs.map r.itemLength).sum : ℕ) ∧
      m'.cached = update m.cached r.requestId (m.cached r.requestId ++ inputs) ∧
      m'.freed = m.freed ∧ m'.cacheSize = m.cacheSize := by
  induction inputs generalizing m with
  | nil =>
    cases hok
    simp [h]
  | cons i rest ih =>
    obtain ⟨m₁, hfirst, hrest⟩ := foldlM_cons_eq_ok.mp hok
    obtain ⟨hout, hnodup⟩ := nodup_cons.mp hnodup
    obtain ⟨h₁, hfree, hcached, hfreed, hsize⟩ :=
      h.allocate (hlen i) (hnew i mem_cons_self) hfirst
    have hnew₁ : ∀ j ∈ rest, j ∉ m₁.cached r.requestId := by
      intro j hj
      rw [hcached, update_self, mem_append, mem_singleton]
      rintro (hold | rfl)
      · exact hnew j (mem_cons_of_mem _ hj) hold
      · exact hout hj
    obtain ⟨h', hfree', hcached', hfreed', hsize'⟩ := ih h₁ hnodup hnew₁ hrest
    refine ⟨h', ?_, ?_, hfreed'.trans hfreed, hsize'.trans hsize⟩
    · rw [hfree', hfree, map_cons, sum_cons]
      push_cast
      omega
    · rw [hcached', hcached, update_self, update_idem, append_assoc]
      rfl

/-! ### What a request is offered -/

namespace Scheduler

/-- The items that the next `n` tokens of a request need and that are not cached. -/
def offered (m : EncoderCacheManager) (disableChunkedMmInput : Bool) (r : Request)
    (numComputedTokens n : ℤ) : List (Kv.PlaceholderRange × ℕ) → List ℕ
  | [] => []
  | (pos, i) :: rest =>
    if numComputedTokens + n ≤ pos.offset then []
    else if ((pos.offset + pos.length : ℕ) : ℤ) ≤ numComputedTokens then
      offered m disableChunkedMmInput r numComputedTokens n rest
    else if m.hasCache r i then offered m disableChunkedMmInput r numComputedTokens n rest
    else if disableChunkedMmInput ∧ numComputedTokens < pos.offset ∧
        numComputedTokens + n < (pos.offset + pos.length : ℕ) then []
    else i :: offered m disableChunkedMmInput r numComputedTokens n rest

/-- Items that fit one by one, and that the budget allows, fit together. -/
def FitTogether (s : Scheduler) (r : Request) (numComputedTokens n budget : ℤ) : Prop :=
  ∀ items, items <+: offered s.encoderCacheManager s.config.disableChunkedMmInput r
      numComputedTokens n r.mmPositions.zipIdx → items ≠ [] →
    (∀ i ∈ items, (r.itemLength i : ℤ) ≤ s.encoderCacheManager.numFreeSlots) →
    ((items.map r.itemLength).sum : ℤ) ≤ budget →
    ((items.map r.itemLength).sum : ℤ) ≤ s.encoderCacheManager.numFreeSlots

variable {s : Scheduler} {m : EncoderCacheManager} {disableChunkedMmInput : Bool} {r : Request}
  {numComputedTokens n : ℤ}

theorem offered_sublist (items : List (Kv.PlaceholderRange × ℕ)) :
    (offered m disableChunkedMmInput r numComputedTokens n items).Sublist (items.map Prod.snd) := by
  induction items with
  | nil => exact List.Sublist.refl _
  | cons item rest ih =>
    unfold offered
    rw [map_cons]
    split
    · exact nil_sublist _
    · split
      · exact ih.cons _
      · split
        · exact ih.cons _
        · split
          · exact nil_sublist _
          · exact ih.cons_cons _

variable {items : List (Kv.PlaceholderRange × ℕ)}

theorem notMem_of_mem_offered {i : ℕ}
    (h : i ∈ offered m disableChunkedMmInput r numComputedTokens n items) :
    i ∉ m.cached r.requestId := by
  induction items with
  | nil => cases h
  | cons item rest ih =>
    unfold offered at h
    split at h
    · cases h
    · split at h
      · exact ih h
      · split at h
        · exact ih h
        · rename_i hnew
          split at h
          · cases h
          · rcases mem_cons.mp h with rfl | hrest
            · simpa [EncoderCacheManager.hasCache] using hnew
            · exact ih hrest

variable {budget n' budget' : ℤ}

/-- The loop takes items as long as each fits and the budget allows it. -/
theorem encoderLoop_eq_ok {taken inputs : List ℕ}
    (positions : ∀ pos i, (pos, i) ∈ items → r.mmPositions[i]? = some pos)
    (hok : s.encoderLoop r numComputedTokens items taken n budget = .ok (inputs, n', budget')) :
    ∃ chosen, inputs = taken ++ chosen ∧ chosen <+: offered s.encoderCacheManager
        s.config.disableChunkedMmInput r numComputedTokens n items ∧
      (∀ i ∈ chosen, (r.itemLength i : ℤ) ≤ s.encoderCacheManager.numFreeSlots) ∧
      (chosen ≠ [] → ((chosen.map r.itemLength).sum : ℤ) ≤ budget) := by
  -- where the loop ends, nothing more is taken
  have hend : ∀ {taken needed : List ℕ} {a b budget : ℤ},
      (Except.ok (taken, a, b) : Except SchedulerError _) = .ok (inputs, n', budget') →
      ∃ chosen, inputs = taken ++ chosen ∧ chosen <+: needed ∧
        (∀ i ∈ chosen, (r.itemLength i : ℤ) ≤ s.encoderCacheManager.numFreeSlots) ∧
        (chosen ≠ [] → ((chosen.map r.itemLength).sum : ℤ) ≤ budget) := by
    intro taken needed a b budget h
    cases h
    exact ⟨[], (append_nil _).symm, nil_prefix, by simp, fun h => absurd rfl h⟩
  induction items generalizing taken budget with
  | nil => exact hend hok
  | cons item rest ih =>
    obtain ⟨pos, i⟩ := item
    have hrest := fun q j hj => positions q j (mem_cons_of_mem _ hj)
    have hlen : r.itemLength i = pos.length := by
      simp [Request.itemLength, positions pos i mem_cons_self]
    unfold encoderLoop at hok
    unfold offered
    split at hok
    · exact hend hok
    · rename_i hbegun
      rw [if_neg hbegun]
      split at hok
      · rename_i hconsumed
        rw [if_pos hconsumed]
        exact ih hrest hok
      · rename_i hneeded
        rw [if_neg hneeded]
        split at hok
        · rename_i hcached
          rw [if_pos hcached]
          exact ih hrest hok
        · rename_i hnew
          rw [if_neg hnew]
          split at hok
          · exact hend hok
          · rename_i hwhole
            rw [if_neg hwhole]
            split at hok
            · cases hok
            · rename_i fits hfits
              split at hok
              · split at hok
                · exact hend hok
                · exact hend hok
              · rename_i hroom
                obtain ⟨_, hm, hfits⟩ := bind_eq_ok.mp hfits
                obtain rfl := Request.getNumEncoderTokens_eq_ok hm
                cases hfits
                rw [not_or, not_lt] at hroom
                obtain ⟨chosen, rfl, hstart, hchosen, hsum⟩ := ih hrest hok
                refine ⟨i :: chosen, by simp, cons_prefix_cons.mpr ⟨rfl, hstart⟩, ?_, ?_⟩
                · intro j hj
                  rcases mem_cons.mp hj with rfl | hlater
                  · simpa using hroom.1
                  · exact hchosen j hlater
                · intro _
                  rw [map_cons, sum_cons, hlen]
                  cases chosen with
                  | nil => simpa using hroom.2
                  | cons j later =>
                    have hlater := hsum (by simp)
                    push_cast at hlater ⊢
                    omega

/-- An item that does not fit leaves the tokens in front of it. -/
theorem encoderLoop_bounds {taken inputs : List ℕ} (hn : 0 ≤ n)
    (hok : s.encoderLoop r numComputedTokens items taken n budget = .ok (inputs, n', budget')) :
    0 ≤ n' ∧ n' ≤ n := by
  have hend : ∀ {taken : List ℕ} {m budget : ℤ},
      (Except.ok (taken, m, budget) : Except SchedulerError _) = .ok (inputs, n', budget') →
        n' = m := fun h => (Prod.mk.inj (Prod.mk.inj (ok.inj h)).2).1.symm
  induction items generalizing taken budget with
  | nil =>
    obtain rfl := hend hok
    omega
  | cons item rest ih =>
    obtain ⟨_, _⟩ := item
    unfold encoderLoop at hok
    split at hok
    · obtain rfl := hend hok
      omega
    · split at hok
      · exact ih hok
      · split at hok
        · exact ih hok
        · split at hok
          · obtain rfl := hend hok
            omega
          · split at hok
            · cases hok
            · split at hok
              · split at hok
                · obtain rfl := hend hok
                  omega
                · obtain rfl := hend hok
                  omega
              · exact ih hok

/-- No more tokens are scheduled than were asked for. -/
theorem tryScheduleEncoderInputs_bounds {inputs : List ℕ} (hn : 0 ≤ n)
    (hok : s.tryScheduleEncoderInputs r numComputedTokens n budget = .ok (inputs, n', budget')) :
    0 ≤ n' ∧ n' ≤ n := by
  unfold tryScheduleEncoderInputs at hok
  split at hok
  · obtain rfl := (Prod.mk.inj (Prod.mk.inj (ok.inj hok)).2).1
    omega
  · exact encoderLoop_bounds hn hok

/-- One item fits together with itself. -/
theorem fitTogether_of_single {budget : ℤ} (h : r.mmPositions.length ≤ 1) :
    s.FitTogether r numComputedTokens n budget := by
  intro items hstart hsome hfits _
  have hlen := (hstart.sublist.trans (offered_sublist _)).length_le
  rw [length_map, length_zipIdx] at hlen
  match items, hsome, hfits, hlen with
  | [i], _, hfits, _ => simpa using hfits i (mem_singleton_self i)
  | _ :: _ :: _, _, _, hlen =>
    simp only [length_cons] at hlen
    omega

/-- What is planned for a request: new items, each of which fits. -/
structure Planned (s : Scheduler) (r : Request) (numComputedTokens n budget : ℤ)
    (inputs : List ℕ) : Prop where
  nodup : inputs.Nodup
  new : ∀ i ∈ inputs, i ∉ s.encoderCacheManager.cached r.requestId
  free : 0 ≤ s.encoderCacheManager.numFreeSlots → s.FitTogether r numComputedTokens n budget →
    ((inputs.map r.itemLength).sum : ℤ) ≤ s.encoderCacheManager.numFreeSlots

theorem Planned.none {budget : ℤ} : s.Planned r numComputedTokens n budget [] where
  nodup := nodup_nil
  new := by simp
  free hfree _ := by simpa using hfree

theorem tryScheduleEncoderInputs_planned {inputs : List ℕ}
    (hok : s.tryScheduleEncoderInputs r numComputedTokens n budget = .ok (inputs, n', budget')) :
    s.Planned r numComputedTokens n budget inputs := by
  unfold tryScheduleEncoderInputs at hok
  split at hok
  · cases hok
    exact .none
  · have hposs : ∀ pos i, (pos, i) ∈ r.mmPositions.zipIdx → r.mmPositions[i]? = some pos :=
      fun pos i h => mem_zipIdx_iff_getElem?.mp h
    obtain ⟨_, rfl, hstart, hchosen, hsum⟩ := encoderLoop_eq_ok hposs hok
    have hnodup : (r.mmPositions.zipIdx.map Prod.snd).Nodup := by
      rw [zipIdx_map_snd]
      exact nodup_range'
    refine ⟨?_, ?_, ?_⟩
    · exact hnodup.sublist (hstart.sublist.trans (offered_sublist _))
    · exact fun i hi => notMem_of_mem_offered (hstart.subset hi)
    · intro hfree hfit
      by_cases hnone : inputs = []
      · simpa [hnone] using hfree
      · exact hfit _ hstart hnone hchosen (hsum hnone)

end Scheduler

end Sched
