import Mosaic.Kv.Tables
import Mosaic.Sched.Once

/-!
# The blocks of the requests

What is done for one request leaves the blocks of the others alone, and a request that is given
tokens has blocks for them.
-/

namespace Sched

open List Fallible

open Kv (OnlyTable)

/-- A request has the new blocks, and blocks for a number of tokens. -/
structure SlotsFor (s s' : Kv.KVCacheManager) (r : String) (numTokens : ℕ)
    (newBlocks : List (List ℕ)) : Prop where
  only : OnlyTable s s' r
  new : ∀ g, newBlocks.getD g [] ⊆ s'.tables (g, r)
  length : newBlocks.length = s.numKvCacheGroups
  enough : ∀ g < s.numKvCacheGroups,
    Kv.cdiv numTokens (s.managers g).blockSize ≤ (s'.tables (g, r)).length

section Allocation

variable {env : Kv.HashEnv} {s s₁ s₂ s₃ s' : Kv.KVCacheManager} {r : Kv.Request}

theorem slotsFor_of_steps {numTokens : ℕ} {hits newBlocks : List (List ℕ)}
    (skipped : s.removeSkippedBlocks r.requestId r.numComputedTokens = .ok s₁)
    (taken : s₁.takeComputedBlocks r.requestId hits = .ok s₂)
    (new : s₂.allocateNewBlocks r.requestId numTokens = .ok (s₃, newBlocks))
    (cached : Kv.SameShape s₃ s' ∧ s'.tables = s₃.tables) :
    SlotsFor s s' r.requestId numTokens newBlocks := by
  obtain ⟨h₁, -⟩ := Kv.onlyTable_removeSkippedBlocks skipped
  obtain ⟨h₂, -⟩ := Kv.onlyTable_takeComputedBlocks taken
  obtain ⟨h₃, hgroups, htables, henough⟩ := Kv.onlyTable_allocateNewBlocks new
  have hbefore := h₁.trans h₂
  refine ⟨(hbefore.trans h₃).trans (.of_tables cached.1 cached.2), ?_, ?_, ?_⟩
  · intro g
    rw [cached.2, htables]
    exact subset_append_right _ _
  · exact hgroups.trans hbefore.shape.numKvCacheGroups
  · intro g hg
    rw [cached.2, ← hbefore.blockSize]
    rw [henough g (hbefore.shape.numKvCacheGroups ▸ hg)]
    exact le_max_right _ _

/-- An allocation from where skipped blocks were removed. -/
theorem slotsFor_of_eq_ok {need k : ℕ} {hits : List (List ℕ)} {few : Prop} [Decidable few]
    {delay : Bool} {result : Option (List (List ℕ))}
    (skipped : s.removeSkippedBlocks r.requestId r.numComputedTokens = .ok s₁)
    (hok : (if few then .ok (s₁, none) else do
      let s ← s₁.takeComputedBlocks r.requestId hits
      let (s, newBlocks) ← s.allocateNewBlocks r.requestId need
      if !s.enableCaching || delay then return (s, some newBlocks)
      let s ← s.cacheBlocks env r k
      return (s, some newBlocks) : Except Kv.KvError _) = .ok (s', result)) :
    OnlyTable s s' r.requestId ∧
      (∀ newBlocks, result = some newBlocks → SlotsFor s s' r.requestId need newBlocks) ∧
      (result = none →
        ∀ g, (s'.tables (g, r.requestId)).length = (s.tables (g, r.requestId)).length) := by
  split at hok
  · cases hok
    obtain ⟨honly, hlength⟩ := Kv.onlyTable_removeSkippedBlocks skipped
    exact ⟨honly, nofun, fun _ => hlength⟩
  · obtain ⟨_, htake, hrest⟩ := bind_eq_ok.mp hok
    obtain ⟨⟨_, newBlocks⟩, hnew, hrest⟩ := bind_eq_ok.mp hrest
    have hslots : SlotsFor s s' r.requestId need newBlocks ∧ some newBlocks = result := by
      dsimp only at hrest
      split at hrest
      · cases hrest
        exact ⟨slotsFor_of_steps skipped htake hnew ⟨.refl _, rfl⟩, rfl⟩
      · obtain ⟨_, hcache, hrest⟩ := bind_eq_ok.mp hrest
        cases hrest
        exact ⟨slotsFor_of_steps skipped htake hnew (Kv.cacheBlocks_tables hcache), rfl⟩
    obtain ⟨hslots, rfl⟩ := hslots
    exact ⟨hslots.only, fun newBlocks' hsome => Option.some.inj hsome ▸ hslots, nofun⟩

/-- An allocation changes the table of one request only. If it succeeds, that request has blocks for
all its tokens, and otherwise as many as before. -/
theorem allocateSlotsInt_eq_ok {n : ℤ} {numNewComputedTokens numLookaheadTokens : ℕ}
    {hits : List (List ℕ)} {delay : Bool} {result : Option (List (List ℕ))}
    (hok : s.allocateSlotsInt env r n numNewComputedTokens hits numLookaheadTokens delay =
      .ok (s', result)) :
    OnlyTable s s' r.requestId ∧
      (∀ newBlocks, result = some newBlocks → SlotsFor s s' r.requestId
        (min (r.numComputedTokens + numNewComputedTokens + n + numLookaheadTokens).toNat
          s.maxModelLen) newBlocks) ∧
      (result = none →
        ∀ g, (s'.tables (g, r.requestId)).length = (s.tables (g, r.requestId)).length) := by
  unfold Kv.KVCacheManager.allocateSlotsInt at hok
  split at hok
  · rename_i hpos
    obtain ⟨k, rfl⟩ := Int.eq_ofNat_of_zero_le hpos
    unfold Kv.KVCacheManager.allocateSlots at hok
    split at hok
    · cases hok
    · obtain ⟨s₁, hskip, hrest⟩ := bind_eq_ok.mp hok
      have hlen := (Kv.onlyTable_removeSkippedBlocks hskip).1.shape.maxModelLen
      have hneed : min (r.numComputedTokens + numNewComputedTokens + (k : ℤ).toNat +
          numLookaheadTokens) s₁.maxModelLen = min ((r.numComputedTokens : ℤ) +
            numNewComputedTokens + k + numLookaheadTokens).toNat s.maxModelLen := by
        rw [hlen]
        norm_cast
      rw [← hneed]
      exact slotsFor_of_eq_ok hskip hrest
  · obtain ⟨s₁, hskip, hrest⟩ := bind_eq_ok.mp hok
    have hlen := (Kv.onlyTable_removeSkippedBlocks hskip).1.shape.maxModelLen
    have hneed : min (((r.numComputedTokens + numNewComputedTokens : ℕ) : ℤ) + n +
        numLookaheadTokens).toNat s₁.maxModelLen = min ((r.numComputedTokens : ℤ) +
          numNewComputedTokens + n + numLookaheadTokens).toNat s.maxModelLen := by
      rw [hlen]
      norm_cast
    rw [← hneed]
    exact slotsFor_of_eq_ok hskip hrest

end Allocation

/-! ### Moves -/

section Moves

variable {env : Kv.HashEnv} {ext : External} {st st' : ScheduleState} {r : Request}

variable {kv : Kv.KVCacheManager} {n : ℤ}

theorem runningSlots_eq_ok {result : Option (List (List ℕ))}
    (hok : st.runningSlots env r n = .ok (kv, result)) :
    OnlyTable st.scheduler.kvCacheManager kv r.requestId ∧
      (∀ newBlocks, result = some newBlocks →
        SlotsFor st.scheduler.kvCacheManager kv r.requestId
          (min (r.numComputedTokens.toNat + n + st.scheduler.config.numLookaheadTokens).toNat
            st.scheduler.kvCacheManager.maxModelLen) newBlocks) ∧
      (result = none → ∀ g, (kv.tables (g, r.requestId)).length =
        (st.scheduler.kvCacheManager.tables (g, r.requestId)).length) := by
  have hslots := allocateSlotsInt_eq_ok hok
  simpa [Request.toKv] using hslots

theorem findComputedTokens_tables {s : Scheduler} {found : ScheduleState.ComputedTokens}
    (hok : ScheduleState.findComputedTokens env ext s r = .ok found) :
    Kv.SameShape s.kvCacheManager found.kv ∧ found.kv.tables = s.kvCacheManager.tables := by
  unfold ScheduleState.findComputedTokens at hok
  split at hok
  · obtain ⟨⟨kv, _, _⟩, hkv, hok⟩ := bind_eq_ok.mp hok
    rw [liftKv_eq_ok] at hkv
    obtain ⟨hshape, htables, -⟩ := Kv.getComputedBlocks_tables hkv
    cases hok
    exact ⟨hshape, htables⟩
  · cases hok
    exact ⟨.refl _, rfl⟩

theorem waitingSlots_eq_ok {found : ScheduleState.ComputedTokens} {result : Option (List (List ℕ))}
    (looked : ScheduleState.findComputedTokens env ext st.scheduler r = .ok found)
    (hok : st.waitingSlots env r found n = .ok (kv, result)) :
    OnlyTable st.scheduler.kvCacheManager kv r.requestId ∧
      (∀ newBlocks, result = some newBlocks → SlotsFor found.kv kv r.requestId
        (min (r.numComputedTokens.toNat + found.numNewLocalComputedTokens +
          (n + found.numExternalComputedTokens) + st.effectiveLookaheadTokens r).toNat
          found.kv.maxModelLen) newBlocks) ∧
      (result = none → ∀ g, (kv.tables (g, r.requestId)).length =
        (st.scheduler.kvCacheManager.tables (g, r.requestId)).length) := by
  obtain ⟨hshape, htables⟩ := findComputedTokens_tables looked
  obtain ⟨honly, hslots, hnone⟩ := allocateSlotsInt_eq_ok hok
  rw [htables] at hnone
  exact ⟨OnlyTable.trans (.of_tables hshape htables) honly, hslots, hnone⟩

/-- A request that is preempted has no blocks left, and apart from that only the table of the
request for which it is preempted may differ. -/
theorem Preempts.tables {victim : String} (h : Preempts env r n st victim st') :
    (∀ g id, id ≠ r.requestId → id ≠ victim →
      st'.scheduler.kvCacheManager.tables (g, id) = st.scheduler.kvCacheManager.tables (g, id)) ∧
    (∀ g < st.scheduler.kvCacheManager.numKvCacheGroups,
      st'.scheduler.kvCacheManager.tables (g, victim) = []) ∧
    Kv.SameShape st.scheduler.kvCacheManager st'.scheduler.kvCacheManager := by
  cases h with
  | @mk v kv kv' running waiting slots _ _ freed _ =>
    obtain ⟨hslots, -⟩ := runningSlots_eq_ok slots
    obtain ⟨hfree, hempty⟩ := Kv.onlyTable_free freed
    refine ⟨fun g id hid hvictim => ?_, fun g hg => ?_, hslots.shape.trans hfree.shape⟩
    · exact (hfree.others g id hvictim).trans (hslots.others g id hid)
    · exact hempty g (hslots.shape.numKvCacheGroups ▸ hg)

/-- The blocks that a call lists for its requests are theirs, unless they were preempted. -/
structure Owns (st : ScheduleState) : Prop where
  listed : st.reqToNewBlockIds.map Prod.fst ⊆ st.scheduledIds
  owned : ∀ id blocks, (id, blocks) ∈ st.reqToNewBlockIds → id ∉ st.preemptedReqs →
    ∀ g, blocks.getD g [] ⊆ st.scheduler.kvCacheManager.tables (g, id)

/-- The table of a request that was not given tokens may change. -/
theorem Owns.change (h : Owns st) (new : r.requestId ∉ st.scheduledIds)
    (only : OnlyTable st.scheduler.kvCacheManager kv r.requestId) {id : String}
    {blocks : List (List ℕ)} (hmem : (id, blocks) ∈ st.reqToNewBlockIds)
    (hid : id ∉ st.preemptedReqs) (g : ℕ) : blocks.getD g [] ⊆ kv.tables (g, id) := by
  have hne : id ≠ r.requestId := fun heq => new (heq ▸ h.listed (mem_map_of_mem hmem))
  rw [only.others g id hne]
  exact h.owned id blocks hmem hid g

theorem Preempts.owns {victim : String} (h : Preempts env r n st victim st')
    (new : r.requestId ∉ st.scheduledIds) (hst : Owns st) : Owns st' := by
  have htables := h.tables.1
  cases h with
  | @mk v kv kv' running waiting _ _ _ _ _ =>
    refine ⟨hst.listed, fun id blocks hmem hid g => ?_⟩
    have hid' : id ∉ st.preemptedReqs ∧ id ≠ v.requestId := by
      simpa [ScheduleState.afterPreemption] using hid
    have hne : id ≠ r.requestId := fun heq => new (heq ▸ hst.listed (mem_map_of_mem hmem))
    rw [htables g id hne hid'.2]
    exact hst.owned id blocks hmem hid'.1 g

theorem PreemptsOthers.owns (h : PreemptsOthers env r n st st')
    (new : r.requestId ∉ st.scheduledIds) (hst : Owns st) : Owns st' := by
  have hboth : r.requestId ∉ st'.scheduledIds ∧ Owns st' := by
    refine h.preserves (P := fun u => r.requestId ∉ u.scheduledIds ∧ Owns u) ?_ ⟨new, hst⟩
    intro t victim u ⟨hnew, ht⟩ hlast
    refine ⟨?_, hlast.owns hnew ht⟩
    unfold ScheduleState.scheduledIds
    rw [hlast.thinned.numScheduledTokens]
    exact hnew
  exact hboth.2

theorem RunningMove.owns (h : RunningMove env st st') (hvisited : Visited st) (hst : Owns st) :
    Owns st' := by
  cases h with
  | pass _ _ => exact ⟨hst.listed, hst.owned⟩
  | @schedule st₁ _ r inputs n budget kv newBlocks current _ _ others slots scheduled =>
    obtain ⟨_, -, rfl⟩ := scheduleRunning_eq_ok scheduled
    have hnew := hvisited.current_notMem current
    have hst₁ := others.owns hnew hst
    have hnew₁ : r.requestId ∉ st₁.scheduledIds := by
      unfold ScheduleState.scheduledIds
      rw [others.thinned.numScheduledTokens]
      exact hnew
    obtain ⟨honly, hslots, -⟩ := runningSlots_eq_ok slots
    have hblocks := setKey_of_notMem newBlocks fun hkey => hnew₁ (hst₁.listed hkey)
    refine ⟨?_, fun id blocks hmem hid g => ?_⟩
    · have hkeys : (setKey st₁.reqToNewBlockIds r.requestId newBlocks).map Prod.fst ⊆
          st₁.scheduledIds ++ [r.requestId] := setKey_fst_subset hst₁.listed
      have hids : (setKey st₁.numScheduledTokens r.requestId n).map Prod.fst =
          st₁.scheduledIds ++ [r.requestId] := by
        rw [setKey_of_notMem n hnew₁, map_append]
        rfl
      rw [← hids] at hkeys
      exact hkeys
    · have hmem' : (id, blocks) ∈ setKey st₁.reqToNewBlockIds r.requestId newBlocks := hmem
      rw [hblocks, mem_append, mem_singleton] at hmem'
      rcases hmem' with hold | hlast
      · exact hst₁.change hnew₁ honly hold hid g
      · obtain ⟨rfl, rfl⟩ := Prod.mk.inj hlast
        exact (hslots _ rfl).new g
  | @giveUp st₁ _ r inputs n budget current _ _ others itself =>
    have hnew := hvisited.current_notMem current
    refine itself.owns ?_ (others.owns hnew hst)
    unfold ScheduleState.scheduledIds
    rw [others.thinned.numScheduledTokens]
    exact hnew

theorem WaitingMove.owns (h : WaitingMove env ext st st') (hfiled : st.Filed)
    (hpre : st.preemptedReqs = []) (once : ScheduledOnce st) (hst : Owns st) :
    Owns st' := by
  cases h with
  | remoteReady _ _ _ ready =>
    obtain ⟨kv, -, hcached, -, rfl⟩ := remoteReady_eq_ok ready
    refine ⟨hst.listed, fun id blocks hmem hid g => ?_⟩
    have htables : kv.tables = st.scheduler.kvCacheManager.tables := by
      unfold Kv.KVCacheManager.cacheRequestBlocks at hcached
      split at hcached
      · exact (Kv.cacheBlocks_tables hcached).2
      · rw [Except.ok.inj hcached]
    dsimp only [ScheduleState.setScheduler]
    rw [htables]
    exact hst.owned id blocks hmem hid g
  | grammarReady _ _ => exact ⟨hst.listed, hst.owned⟩
  | look _ looked =>
    refine ⟨hst.listed, fun id blocks hmem hid g => ?_⟩
    dsimp only [ScheduleState.setKv]
    rw [(findComputedTokens_tables looked).2]
    exact hst.owned id blocks hmem hid g
  | skip _ _ _ _ => exact ⟨hst.listed, hst.owned⟩
  -- Only the blocks of a request that is not scheduled yet change.
  | noSlots front looked _ slots =>
    have hnew := once.front_notMem hfiled hpre front
    exact ⟨hst.listed, fun id blocks hmem hid g =>
      hst.change hnew (waitingSlots_eq_ok looked slots).1 hmem hid g⟩
  | startRemoteLoad front looked _ slots _ _ _ =>
    have hnew := once.front_notMem hfiled hpre front
    exact ⟨hst.listed, fun id blocks hmem hid g =>
      hst.change hnew (waitingSlots_eq_ok looked slots).1 hmem hid g⟩
  | @admits r found kv _ waiting encoder inputs n budget front _ _ looked _ slots _ _ _ =>
    have hnew := once.front_notMem hfiled hpre front
    obtain ⟨honly, -⟩ := waitingSlots_eq_ok looked slots
    have hblocks := setKey_of_notMem (kv.getBlockIds r.requestId)
      fun hkey => hnew (hst.listed hkey)
    refine ⟨?_, fun id blocks hmem hid g => ?_⟩
    · have hkeys : (setKey st.reqToNewBlockIds r.requestId (kv.getBlockIds r.requestId)).map
          Prod.fst ⊆ st.scheduledIds ++ [r.requestId] := setKey_fst_subset hst.listed
      have hids : (setKey st.numScheduledTokens r.requestId n).map Prod.fst =
          st.scheduledIds ++ [r.requestId] := by
        rw [setKey_of_notMem n hnew, map_append]
        rfl
      rw [← hids] at hkeys
      exact hkeys
    · -- The blocks of an earlier request, or those that the admitted one was just given.
      have hmem' : (id, blocks) ∈ setKey st.reqToNewBlockIds r.requestId
          (kv.getBlockIds r.requestId) := hmem
      rw [hblocks, mem_append, mem_singleton] at hmem'
      rcases hmem' with hold | hlast
      · exact hst.change hnew honly hold hid g
      · obtain ⟨rfl, rfl⟩ := Prod.mk.inj hlast
        change (kv.getBlockIds r.requestId).getD g [] ⊆ kv.tables (g, r.requestId)
        unfold Kv.KVCacheManager.getBlockIds
        rw [getD_eq_getElem?_getD, getElem?_map]
        by_cases hg : g < kv.numKvCacheGroups
        · rw [getElem?_range hg]
          exact List.Subset.refl _
        · rw [getElem?_eq_none (by simpa using hg)]
          exact nil_subset _

end Moves

end Sched
