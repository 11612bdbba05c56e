import Mosaic.Sched.Blocks

/-!
# Preempted requests

Under the priority policy the request of the lowest priority is preempted wherever it stands in
the running list. If it stands in front of the loop index, it may have been given tokens in the
same call, and the requests behind it move up past the index.
-/

namespace Sched

open List Fallible

open Transition (Execution)

/-! ### Rounds -/

section Rounds

variable {env : Kv.HashEnv} {ext : External} {s s' : Scheduler} {st st' : ScheduleState}
  {r : Request} {ids : List String} {goOn : Bool}

variable {victim : String}

/-- The victim is taken out of the running list. -/
theorem popVictim_erase {running : List String} (hnodup : s.running.Nodup)
    (hok : s.popVictim = .ok (victim, running)) : running = s.running.erase victim := by
  obtain ⟨hperm, hsub, -⟩ := popVictim_eq_ok hok
  have hmem : victim ∈ s.running := hperm.symm.subset mem_cons_self
  have hout : victim ∉ running := (nodup_cons.mp (hperm.nodup_iff.mp hnodup)).1
  -- it is a sublist of what is left, and as long
  have hleft : running.Sublist (s.running.erase victim) := by
    have herase := hsub.erase victim
    rwa [erase_of_not_mem hout] at herase
  refine hleft.eq_of_length ?_
  rw [length_erase_of_mem hmem, hperm.length_eq, length_cons, Nat.add_sub_cancel]

theorem Rounds.filed_moves (h : Rounds env s ids st goOn) (hs : s.Filed) :
    st.Filed ∧ RunningMoves env s.startSchedule st := by
  obtain ⟨hst, -⟩ := h.preserves hs trivial fun _ _ _ _ _ _ _ _ => trivial
  exact ⟨hst, (h.labelled_moves hs.labelled).2⟩

theorem Rounds.config_eq (h : Rounds env s ids st goOn) (hs : s.Filed) :
    st.scheduler.config = s.config := by
  have hmoves := (h.filed_moves hs).2
  clear h
  induction hmoves with
  | refl => rfl
  | tail _ hlast ih => exact hlast.config_eq.trans ih

theorem Rounds.running_sublist (h : Rounds env s ids st goOn) (hs : s.Filed) :
    st.scheduler.running.Sublist s.running := by
  have hmoves := (h.filed_moves hs).2
  clear h
  induction hmoves with
  | refl => exact List.Sublist.refl _
  | tail _ hlast ih => exact hlast.running_sublist.trans ih

/-- While the loop goes on, it has gone over the requests in front of the index, and none of them
was preempted. -/
structure InOrder (ids : List String) (st : ScheduleState) : Prop where
  taken : st.scheduler.running.take st.reqIndex = ids
  length : ids.length = st.reqIndex
  scheduled : st.scheduledIds ⊆ ids
  preempted : ∀ id ∈ st.preemptedReqs, id ∉ st.scheduledIds ∧ id ∉ st.scheduler.running

section

variable {n : ℤ} (h : Preempts env r n st victim st') (hfiled : st.Filed) (ahead : victim ∉ ids)
include h hfiled ahead

theorem Preempts.inOrder (hst : InOrder ids st) : InOrder ids st' := by
  have hthinned := h.thinned
  cases h with
  | @mk v kv kv' running waiting _ popped _ _ _ =>
    have herase := popVictim_erase hfiled.lists.nodup_running popped
    have hnodup := hfiled.lists.nodup_running
    refine ⟨?_, hst.length, hst.scheduled, ?_⟩
    · dsimp only [ScheduleState.afterPreemption]
      have hsplit := take_append_drop st.reqIndex st.scheduler.running
      rw [hst.taken] at hsplit
      rw [herase, ← hsplit, erase_append_right _ ahead, ← hst.length, take_left]
    · intro id hid
      rcases mem_append.mp hid with hold | hlast
      · obtain ⟨hunscheduled, hgone⟩ := hst.preempted id hold
        exact ⟨hunscheduled, fun hmem => hgone (hthinned.running.subset hmem)⟩
      · obtain rfl := mem_singleton.mp hlast
        refine ⟨fun hmem => ahead (hst.scheduled hmem), ?_⟩
        dsimp only [ScheduleState.afterPreemption]
        rw [herase, hnodup.mem_erase_iff]
        exact fun hmem => hmem.1 rfl

/-- The current request stays where it is if others ahead of the loop are preempted. -/
theorem Preempts.index (other : victim ≠ r.requestId) (hst : InOrder ids st)
    (index : st.scheduler.running[st.reqIndex]? = some r.requestId) :
    st'.scheduler.running[st'.reqIndex]? = some r.requestId := by
  cases h with
  | @mk v kv kv' running waiting _ popped _ _ _ =>
    have herase := popVictim_erase hfiled.lists.nodup_running popped
    obtain ⟨hlt, hget⟩ := List.getElem?_eq_some_iff.mp index
    have hsplit : st.scheduler.running =
        ids ++ r.requestId :: st.scheduler.running.drop (st.reqIndex + 1) := by
      rw [← hst.taken, ← hget, ← drop_eq_getElem_cons hlt, take_append_drop]
    dsimp only [ScheduleState.afterPreemption]
    rw [herase, hsplit, erase_append_right _ ahead, erase_cons_tail (by simpa using
      other.symm), ← hst.length, getElem?_append_right le_rfl, Nat.sub_self]
    rfl

end

/-- When a request is preempted for the current one, it was not gone over before. If it is the
current one itself, all others that run were. -/
def ScheduleState.Ahead (env : Kv.HashEnv) (st : ScheduleState) (ids : List String) (r : Request)
    (n : ℤ) : Prop :=
  ∀ st₁ victim st₂, PreemptsOthers env r n st st₁ → InOrder ids st₁ → st₁.Filed →
    st₁.scheduler.running[st₁.reqIndex]? = some r.requestId → Preempts env r n st₁ victim st₂ →
      victim ∉ ids ∧ (victim = r.requestId → st₂.scheduler.running ⊆ ids)

theorem PreemptsOthers.inOrder {n : ℤ} {st₁ : ScheduleState} (ahead : st.Ahead env ids r n)
    (h : PreemptsOthers env r n st st₁) (hfiled : st.Filed) (hst : InOrder ids st)
    (index : st.scheduler.running[st.reqIndex]? = some r.requestId) :
    InOrder ids st₁ ∧ st₁.Filed ∧ st₁.scheduler.running[st₁.reqIndex]? = some r.requestId := by
  induction h with
  | refl => exact ⟨hst, hfiled, index⟩
  | tail hbefore hlast ih =>
    obtain ⟨_, hother, hlast⟩ := hlast
    obtain ⟨ht, hfiled', hidx⟩ := ih
    have hout := (ahead _ _ _ hbefore ht hfiled' hidx hlast).1
    exact ⟨hlast.inOrder hfiled' hout ht, hlast.filed hfiled',
      hlast.index hfiled' hout hother ht hidx⟩

/-- One more request is gone over. -/
theorem InOrder.next (hst : InOrder ids st)
    (index : st.scheduler.running[st.reqIndex]? = some r.requestId)
    (running : st'.scheduler.running = st.scheduler.running)
    (next : st'.reqIndex = st.reqIndex + 1)
    (scheduled : st'.scheduledIds ⊆ st.scheduledIds ++ [r.requestId])
    (preempted : st'.preemptedReqs = st.preemptedReqs) : InOrder (ids ++ [r.requestId]) st' where
  taken := by
    rw [running, next, take_add_one, hst.taken, index]
    rfl
  length := by
    rw [length_append, hst.length, next]
    rfl
  scheduled := by
    intro id hid
    rcases mem_append.mp (scheduled hid) with hold | hlast
    · exact mem_append_left _ (hst.scheduled hold)
    · exact mem_append_right _ hlast
  preempted := by
    intro id hid
    rw [preempted] at hid
    obtain ⟨hunscheduled, hgone⟩ := hst.preempted id hid
    rw [running]
    refine ⟨fun hmem => ?_, hgone⟩
    rcases mem_append.mp (scheduled hmem) with hold | hlast
    · exact hunscheduled hold
    · rw [mem_singleton.mp hlast] at hgone
      exact hgone (mem_of_getElem? index)

theorem inOrder_start (s : Scheduler) : InOrder [] s.startSchedule := by
  refine ⟨take_zero, rfl, ?_, ?_⟩ <;>
    simp [Scheduler.startSchedule, ScheduleState.scheduledIds]

/-- A request that is preempted in a call was not gone over before. If it is the one that there are
no slots for, all others that run were. -/
def Scheduler.VictimsAhead (env : Kv.HashEnv) (s : Scheduler) : Prop :=
  ∀ ids st r inputs n newEncoderBudget, Rounds env s ids st true → Current st r →
    st.planRunning r = .ok (inputs, n, newEncoderBudget) → n ≠ 0 → st.Ahead env ids r n

/-- In the order of arrival, the last one of the running requests is preempted. -/
theorem victimsAhead_of_fcfs (hs : s.Filed) (policy : s.config.policy = .fcfs) :
    s.VictimsAhead env := by
  intro ids st r inputs n newEncoderBudget hrounds _ _ _ st₁ victim st₂ hothers hst₁ hfiled₁
    hidx hlast
  have hcfg := hothers.config_eq.trans (hrounds.config_eq hs)
  cases hlast with
  | @mk v kv kv' running waiting _ popped _ _ _ =>
    have hend := (popVictim_eq_ok popped).2.2 (by rw [hcfg, policy])
    have hnodup := hfiled₁.lists.nodup_running
    obtain ⟨hlt, hget⟩ := List.getElem?_eq_some_iff.mp hidx
    have hsplit : st₁.scheduler.running =
        ids ++ r.requestId :: st₁.scheduler.running.drop (st₁.reqIndex + 1) := by
      rw [← hst₁.taken, ← hget, ← drop_eq_getElem_cons hlt, take_append_drop]
    generalize st₁.scheduler.running.drop (st₁.reqIndex + 1) = rest at hsplit
    rw [hsplit] at hnodup hend
    obtain ⟨-, hback, hapart⟩ := nodup_append.mp hnodup
    cases rest using List.reverseRecOn with
    | nil =>
      -- the current request is the last one
      obtain ⟨rfl, hlast⟩ := append_inj' hend rfl
      obtain hsame : r.requestId = v.requestId := by simpa using hlast
      refine ⟨fun hmem => hapart _ hmem _ mem_cons_self hsame.symm, fun _ => ?_⟩
      exact List.Subset.refl _
    | append_singleton rest last =>
      rw [← cons_append, ← append_assoc] at hend
      obtain ⟨-, hlast⟩ := append_inj' hend rfl
      obtain rfl : last = v.requestId := by simpa using hlast
      have hbehind : v.requestId ∈ r.requestId :: (rest ++ [v.requestId]) := by simp
      refine ⟨fun hmem => hapart _ hmem _ hbehind rfl, fun hself => ?_⟩
      rw [hself] at hback
      exact absurd (nodup_cons.mp hback).1 (by simp)

/-- What holds after some rounds if only requests ahead of the loop are preempted. -/
theorem Rounds.sound (h : Rounds env s ids st goOn) (hs : s.Filed)
    (ahead : s.VictimsAhead env) :
    (goOn = true → InOrder ids st) ∧ (goOn = false → st.scheduler.running ⊆ ids) ∧
      ∀ id ∈ st.preemptedReqs, id ∉ st.scheduledIds := by
  induction h with
  | start =>
    exact ⟨fun _ => inOrder_start s, (fun h => by cases h), by simp [Scheduler.startSchedule]⟩
  | @round ids st st' r goOn before current step ih =>
    obtain ⟨hfiled, -⟩ := before.filed_moves hs
    have hst := ih.1 rfl
    obtain ⟨rfl, inputs, budget, -, rfl⟩ | ⟨inputs, n, budget, st₁, hplan, hnonzero, hothers,
      hlast⟩ := runningStep_cases hfiled.labelled current step
    · have hnext : InOrder (ids ++ [r.requestId]) { st with reqIndex := st.reqIndex + 1 } :=
        hst.next current.index rfl rfl (subset_append_left _ _) rfl
      exact ⟨fun _ => hnext, (fun h => by cases h), fun id hid => (hnext.preempted id hid).1⟩
    · have hahead := ahead ids st r inputs n budget before current hplan hnonzero
      obtain ⟨hst₁, hfiled₁, hidx⟩ :=
        PreemptsOthers.inOrder hahead hothers hfiled hst current.index
      obtain ⟨rfl, kv, newBlocks, -, hsched⟩ | ⟨rfl, hself⟩ := hlast
      · obtain ⟨encoder, -, rfl⟩ := scheduleRunning_eq_ok hsched
        have hnext : InOrder (ids ++ [r.requestId]) ((st₁.setKv kv).scheduledRunning r newBlocks
            inputs n budget encoder) :=
          hst₁.next hidx rfl rfl (setKey_fst_subset (List.Subset.refl _)) rfl
        exact ⟨fun _ => hnext, (fun h => by cases h), fun id hid => (hnext.preempted id hid).1⟩
      · obtain ⟨hout, hleft⟩ := hahead _ _ _ hothers hst₁ hfiled₁ hidx hself
        have hlast := hself.inOrder hfiled₁ hout hst₁
        refine ⟨(fun h => by cases h), fun _ => ?_, fun id hid => (hlast.preempted id hid).1⟩
        exact List.Subset.trans (hleft rfl) (subset_append_left _ _)

/-- The loop goes over the requests that run in their order, and over all of them, unless there are
no tokens left. -/
theorem gone_over (hs : s.Filed) (ahead : s.VictimsAhead env)
    (hok : s.startSchedule.runningLoop env s.running.length = .ok st) :
    ∃ ids goOn, Rounds env s ids st goOn ∧ (goOn = true → InOrder ids st) ∧
      (goOn = false ∨ 0 < st.tokenBudget → st.scheduler.running ⊆ ids) := by
  obtain ⟨ids, goOn, hrounds, hend⟩ := rounds_of_runningLoop hs.labelled .start hok
  obtain ⟨horder, hleft, -⟩ := hrounds.sound hs ahead
  refine ⟨ids, goOn, hrounds, horder, ?_⟩
  rintro (rfl | hbudget)
  · exact hleft rfl
  cases goOn with
  | false => exact hleft rfl
  | true =>
    have hst := horder rfl
    have hall : st.scheduler.running.length ≤ st.reqIndex := by
      rcases hend with hstop | hnone | hend | hlen
      · cases hstop
      · omega
      · exact List.getElem?_eq_none_iff.mp hend
      · have hsub := (hrounds.running_sublist hs).length_le
        rw [← hst.length, hlen]
        simpa using hsub
    rw [← hst.taken, take_of_length_le hall]
    exact List.Subset.refl _

end Rounds

/-! ### The output -/

/-- The blocks that are listed for the requests of an output. -/
def SchedulerOutput.listedBlocks (output : SchedulerOutput) : List (String × List (List ℕ)) :=
  output.scheduledNewReqs.map (fun d => (d.reqId, d.blockIds)) ++
    output.scheduledCachedReqs.reqIds.zip output.scheduledCachedReqs.newBlockIds

/-- The requests of an output. -/
def SchedulerOutput.requestIds (output : SchedulerOutput) : List String :=
  output.numScheduledTokens.map Prod.fst ++ output.scheduledNewReqs.map NewRequestData.reqId ++
    output.scheduledCachedReqs.reqIds ++ output.scheduledSpecDecodeTokens.map Prod.fst ++
    output.scheduledEncoderInputs.map Prod.fst

/-- The requests of the output run, and the blocks that are listed for them are theirs. No request
of the output was preempted. The loop over the running requests leaves none out because another one
was preempted: those in front of its index are the ones that it has gone over, and if it does not
stop for lack of tokens, it has gone over all. -/
structure ConsistentCall (env : Kv.HashEnv) (ext : External) (s s' : Scheduler)
    (output : SchedulerOutput) : Prop where
  running : ∀ id ∈ output.requestIds, ∃ r, s'.requests id = some r ∧ r.status = .running
  blocks : ∀ id blocks, (id, blocks) ∈ output.listedBlocks →
    ∀ g, blocks.getD g [] ⊆ s'.kvCacheManager.tables (g, id)
  preempted : ∀ st, s.scheduleRequests env ext = .ok st →
    ∀ id ∈ st.preemptedReqs, id ∉ output.requestIds
  goneOver : ∀ st, s.startSchedule.runningLoop env s.running.length = .ok st →
    ∃ ids goOn, Rounds env s ids st goOn ∧ (goOn = true → InOrder ids st) ∧
      (goOn = false ∨ 0 < st.tokenBudget → st.scheduler.running ⊆ ids)

section Output

variable {env : Kv.HashEnv} {ext : External} {s s' : Scheduler} {st : ScheduleState}
  {output : SchedulerOutput}

theorem mem_of_lookup {α : Type} {d : List (String × α)} {key : String} {value : α}
    (h : d.lookup key = some value) : (key, value) ∈ d := by
  induction d with
  | nil => cases h
  | cons entry rest ih =>
    obtain ⟨_, _⟩ := entry
    rw [lookup_cons] at h
    split at h
    · rename_i hkey
      rw [Option.some.inj h, beq_iff_eq.mp hkey]
      exact mem_cons_self
    · exact mem_cons_of_mem _ (ih h)

theorem lookupAll_zip {α : Type} {d : List (String × α)} {keys : List String} {values : List α}
    (hok : ScheduleState.lookupAll d keys = .ok values) :
    keys.length = values.length ∧ ∀ entry ∈ keys.zip values, entry ∈ d := by
  unfold ScheduleState.lookupAll at hok
  induction keys generalizing values with
  | nil =>
    cases hok
    exact ⟨rfl, nofun⟩
  | cons key rest ih =>
    rw [mapM_cons] at hok
    obtain ⟨_, hvalue, hok⟩ := bind_eq_ok.mp hok
    obtain ⟨_, hrest, hok⟩ := bind_eq_ok.mp hok
    cases hok
    obtain ⟨hlen, hentries⟩ := ih hrest
    refine ⟨by simp [hlen], ?_⟩
    intro entry hentry
    rcases mem_cons.mp hentry with rfl | hlater
    · split at hvalue
      · cases hvalue
      · rename_i hlookup
        rw [← Except.ok.inj hvalue]
        exact mem_of_lookup hlookup
    · exact hentries entry hlater

theorem newRequestData_listed {newReqs : List NewRequestData}
    (hok : st.newRequestData = .ok newReqs) :
    ∀ d ∈ newReqs, (d.reqId, d.blockIds) ∈ st.reqToNewBlockIds := by
  unfold ScheduleState.newRequestData at hok
  generalize st.scheduledNewReqs = ids at hok
  induction ids generalizing newReqs with
  | nil =>
    cases hok
    exact nofun
  | cons id rest ih =>
    rw [mapM_cons] at hok
    obtain ⟨d, hd, hok⟩ := bind_eq_ok.mp hok
    obtain ⟨_, hrest, hok⟩ := bind_eq_ok.mp hok
    cases hok
    intro d' hd'
    rcases mem_cons.mp hd' with rfl | hlater
    · obtain ⟨_, -, hd⟩ := bind_eq_ok.mp hd
      split at hd
      · cases hd
      · rename_i hlookup
        rw [← Except.ok.inj hd]
        exact mem_of_lookup hlookup
    · exact ih hrest d' hlater

/-- The output lists requests with the blocks that were recorded for them. -/
theorem makeOutput_listed (hok : st.makeOutput = .ok output) :
    (∀ entry ∈ output.listedBlocks, entry ∈ st.reqToNewBlockIds) ∧
      ∀ id ∈ output.scheduledNewReqs.map NewRequestData.reqId ++
        output.scheduledCachedReqs.reqIds, id ∈ output.listedBlocks.map Prod.fst := by
  obtain ⟨_, hnew, hrest⟩ := bind_eq_ok.mp hok
  obtain ⟨_, hcached, hrest⟩ := bind_eq_ok.mp hrest
  cases hrest
  obtain ⟨_, -, hcached⟩ := bind_eq_ok.mp hcached
  obtain ⟨_, -, hcached⟩ := bind_eq_ok.mp hcached
  obtain ⟨_, hblocks, hcached⟩ := bind_eq_ok.mp hcached
  cases hcached
  obtain ⟨hlen, hentries⟩ := lookupAll_zip hblocks
  unfold SchedulerOutput.listedBlocks
  constructor
  · intro entry hentry
    rcases mem_append.mp hentry with hfirst | hlater
    · obtain ⟨d, hd, rfl⟩ := mem_map.mp hfirst
      exact newRequestData_listed hnew d hd
    · exact hentries entry hlater
  · intro id hid
    rw [map_append, map_map, map_fst_zip hlen.le]
    exact hid

theorem MidCall.owns (h : MidCall env ext s st) (hs : s.Filed) : ScheduledOnce st ∧ Owns st := by
  refine (h.preserves (P := Owns) hs ?_ ?_ ?_ ?_).2
  · constructor <;> simp [Scheduler.startSchedule]
  · exact fun _ _ _ _ _ hvisited howns hmove => hmove.owns hvisited howns
  · exact fun _ _ howns => ⟨howns.listed, howns.owned⟩
  · exact fun _ _ _ ht hnone honce howns hmove => hmove.move.owns ht hnone honce howns

theorem Phases.consistent {st₁ st₂ st₃ : ScheduleState} (h : Phases env ext s st₁ st₂ st₃ st)
    (hs : s.Filed) (ahead : s.VictimsAhead env) :
    Owns st ∧ ScheduledOnce st ∧ (∀ id ∈ st.scheduledIds, id ∈ st.scheduler.running) ∧
      ∀ id ∈ st.preemptedReqs, id ∉ st.scheduledIds := by
  obtain ⟨_, _, hrounds, -⟩ := rounds_of_runningLoop hs.labelled .start h.runningLoop
  obtain ⟨-, -, hapart₁⟩ := hrounds.sound hs ahead
  obtain ⟨t, _, _, hmid, hlast, rfl⟩ := h.midCall hs.labelled
  obtain ⟨honce, howns⟩ := hmid.owns hs
  have hapart : ∀ id ∈ t.preemptedReqs, id ∉ t.scheduledIds := by
    rcases hlast with rfl | hnone
    · exact hapart₁
    · rw [hnone]
      exact nofun
  refine ⟨⟨howns.listed, howns.owned⟩, ⟨honce.nodup, honce.placed, honce.encoder, honce.spec,
    honce.total⟩, fun id hid => ?_, hapart⟩
  exact (honce.placed id hid).resolve_right fun hgone => hapart id hgone hid

theorem consistentCall (hs : s.Filed) (ahead : s.VictimsAhead env)
    (hok : s.schedule env ext = .ok (s', output)) : ConsistentCall env ext s s' output := by
  have hfiled := schedule_filed hok hs
  obtain ⟨st, s'', hst, houtput, hadvance, rfl⟩ := schedule_eq_ok hok
  obtain ⟨_, _, _, hphases⟩ := phases_of_eq_ok hs.labelled hst
  obtain ⟨howns, honce, hruns, hapart⟩ := hphases.consistent hs ahead
  obtain ⟨hrunning, hkv⟩ := advances_frame hadvance
  obtain ⟨hcounts, -, hspec, henc, -⟩ := makeOutput_eq_ok houtput
  obtain ⟨hlisted, hids⟩ := makeOutput_listed houtput
  -- every request of the output was given tokens
  have hsched : ∀ id ∈ output.requestIds, id ∈ st.scheduledIds := by
    intro id hid
    unfold SchedulerOutput.requestIds at hid
    rw [hcounts, hspec, henc] at hid
    simp only [mem_append] at hid
    rcases hid with (((hcount | hnew) | hcached) | hspec) | henc
    · exact hcount
    · obtain ⟨entry, hentry, rfl⟩ := mem_map.mp (hids id (mem_append_left _ hnew))
      exact howns.listed (mem_map_of_mem (hlisted entry hentry))
    · obtain ⟨entry, hentry, rfl⟩ := mem_map.mp (hids id (mem_append_right _ hcached))
      exact howns.listed (mem_map_of_mem (hlisted entry hentry))
    · exact honce.spec hspec
    · exact honce.encoder henc
  refine ⟨fun id hid => ?_, fun id blocks hmem g => ?_, fun t ht id hid hmem => ?_,
    fun t ht => gone_over hs ahead ht⟩
  · have hruns' : id ∈ s''.running := hrunning ▸ hruns id (hsched id hid)
    exact ((hfiled.lists.mem_running id).mp hruns').2
  · have hmem' := hlisted _ hmem
    rw [hkv]
    exact howns.owned id blocks hmem'
      (fun hgone => hapart id hgone (howns.listed (mem_map_of_mem hmem'))) g
  · cases hst.symm.trans ht
    exact hapart id hid (hsched id hmem)

end Output

/-- In every state that is reached, a call that preempts only requests ahead of the loop returns an
output that agrees with the scheduler. -/
theorem consistentCall_of_execution {env : Kv.HashEnv} {ext : External} {config : SchedulerConfig}
    {encoderCacheSize : ℕ} {kvCacheManager : Kv.KVCacheManager} {events : List Event} {p : Pipeline}
    {s' : Scheduler} {output : SchedulerOutput}
    (run : Execution (Step env) ⟨.new config encoderCacheSize kvCacheManager, []⟩ events p)
    (ahead : p.scheduler.VictimsAhead env)
    (returns : p.scheduler.schedule env ext = .ok (s', output)) :
    ConsistentCall env ext p.scheduler s' output :=
  consistentCall (filed_of_execution run) ahead returns

/-- In the order of arrival this holds of every call in every run. -/
theorem consistentCall_of_fcfs {env : Kv.HashEnv} {ext : External} {config : SchedulerConfig}
    {encoderCacheSize : ℕ} {kvCacheManager : Kv.KVCacheManager} {events : List Event} {p : Pipeline}
    {s' : Scheduler} {output : SchedulerOutput} (fcfs : config.policy = .fcfs)
    (run : Execution (Step env) ⟨.new config encoderCacheSize kvCacheManager, []⟩ events p)
    (returns : p.scheduler.schedule env ext = .ok (s', output)) :
    ConsistentCall env ext p.scheduler s' output := by
  have hfiled := filed_of_execution run
  exact consistentCall hfiled (victimsAhead_of_fcfs hfiled ((config_of_execution run) ▸ fcfs))
    returns

/-! ### A victim in front of the loop -/

section Example

/-- At most two tokens of a prompt in a call, and priorities. -/
def byPriority : SchedulerConfig where
  policy := .priority
  maxNumRunningReqs := 4
  maxNumScheduledTokens := 8
  maxModelLen := 32
  longPrefillTokenThreshold := 2
  blockSize := 2

/-- A request with a prompt of eight tokens. -/
def ranked (requestId : String) (priority : ℤ) (arrivalTime : ℚ) : Request where
  requestId := requestId
  promptTokenIds := [1, 2, 3, 4, 5, 6, 7, 8]
  maxTokens := 4
  priority := priority
  arrivalTime := arrivalTime

/-- Where one request runs, it can only be preempted for itself. -/
theorem victimsAhead_of_running_one {env : Kv.HashEnv} {s : Scheduler} {id : String}
    (hs : s.Filed) (h : s.running = [id]) : s.VictimsAhead env := by
  intro ids st r inputs n newEncoderBudget hrounds _ _ _ st₁ victim st₂ hothers hst₁ hfiled₁
    hidx hlast
  have hsub : st₁.scheduler.running.Sublist [id] :=
    h ▸ hothers.thinned.running.trans (hrounds.running_sublist hs)
  obtain ⟨hlt, hget⟩ := List.getElem?_eq_some_iff.mp hidx
  -- the current request is the first one and the only one
  have hzero : st₁.reqIndex = 0 := by
    have := hsub.length_le
    rw [length_singleton] at this
    omega
  have hnil : ids = [] := by
    rw [← hst₁.taken, hzero, take_zero]
  have hone : st₁.scheduler.running = [id] :=
    hsub.eq_of_length_le (by rw [length_singleton]; omega)
  refine ⟨hnil ▸ not_mem_nil, fun hself => ?_⟩
  have hsame : id = r.requestId := by simpa [hone, hzero] using hget
  cases hlast with
  | @mk v kv kv' running waiting _ popped _ _ _ =>
    have herase := popVictim_erase hfiled₁.lists.nodup_running popped
    dsimp only [ScheduleState.afterPreemption]
    rw [herase, hone, hsame, hself, erase_cons_head]
    exact nil_subset _

/-- The request of the lowest priority runs when the second one arrives, and both are scheduled. -/
theorem consistentCall_of_execution_two : ∃ kv events p s' output,
    Kv.KVCacheManager.new (Pipeline.oneGroup 6 2) 32 false false false = .ok kv ∧
    Execution (Step Kv.encodedHash) ⟨.new byPriority 0 kv, []⟩ events p ∧
    p.scheduler.running = ["low"] ∧ p.scheduler.schedule Kv.encodedHash {} = .ok (s', output) ∧
    "low" ∈ output.requestIds ∧ "high" ∈ output.requestIds ∧
    ConsistentCall Kv.encodedHash {} p.scheduler s' output := by
  have hvalues : (Pipeline.follows Kv.encodedHash byPriority 0 (Pipeline.oneGroup 6 2) false
      [.add (ranked "low" 1 0), .schedule {}, .update { sampledTokenIds := fun _ => some [] },
        .add (ranked "high" 0 0)]).bind (fun p =>
          (p.scheduler.schedule Kv.encodedHash {}).toOption.map fun x => (p.scheduler.running,
            decide ("low" ∈ x.2.requestIds), decide ("high" ∈ x.2.requestIds))) =
              some (["low"], true, true) := by
    decide +kernel
  obtain ⟨p, hp, hvalues⟩ := Option.bind_eq_some_iff.mp hvalues
  obtain ⟨⟨s', output⟩, hschedule, hvalues⟩ := Option.map_eq_some_iff.mp hvalues
  simp only [Prod.mk.injEq, decide_eq_true_eq] at hvalues
  obtain ⟨hrunning, hlow, hhigh⟩ := hvalues
  obtain ⟨kv, events, hnew, hrun⟩ := Pipeline.execution_of_follows hp
  have hreturns := toOption_eq_some.mp hschedule
  have ahead : p.scheduler.VictimsAhead Kv.encodedHash :=
    victimsAhead_of_running_one (filed_of_execution hrun) hrunning
  exact ⟨kv, events, p, s', output, hnew, hrun, hrunning, hreturns, hlow, hhigh,
    consistentCall_of_execution hrun ahead hreturns⟩

/-- The first request has the lowest priority. In the next call it is given tokens, and then
preempted for the second one. -/
def victimCommands : List Command :=
  let out : ModelRunnerOutput := { sampledTokenIds := fun _ => some [] }
  [.add (ranked "low" 1 0), .schedule {}, .update out, .add (ranked "high" 0 0),
    .add (ranked "other" 0 1), .schedule {}, .update out]

/-- Then the output lists it, and the third request is left out. -/
theorem victim_listed : ∃ kv events p s' output,
    Kv.KVCacheManager.new (Pipeline.oneGroup 6 2) 32 false false false = .ok kv ∧
    byPriority.policy = .priority ∧
    Execution (Step Kv.encodedHash) ⟨.new byPriority 0 kv, []⟩ events p ∧
    p.scheduler.schedule Kv.encodedHash {} = .ok (s', output) ∧
    "low" ∈ output.requestIds ∧ (s'.requests "low").map Request.status = some .preempted ∧
    output.totalNumScheduledTokens < byPriority.maxNumScheduledTokens ∧
    "other" ∈ s'.running ∧ "other" ∉ output.requestIds := by
  have hvalues : (Pipeline.follows Kv.encodedHash byPriority 0 (Pipeline.oneGroup 6 2) false
      victimCommands).bind (fun p => (p.scheduler.schedule Kv.encodedHash {}).toOption.map
        fun x => (decide ("low" ∈ x.2.requestIds), (x.1.requests "low").map Request.status,
          x.2.totalNumScheduledTokens, decide ("other" ∈ x.1.running),
          decide ("other" ∈ x.2.requestIds))) =
            some (true, some .preempted, 4, true, false) := by
    decide +kernel
  obtain ⟨p, hp, hvalues⟩ := Option.bind_eq_some_iff.mp hvalues
  obtain ⟨⟨s', output⟩, hschedule, hvalues⟩ := Option.map_eq_some_iff.mp hvalues
  simp only [Prod.mk.injEq, decide_eq_true_eq, decide_eq_false_iff_not] at hvalues
  obtain ⟨hlow, hstatus, htotal, hruns, hout⟩ := hvalues
  obtain ⟨kv, events, hnew, hrun⟩ := Pipeline.execution_of_follows hp
  refine ⟨kv, events, p, s', output, hnew, rfl, hrun, toOption_eq_some.mp hschedule, hlow,
    hstatus, ?_, hruns, hout⟩
  rw [htotal]
  decide

/-- In the order of arrival the same call preempts the last request. -/
theorem consistentCall_of_fcfs_preempted : ∃ kv events p s' output,
    Kv.KVCacheManager.new (Pipeline.oneGroup 6 2) 32 false false false = .ok kv ∧
    Execution (Step Kv.encodedHash) ⟨.new { byPriority with policy := .fcfs } 0 kv, []⟩ events p ∧
    p.scheduler.schedule Kv.encodedHash {} = .ok (s', output) ∧
    (s'.requests "other").map Request.status = some .preempted ∧
    ConsistentCall Kv.encodedHash {} p.scheduler s' output := by
  have hvalues : (Pipeline.follows Kv.encodedHash { byPriority with policy := .fcfs } 0
      (Pipeline.oneGroup 6 2) false victimCommands).bind (fun p =>
        (p.scheduler.schedule Kv.encodedHash {}).toOption.map fun x =>
          (x.1.requests "other").map Request.status) = some (some .preempted) := by
    decide +kernel
  obtain ⟨p, hp, hvalues⟩ := Option.bind_eq_some_iff.mp hvalues
  obtain ⟨⟨s', output⟩, hschedule, hstatus⟩ := Option.map_eq_some_iff.mp hvalues
  obtain ⟨kv, events, hnew, hrun⟩ := Pipeline.execution_of_follows hp
  have hreturns := toOption_eq_some.mp hschedule
  exact ⟨kv, events, p, s', output, hnew, hrun, hreturns, hstatus,
    consistentCall_of_fcfs rfl hrun hreturns⟩

end Example

end Sched
