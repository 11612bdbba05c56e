import Mosaic.Sched.Frames

/-!
# Requests are scheduled once

A call gives tokens to each request at most once, so that every assignment to one of its
dictionaries adds a new entry. A request that was given tokens runs when the call ends, unless it
was preempted after that.
-/

namespace Sched

open List

theorem setKey_of_notMem {α : Type} {d : List (String × α)} {key : String} (value : α)
    (h : key ∉ d.map Prod.fst) : setKey d key value = d ++ [(key, value)] := if_neg h

/-- The requests that were given tokens in a call. -/
def ScheduleState.scheduledIds (st : ScheduleState) : List String :=
  st.numScheduledTokens.map Prod.fst

structure ScheduledOnce (st : ScheduleState) : Prop where
  nodup : st.scheduledIds.Nodup
  placed : ∀ id ∈ st.scheduledIds, id ∈ st.scheduler.running ∨ id ∈ st.preemptedReqs
  encoder : st.scheduledEncoderInputs.map Prod.fst ⊆ st.scheduledIds
  spec : st.scheduledSpecDecodeTokens.map Prod.fst ⊆ st.scheduledIds
  total : st.totalNumScheduledTokens + st.tokenBudget = st.scheduler.config.maxNumScheduledTokens

/-- While the running requests are gone over, those that were given tokens are left behind. -/
structure Visited (st : ScheduleState) : Prop extends ScheduledOnce st where
  behind : ∀ id ∈ st.scheduledIds, id ∉ st.scheduler.running.drop st.reqIndex

section Once

variable {env : Kv.HashEnv} {ext : External} {st st' : ScheduleState} {r : Request}

theorem Preempts.visited {n : ℤ} {victim : String} (h : Preempts env r n st victim st')
    (hst : Visited st) : Visited st' := by
  cases h with
  | @mk v kv kv' running waiting _ popped _ _ _ =>
    obtain ⟨hperm, hsub, -⟩ := popVictim_eq_ok popped
    refine ⟨⟨hst.nodup, ?_, hst.encoder, hst.spec, hst.total⟩, ?_⟩
    · intro id hid
      rcases hst.placed id hid with hruns | hgone
      · rcases mem_cons.mp (hperm.subset hruns) with rfl | hstays
        · exact .inr (mem_append_right _ (mem_singleton_self _))
        · exact .inl hstays
      · exact .inr (mem_append_left _ hgone)
    · intro id hid hdrop
      exact hst.behind id hid ((hsub.drop _).subset hdrop)

/-- The current request does not stand behind the index any more. -/
theorem Current.notMem_drop (current : Current st r) (hnodup : st.scheduler.running.Nodup) :
    r.requestId ∉ st.scheduler.running.drop (st.reqIndex + 1) := by
  obtain ⟨hlt, hget⟩ := List.getElem?_eq_some_iff.mp current.index
  have hdrop := drop_eq_getElem_cons hlt
  have hnodup' := hnodup.sublist (drop_sublist st.reqIndex _)
  rw [hdrop, hget] at hnodup'
  exact (nodup_cons.mp hnodup').1

theorem Current.mem_drop (current : Current st r) :
    r.requestId ∈ st.scheduler.running.drop st.reqIndex := by
  obtain ⟨hlt, hget⟩ := List.getElem?_eq_some_iff.mp current.index
  rw [drop_eq_getElem_cons hlt, hget]
  exact mem_cons_self

/-- What others are preempted for stays where it is, and the call records nothing but them. -/
structure Thinned (st st' : ScheduleState) : Prop where
  running : st'.scheduler.running.Sublist st.scheduler.running
  index : st'.reqIndex = st.reqIndex
  budget : st'.tokenBudget = st.tokenBudget
  numScheduledTokens : st'.numScheduledTokens = st.numScheduledTokens
  spec : st'.scheduledSpecDecodeTokens = st.scheduledSpecDecodeTokens
  encoderInputs : st'.scheduledEncoderInputs = st.scheduledEncoderInputs
  encoder : st'.scheduler.encoderCacheManager = st.scheduler.encoderCacheManager

theorem Preempts.thinned {n : ℤ} {victim : String} (h : Preempts env r n st victim st') :
    Thinned st st' := by
  cases h with
  | mk _ popped _ _ _ => exact ⟨(popVictim_eq_ok popped).2.1, rfl, rfl, rfl, rfl, rfl, rfl⟩

theorem PreemptsOthers.thinned {n : ℤ} (h : PreemptsOthers env r n st st') : Thinned st st' := by
  refine h.preserves (P := Thinned st) ?_ ⟨List.Sublist.refl _, rfl, rfl, rfl, rfl, rfl, rfl⟩
  intro t victim u ht hlast
  have hu := hlast.thinned
  exact ⟨hu.running.trans ht.running, hu.index.trans ht.index, hu.budget.trans ht.budget,
    hu.numScheduledTokens.trans ht.numScheduledTokens, hu.spec.trans ht.spec,
    hu.encoderInputs.trans ht.encoderInputs, hu.encoder.trans ht.encoder⟩

/-- No request starts to run while the running ones are gone over. -/
theorem RunningMove.running_sublist (h : RunningMove env st st') :
    st'.scheduler.running.Sublist st.scheduler.running := by
  cases h with
  | pass _ _ => exact List.Sublist.refl _
  | schedule _ _ _ others _ scheduled =>
    obtain ⟨_, -, rfl⟩ := scheduleRunning_eq_ok scheduled
    exact others.thinned.running
  | giveUp _ _ _ others itself => exact itself.thinned.running.trans others.thinned.running

/-- The current request was not given tokens before. -/
theorem Visited.current_notMem (hst : Visited st) (current : Current st r) :
    r.requestId ∉ st.scheduledIds := fun h => hst.behind _ h current.mem_drop

theorem PreemptsOthers.mem_running {n : ℤ} (h : PreemptsOthers env r n st st')
    (hr : r.requestId ∈ st.scheduler.running) : r.requestId ∈ st'.scheduler.running := by
  induction h with
  | refl => exact hr
  | tail _ hlast ih =>
    obtain ⟨_, hother, hlast⟩ := hlast
    cases hlast with
    | @mk v kv kv' running waiting _ popped _ _ _ =>
      have hmem := (popVictim_eq_ok popped).1.subset ih
      exact (mem_cons.mp hmem).resolve_left hother.symm

theorem sum_append_singleton (d : List (String × ℤ)) (id : String) (n : ℤ) :
    ((d ++ [(id, n)]).map Prod.snd).sum = (d.map Prod.snd).sum + n := by
  simp

theorem setKey_fst_subset {α : Type} {d : List (String × α)} {key : String} {value : α}
    {ids : List String} (h : d.map Prod.fst ⊆ ids) :
    (setKey d key value).map Prod.fst ⊆ ids ++ [key] := by
  intro id hid
  unfold setKey at hid
  split at hid
  · rename_i hkey
    obtain ⟨_, hentry, rfl⟩ := mem_map.mp hid
    obtain ⟨_, hold, rfl⟩ := mem_map.mp hentry
    split
    · exact mem_append_right _ (mem_singleton_self _)
    · exact mem_append_left _ (h (mem_map_of_mem hold))
  · rw [map_append, mem_append] at hid
    rcases hid with hold | hnew
    · exact mem_append_left _ (h hold)
    · exact mem_append_right _ hnew

theorem Visited.scheduledRunning {st₁ : ScheduleState} {newBlocks : List (List ℕ)}
    {inputs : List ℕ} {n newEncoderBudget : ℤ} {encoder : EncoderCacheManager}
    (hst : Visited st) (hst₁ : Visited st₁) (current : Current st r)
    (hnodup : st.scheduler.running.Nodup) (thinned : Thinned st st₁)
    (runs : r.requestId ∈ st₁.scheduler.running) :
    Visited (st₁.scheduledRunning r newBlocks inputs n newEncoderBudget encoder) := by
  -- The request at the index is not scheduled yet, and a preemption schedules nobody.
  have hnew : r.requestId ∉ st₁.scheduledIds := by
    unfold ScheduleState.scheduledIds
    rw [thinned.numScheduledTokens]
    exact hst.current_notMem current
  have hcounts : (st₁.scheduledRunning r newBlocks inputs n newEncoderBudget
      encoder).numScheduledTokens = st₁.numScheduledTokens ++ [(r.requestId, n)] :=
    setKey_of_notMem _ hnew
  have hids : (st₁.scheduledRunning r newBlocks inputs n newEncoderBudget encoder).scheduledIds =
      st₁.scheduledIds ++ [r.requestId] := by
    unfold ScheduleState.scheduledIds
    rw [hcounts, map_append]
    rfl
  refine ⟨⟨?_, ?_, ?_, ?_, ?_⟩, ?_⟩
  · rw [hids, nodup_append]
    refine ⟨hst₁.nodup, nodup_singleton _, ?_⟩
    intro a ha b hb hab
    rw [mem_singleton] at hb
    exact hnew (hb ▸ hab ▸ ha)
  · intro id hid
    rw [hids, mem_append, mem_singleton] at hid
    rcases hid with hold | rfl
    · exact hst₁.placed id hold
    · exact .inl runs
  · rw [hids]
    dsimp only [ScheduleState.scheduledRunning]
    split
    · exact setKey_fst_subset hst₁.encoder
    · exact List.Subset.trans hst₁.encoder (subset_append_left _ _)
  · rw [hids]
    dsimp only [ScheduleState.scheduledRunning]
    split
    · exact setKey_fst_subset hst₁.spec
    · exact List.Subset.trans hst₁.spec (subset_append_left _ _)
  · have htotal := hst₁.total
    unfold ScheduleState.totalNumScheduledTokens at htotal ⊢
    rw [hcounts, sum_append_singleton]
    dsimp only [ScheduleState.scheduledRunning, Scheduler.setRequest]
    omega
  · -- The index goes on by one, so the request that was just scheduled is no longer behind it.
    intro id hid hdrop
    rw [hids, mem_append, mem_singleton] at hid
    have hdrop' : id ∈ st₁.scheduler.running.drop (st₁.reqIndex + 1) := hdrop
    rcases hid with hold | rfl
    · refine hst₁.behind id hold ?_
      rw [← drop_drop] at hdrop'
      exact (drop_sublist _ _).subset hdrop'
    · rw [thinned.index] at hdrop'
      exact current.notMem_drop hnodup ((thinned.running.drop _).subset hdrop')

theorem RunningMove.visited (h : RunningMove env st st') (hfiled : st.Filed)
    (hst : Visited st) : Visited st' := by
  have hothers : ∀ r n u, PreemptsOthers env r n st u → Visited u := fun r n u hmoves =>
    hmoves.preserves (P := Visited) (fun _ _ _ ht hlast => hlast.visited ht) hst
  cases h with
  | pass _ _ =>
    refine ⟨⟨hst.nodup, hst.placed, hst.encoder, hst.spec, hst.total⟩, ?_⟩
    intro id hid hdrop
    refine hst.behind id hid ?_
    have hdrop' : id ∈ st.scheduler.running.drop (st.reqIndex + 1) := hdrop
    rw [← drop_drop] at hdrop'
    exact (drop_sublist _ _).subset hdrop'
  | @schedule st₁ _ r inputs n budget kv newBlocks current _ _ others _ scheduled =>
    obtain ⟨encoder, -, rfl⟩ := scheduleRunning_eq_ok scheduled
    have hst₁ := hothers _ _ _ others
    have hkv : Visited (st₁.setKv kv) :=
      ⟨⟨hst₁.nodup, hst₁.placed, hst₁.encoder, hst₁.spec, hst₁.total⟩, hst₁.behind⟩
    have hthinned := others.thinned
    have hthinned' : Thinned st (st₁.setKv kv) :=
      ⟨hthinned.running, hthinned.index, hthinned.budget, hthinned.numScheduledTokens,
        hthinned.spec, hthinned.encoderInputs, hthinned.encoder⟩
    exact hst.scheduledRunning hkv current hfiled.lists.nodup_running hthinned'
      (others.mem_running (mem_of_getElem? current.index))
  | giveUp _ _ _ others itself => exact itself.visited (hothers _ _ _ others)

theorem visited_start (s : Scheduler) : Visited s.startSchedule := by
  refine ⟨⟨nodup_nil, ?_, ?_, ?_, ?_⟩, ?_⟩ <;>
    simp [Scheduler.startSchedule, ScheduleState.scheduledIds,
      ScheduleState.totalNumScheduledTokens]

/-- A waiting request was not given tokens in this call, if none was preempted. -/
theorem ScheduledOnce.front_notMem (hst : ScheduledOnce st) (hfiled : st.Filed)
    (hpre : st.preemptedReqs = []) (front : Front st r) :
    r.requestId ∉ st.scheduledIds := by
  intro hid
  rcases hst.placed _ hid with hruns | hgone
  · exact hfiled.lists.disjoint front.mem_waiting hruns
  · rw [hpre] at hgone
    cases hgone

theorem WaitingMove.scheduledOnce (h : WaitingMove env ext st st') (hfiled : st.Filed)
    (hpre : st.preemptedReqs = []) (hst : ScheduledOnce st) :
    ScheduledOnce st' ∧ st'.preemptedReqs = [] := by
  cases h with
  | remoteReady _ _ _ ready =>
    obtain ⟨kv, -, -, -, rfl⟩ := remoteReady_eq_ok ready
    exact ⟨⟨hst.nodup, hst.placed, hst.encoder, hst.spec, hst.total⟩, hpre⟩
  | grammarReady _ _ =>
    exact ⟨⟨hst.nodup, hst.placed, hst.encoder, hst.spec, hst.total⟩, hpre⟩
  | look _ _ => exact ⟨⟨hst.nodup, hst.placed, hst.encoder, hst.spec, hst.total⟩, hpre⟩
  | skip _ _ _ _ => exact ⟨⟨hst.nodup, hst.placed, hst.encoder, hst.spec, hst.total⟩, hpre⟩
  | noSlots _ _ _ _ =>
    exact ⟨⟨hst.nodup, hst.placed, hst.encoder, hst.spec, hst.total⟩, hpre⟩
  | startRemoteLoad _ _ _ _ _ _ _ =>
    exact ⟨⟨hst.nodup, hst.placed, hst.encoder, hst.spec, hst.total⟩, hpre⟩
  | @admits r found kv _ waiting encoder inputs n budget front _ _ _ _ _ _ _ _ =>
    refine ⟨?_, hpre⟩
    -- The front of the queue is not scheduled yet, as nothing was preempted in this call.
    have hnew := hst.front_notMem hfiled hpre front
    have hcounts : ((st.setKv kv).admitted r found inputs n budget waiting
        encoder).numScheduledTokens = st.numScheduledTokens ++ [(r.requestId, n)] :=
      setKey_of_notMem _ hnew
    have hids : ((st.setKv kv).admitted r found inputs n budget waiting encoder).scheduledIds =
        st.scheduledIds ++ [r.requestId] := by
      unfold ScheduleState.scheduledIds
      rw [hcounts, map_append]
      rfl
    refine ⟨?_, ?_, ?_, ?_, ?_⟩
    · rw [hids, nodup_append]
      refine ⟨hst.nodup, nodup_singleton _, ?_⟩
      intro a ha b hb hab
      rw [mem_singleton] at hb
      exact hnew (hb ▸ hab ▸ ha)
    · intro id hid
      rw [hids, mem_append, mem_singleton] at hid
      rcases hid with hold | rfl
      · exact (hst.placed id hold).imp_left (mem_append_left _)
      · exact .inl (mem_append_right _ (mem_singleton_self _))
    · rw [hids]
      dsimp only [ScheduleState.admitted]
      split
      · exact setKey_fst_subset hst.encoder
      · exact List.Subset.trans hst.encoder (subset_append_left _ _)
    · rw [hids]
      exact List.Subset.trans hst.spec (subset_append_left _ _)
    · have htotal := hst.total
      unfold ScheduleState.totalNumScheduledTokens at htotal ⊢
      rw [hcounts, sum_append_singleton]
      dsimp only [ScheduleState.admitted, Scheduler.setRequest, ScheduleState.setKv]
      omega

end Once

/-! ### The states of a call -/

/-- The states of a call: while it goes over the running requests, and while it goes over the
waiting ones. -/
inductive MidCall (env : Kv.HashEnv) (ext : External) (s : Scheduler) : ScheduleState → Prop where
  | running {ids : List String} {st : ScheduleState} {goOn : Bool}
      (rounds : Rounds env s ids st goOn) : MidCall env ext s st
  | waiting {st₁ st₂ st : ScheduleState}
      (loop : s.startSchedule.runningLoop env s.running.length = .ok st₁)
      (loras : st₁.recordLoras = .ok st₂) (noneLeft : st₂.preemptedReqs = [])
      (later : WaitingMoves env ext s st₂ st) : MidCall env ext s st

section Calls

variable {env : Kv.HashEnv} {ext : External} {s : Scheduler} {st : ScheduleState}

/-- What the rounds over the running requests preserve. -/
theorem Rounds.preserves {P : ScheduleState → Prop} {ids : List String} {goOn : Bool}
    (h : Rounds env s ids st goOn) (hs : s.Filed) (start : P s.startSchedule)
    (running : ∀ ids t u, Rounds env s ids t true → t.Filed → Visited t → P t →
      RunningMove env t u → P u) : st.Filed ∧ Visited st ∧ P st := by
  induction h with
  | start => exact ⟨hs.start, visited_start s, start⟩
  | round before current step ih =>
    obtain ⟨ht, hvisited, hP⟩ := ih
    have hmove := runningStep_move ht.labelled current step
    exact ⟨hmove.filed ht, hmove.visited ht hvisited, running _ _ _ before ht hvisited hP hmove⟩

/-- What the moves of a call preserve, while each request is scheduled at most once, holds in all
states of the call. -/
theorem MidCall.preserves {P : ScheduleState → Prop} (h : MidCall env ext s st) (hs : s.Filed)
    (start : P s.startSchedule)
    (running : ∀ ids t u, Rounds env s ids t true → t.Filed → Visited t → P t →
      RunningMove env t u → P u)
    (loras : ∀ t loras, P t → P { t with scheduledLoras := loras })
    (waiting : ∀ t u, MidCall env ext s t → t.Filed → t.preemptedReqs = [] → ScheduledOnce t →
      P t → CallMove env ext s t u → P u) : st.Filed ∧ ScheduledOnce st ∧ P st := by
  cases h with
  | running rounds =>
    obtain ⟨hst, hvisited, hP⟩ := rounds.preserves hs start running
    exact ⟨hst, hvisited.toScheduledOnce, hP⟩
  | @waiting st₁ st₂ _ loop recorded noneLeft later =>
    obtain ⟨_, _, hrounds, -⟩ := rounds_of_runningLoop hs.labelled .start loop
    have hall : st.Filed ∧ st.preemptedReqs = [] ∧ ScheduledOnce st ∧ P st := by
      induction later with
      | refl =>
        obtain ⟨hst, hvisited, hP⟩ := hrounds.preserves hs start running
        obtain ⟨_, rfl, -⟩ := recordLoras_eq_ok recorded
        exact ⟨⟨hst.lists, hst.policy⟩, noneLeft, ⟨hvisited.nodup, hvisited.placed,
          hvisited.encoder, hvisited.spec, hvisited.total⟩, loras _ _ hP⟩
      | @tail t u hmoves hlast ih =>
        obtain ⟨ht, hnone, honce, hP⟩ := ih
        obtain ⟨honce', hnone'⟩ := hlast.move.scheduledOnce ht hnone honce
        exact ⟨hlast.move.filed ht, hnone', honce',
          waiting t u (.waiting loop recorded noneLeft hmoves) ht hnone honce hP hlast⟩
    exact ⟨hall.1, hall.2.2.1, hall.2.2.2⟩

theorem Considered.midCall {r : Request} (h : Considered env ext s st r) (hs : s.Labelled) :
    MidCall env ext s st ∧ Front st r := by
  obtain ⟨front, _, _, loop, loras, noneLeft, hmoves⟩ := h.moves hs
  exact ⟨.waiting loop loras noneLeft hmoves, front⟩

theorem MidCall.identities (h : MidCall env ext s st) (hs : s.Filed) :
    st.scheduler.identities = s.identities := by
  refine (h.preserves (P := fun t => t.scheduler.identities = s.identities) hs rfl ?_
    (fun _ _ ht => ht) ?_).2.2
  · exact fun _ _ _ _ _ _ ht hmove => hmove.identities.trans ht
  · exact fun _ _ _ _ _ _ ht hmove => hmove.move.identities.trans ht

/-- The state in which the output of a call is made: apart from the record of the adapters and from
the order of the queue it is the last one of the running phase, or one of the waiting phase. -/
theorem Phases.midCall {st₁ st₂ st₃ : ScheduleState} (h : Phases env ext s st₁ st₂ st₃ st)
    (hs : s.Labelled) : ∃ t loras waiting, MidCall env ext s t ∧ (t = st₁ ∨ t.preemptedReqs = []) ∧
      st = { t with
        scheduledLoras := loras, scheduler := { t.scheduler with waiting := waiting } } := by
  obtain ⟨waiting, rfl, -, -⟩ := putBack_eq_ok h.putBack
  rcases h.waiting with rfl | ⟨hnone, hmoves⟩
  · obtain ⟨loras, rfl, -⟩ := recordLoras_eq_ok h.loras
    obtain ⟨_, _, hrounds, -⟩ := rounds_of_runningLoop hs .start h.runningLoop
    exact ⟨st₁, loras, waiting, .running hrounds, .inl rfl, rfl⟩
  · refine ⟨st₃, st₃.scheduledLoras, waiting, .waiting h.runningLoop h.loras hnone hmoves, .inr ?_,
      rfl⟩
    have hnever : ∀ st, WaitingMoves env ext s st₂ st → st.preemptedReqs = [] := by
      intro st moves
      induction moves with
      | refl => exact hnone
      | tail _ hlast ih => cases hlast.move <;> exact ih
    exact hnever st₃ hmoves

/-- The requests that are given tokens in a batch. -/
def SchedulerOutput.scheduledIds (output : SchedulerOutput) : List String :=
  output.numScheduledTokens.map Prod.fst

end Calls

end Sched
