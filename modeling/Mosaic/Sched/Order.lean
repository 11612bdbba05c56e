import Mosaic.Sched.Lora

/-!
# The order of the queue

Requests that cannot be admitted yet are put aside and put back to the front of the queue in the
end. Each of them is put in front of those that were put aside before, so that two of them come
back in the opposite order.
-/

namespace Sched

open List Fallible Except

open Transition (Execution)

/-- Requests that stay in the queue stay in their order. -/
def KeepsOrder (old new : List String) : Prop :=
  ∀ a b : String, a ∈ new → b ∈ new → [a, b].Sublist old → [a, b].Sublist new

namespace KeepsOrder

variable {old new : List String}

theorem of_sublist (h : old.Sublist new) : KeepsOrder old new :=
  fun _ _ _ _ hab => hab.trans h

theorem of_subset (h : new.Sublist old) (hnodup : old.Nodup) : KeepsOrder old new := by
  intro a b ha hb hab
  induction h with
  | slnil => cases ha
  | cons x hrest ih =>
    obtain ⟨hx, hnodup⟩ := nodup_cons.mp hnodup
    -- the dropped element is neither of the two
    have hne : a ≠ x := fun heq => hx (heq ▸ hrest.subset ha)
    refine ih hnodup ha hb ?_
    cases hab with
    | cons _ hab => exact hab
    | cons_cons _ _ => exact absurd rfl hne
  | @cons_cons l₁ l₂ x hrest ih =>
    obtain ⟨hx, hnodup⟩ := nodup_cons.mp hnodup
    cases hab with
    | cons _ hab =>
      have hmem : a ∈ l₂ ∧ b ∈ l₂ :=
        ⟨hab.subset mem_cons_self, hab.subset (mem_cons_of_mem _ mem_cons_self)⟩
      have hne : a ≠ x ∧ b ≠ x := ⟨fun heq => hx (heq ▸ hmem.1), fun heq => hx (heq ▸ hmem.2)⟩
      have ha' : a ∈ l₁ := by simpa [hne.1] using ha
      have hb' : b ∈ l₁ := by simpa [hne.2] using hb
      exact (ih hnodup ha' hb' hab).cons _
    | cons_cons _ hb' =>
      have hmem : b ∈ l₂ := hb'.subset mem_cons_self
      have hne : b ≠ a := fun heq => hx (heq ▸ hmem)
      have hkept : b ∈ l₁ := by simpa [hne] using hb
      exact cons_sublist_cons.mpr (singleton_sublist.mpr hkept)

end KeepsOrder

/-! ### Requests that are put aside -/

/-- The waiting requests that a call can put aside. Their blocks or their grammars are not there,
the adapters of the others may take all places, the connector loads their blocks, or prompts are
not split. -/
inductive Scheduler.CanBePutAside (ext : External) (s : Scheduler) (id : String) : Prop where
  | remote {r : Request} (known : s.requests id = some r) (status : r.status = .waitingForRemoteKvs)
      (pending : id ∉ s.finishedRecvingKvReqIds)
  | grammar {r : Request} (known : s.requests id = some r) (status : r.status = .waitingForFsm)
      (pending : ext.grammarReady id = false)
  | lora {maxLoras : ℕ} {lora : ℤ} (limit : s.config.maxLoras = some maxLoras)
      (adapter : s.lora id = some lora)
      (others : maxLoras ≤ ((s.adaptersOf (s.running ++ s.waiting.ids)).erase lora).card)
  | tooLong (chunked : s.config.chunkedPrefillEnabled = false)
  | load {r : Request} {numComputedTokens : ℕ} (connector : s.config.hasConnector = true)
      (requestId : r.requestId = id)
      (async : (ext.getNumNewMatchedTokens r numComputedTokens).2 = true)

/-- What a call that looks at waiting requests knows of them. A request that has passed a gate has
another status than before the call. -/
structure Unlooked (s : Scheduler) (st : ScheduleState) : Prop where
  config : st.scheduler.config = s.config
  lora : st.scheduler.lora = s.lora
  listed : st.listed ⊆ s.running ++ s.waiting.ids
  nodup : st.scheduler.waiting.ids.Nodup
  loras : ∀ maxLoras, s.config.maxLoras = some maxLoras →
    st.scheduledLoras ⊆ s.adaptersOf (s.running ++ s.waiting.ids)
  pending : ∀ id ∈ st.scheduler.waiting.ids, ∀ r, st.scheduler.requests id = some r →
    r.status ≠ .waiting → ∃ r₀, s.requests id = some r₀ ∧ r₀.status = r.status ∧
      (id ∈ s.finishedRecvingKvReqIds → id ∈ st.scheduler.finishedRecvingKvReqIds)

section PutAside

variable {env : Kv.HashEnv} {ext : External} {s : Scheduler} {st st' : ScheduleState} {r : Request}

theorem findComputedTokens_async {found : ScheduleState.ComputedTokens}
    (looked : ScheduleState.findComputedTokens env ext s r = .ok found)
    (async : found.loadKvAsync = true) :
    s.config.hasConnector = true ∧ ∃ n, (ext.getNumNewMatchedTokens r n).2 = true := by
  unfold ScheduleState.findComputedTokens at looked
  split at looked
  · obtain ⟨⟨kv, blocks, numLocal⟩, -, looked⟩ := bind_eq_ok.mp looked
    cases hconnector : s.config.hasConnector with
    | false =>
      rw [hconnector] at looked
      cases looked
      cases async
    | true =>
      rw [hconnector] at looked
      cases looked
      exact ⟨rfl, numLocal, async⟩
  · cases looked
    cases async

section

variable (hst : Unlooked s st) (mem : r.requestId ∈ st.scheduler.waiting.ids)
  (known : st.scheduler.requests r.requestId = some r)
include hst mem known

theorem Skipped.canBePutAside (h : Skipped env ext st r) :
    s.CanBePutAside ext r.requestId := by
  cases h with
  | remote status pending =>
    obtain ⟨r₀, hr₀, hstatus, hreceived⟩ :=
      hst.pending _ mem r known (by rw [status]; decide)
    exact .remote hr₀ (hstatus.trans status) (mt hreceived pending)
  | grammar status pending =>
    obtain ⟨r₀, hr₀, hstatus, -⟩ := hst.pending _ mem r known (by rw [status]; decide)
    exact .grammar hr₀ (hstatus.trans status) pending
  | lora full =>
    unfold ScheduleState.loraGate at full
    split at full
    · rename_i maxLoras lora hlimit hlora
      obtain ⟨hcard, hnew⟩ : st.scheduledLoras.card = maxLoras ∧ lora ∉ st.scheduledLoras := by
        simpa using full
      have hlimit' := hst.config ▸ hlimit
      have hadapter : s.lora r.requestId = some lora := by
        rw [← hst.lora, Scheduler.lora, known]
        exact hlora
      refine .lora hlimit' hadapter (hcard ▸ Finset.card_le_card fun l hl => ?_)
      exact Finset.mem_erase.mpr ⟨fun heq => hnew (heq ▸ hl), hst.loras _ hlimit' hl⟩
    · cases full
  | tooLong chunked _ _ => exact .tooLong (hst.config ▸ chunked)

omit mem known

theorem Unlooked.of_popped {u : ScheduleState} {id : String} {waiting : RequestQueue}
    (config : u.scheduler.config = st.scheduler.config)
    (lora : u.scheduler.lora = st.scheduler.lora) (listed : u.listed ⊆ st.listed)
    (popped : st.scheduler.waiting.popRequest = .ok (id, waiting))
    (queue : u.scheduler.waiting = waiting)
    (loras : ∀ maxLoras, s.config.maxLoras = some maxLoras →
      u.scheduledLoras ⊆ s.adaptersOf (s.running ++ s.waiting.ids))
    (requests : ∀ a ≠ id, u.scheduler.requests a = st.scheduler.requests a)
    (received : u.scheduler.finishedRecvingKvReqIds = st.scheduler.finishedRecvingKvReqIds) :
    Unlooked s u := by
  have hperm := (RequestQueue.perm_popRequest popped).2.1
  obtain ⟨hgone, hnodup⟩ := nodup_cons.mp (hperm.nodup_iff.mp hst.nodup)
  refine ⟨config.trans hst.config, lora.trans hst.lora, List.Subset.trans listed hst.listed,
    queue ▸ hnodup, loras, ?_⟩
  intro a ha x hx hwaits
  rw [queue] at ha
  have hne : a ≠ id := fun heq => hgone (heq ▸ ha)
  rw [requests a hne] at hx
  rw [received]
  exact hst.pending a (hperm.mem_iff.mpr (mem_cons_of_mem _ ha)) x hx hwaits

theorem Unlooked.of_touched {u : ScheduleState} {r' : Request}
    (config : u.scheduler.config = st.scheduler.config)
    (lora : u.scheduler.lora = st.scheduler.lora) (listed : u.listed ⊆ st.listed)
    (queue : u.scheduler.waiting = st.scheduler.waiting)
    (loras : u.scheduledLoras = st.scheduledLoras)
    (requests : u.scheduler.requests = Function.update st.scheduler.requests r'.requestId (some r'))
    (status : r'.status = .waiting)
    (received : ∀ a ≠ r'.requestId, a ∈ st.scheduler.finishedRecvingKvReqIds →
      a ∈ u.scheduler.finishedRecvingKvReqIds) : Unlooked s u := by
  refine ⟨config.trans hst.config, lora.trans hst.lora, List.Subset.trans listed hst.listed,
    queue ▸ hst.nodup, loras ▸ hst.loras, ?_⟩
  intro a ha x hx hwaits
  by_cases hid : a = r'.requestId
  · -- it has passed its gate
    rw [hid, requests, Function.update_self] at hx
    cases hx
    exact absurd status hwaits
  · rw [requests, Function.update_of_ne hid] at hx
    obtain ⟨r₀, hr₀, hstatus, hreceived⟩ := hst.pending a (queue ▸ ha) x hx hwaits
    exact ⟨r₀, hr₀, hstatus, received a hid ∘ hreceived⟩

theorem Unlooked.kept {u : ScheduleState} (kept : ∃ kv, u = st.setKv kv) : Unlooked s u := by
  obtain ⟨kv, rfl⟩ := kept
  exact ⟨hst.config, hst.lora, hst.listed, hst.nodup, hst.loras, hst.pending⟩

end

theorem WaitingMove.unlooked (h : WaitingMove env ext st st') (hst : Unlooked s st) :
    Unlooked s st' := by
  have hconfig := h.config_eq
  have hlora := Scheduler.lora_of_identities h.identities
  have hlisted := h.listed_subset
  cases h with
  | remoteReady front _ _ ready =>
    obtain ⟨kv, -, -, rfl, rfl⟩ := remoteReady_eq_ok ready
    exact hst.of_touched hconfig hlora hlisted rfl rfl rfl rfl fun a ha hmem =>
      Finset.mem_erase.mpr ⟨ha, hmem⟩
  | grammarReady front _ =>
    exact hst.of_touched hconfig hlora hlisted rfl rfl rfl rfl fun _ _ => id
  | look _ _ => exact hst.kept ⟨_, rfl⟩
  | skip _ _ popped _ =>
    exact hst.of_popped hconfig hlora hlisted popped rfl hst.loras (fun _ _ => rfl) rfl
  | noSlots _ _ _ _ => exact hst.kept ⟨_, rfl⟩
  | startRemoteLoad _ _ _ _ _ popped _ =>
    exact hst.of_popped hconfig hlora hlisted popped rfl hst.loras
      (fun a ha => Function.update_of_ne ha _ _) rfl
  | @admits r _ _ _ _ _ _ _ _ front _ _ _ _ _ _ popped _ =>
    refine hst.of_popped hconfig hlora hlisted popped rfl ?_
      (fun a ha => Function.update_of_ne ha _ _) rfl
    intro maxLoras hlimit l hl
    dsimp only [ScheduleState.admitted, ScheduleState.setKv] at hl
    split at hl
    · rename_i hadapter
      rcases Finset.mem_insert.mp hl with rfl | hold
      · have hmem := (RequestQueue.perm_popRequest popped).2.1.mem_iff.mpr mem_cons_self
        refine Scheduler.mem_adaptersOf.mpr ⟨r.requestId, hst.listed ?_, ?_⟩
        · exact mem_append_right _ (mem_append_right _ hmem)
        · rw [← hst.lora, Scheduler.lora, front.known]
          exact hadapter
      · exact hst.loras _ hlimit hold
    · exact hst.loras _ hlimit hl

/-- The queues of a call under the first-come-first-served policy. Read backwards, the requests
that were put aside stand before the others in their old order. -/
structure Queues (ext : External) (s : Scheduler) (queue : List String) (st : ScheduleState)
    (waiting skipped : List String) : Prop where
  waits : st.scheduler.waiting = .fcfs waiting
  skips : st.skippedWaitingRequests = .fcfs skipped
  order : (skipped.reverse ++ waiting).Sublist queue
  aside : ∀ id ∈ skipped, s.CanBePutAside ext id

variable {queue waiting skipped : List String}

theorem Queues.popped {id : String} {left : RequestQueue}
    (h : Queues ext s queue st waiting skipped)
    (popped : st.scheduler.waiting.popRequest = .ok (id, left)) :
    ∃ rest, waiting = id :: rest ∧ left = .fcfs rest := by
  rw [h.waits] at popped
  cases waiting with
  | nil => cases popped
  | cons front rest =>
    cases popped
    exact ⟨rest, rfl, rfl⟩

theorem Queues.putAside {left put : RequestQueue} (h : Queues ext s queue st waiting skipped)
    (popped : st.scheduler.waiting.popRequest = .ok (r.requestId, left))
    (aside : st.skippedWaitingRequests.prependRequest r = .ok put)
    (can : s.CanBePutAside ext r.requestId) (waits : st'.scheduler.waiting = left)
    (skips : st'.skippedWaitingRequests = put) :
    ∃ rest, Queues ext s queue st' rest (r.requestId :: skipped) := by
  obtain ⟨rest, rfl, rfl⟩ := h.popped popped
  rw [h.skips] at aside
  cases aside
  refine ⟨rest, waits, skips, ?_, ?_⟩
  · simpa using h.order
  · intro id hid
    rcases mem_cons.mp hid with rfl | hold
    · exact can
    · exact h.aside id hold

theorem WaitingMove.queues (h : WaitingMove env ext st st') (hst : Unlooked s st)
    (hqueues : ∃ waiting skipped, Queues ext s queue st waiting skipped) :
    ∃ waiting skipped, Queues ext s queue st' waiting skipped := by
  obtain ⟨waiting, skipped, hqueues⟩ := hqueues
  have hsame : st'.scheduler.waiting = st.scheduler.waiting →
      st'.skippedWaitingRequests = st.skippedWaitingRequests →
        ∃ waiting skipped, Queues ext s queue st' waiting skipped := fun hwaiting hskipped =>
    ⟨waiting, skipped, hwaiting.trans hqueues.waits, hskipped.trans hqueues.skips,
      hqueues.order, hqueues.aside⟩
  cases h with
  | remoteReady _ _ _ ready =>
    obtain ⟨_, -, -, -, rfl⟩ := remoteReady_eq_ok ready
    exact hsame rfl rfl
  | grammarReady _ _ => exact hsame rfl rfl
  | look _ _ => exact hsame rfl rfl
  | skip front reason popped aside =>
    have hmem := (RequestQueue.perm_popRequest popped).2.1.mem_iff.mpr mem_cons_self
    obtain ⟨rest, hrest⟩ : ∃ rest, Queues ext s queue (st.putAside _ _) rest _ :=
      hqueues.putAside popped aside (reason.canBePutAside hst hmem front.known) rfl rfl
    exact ⟨rest, _, hrest⟩
  | noSlots _ _ _ _ => exact hsame rfl rfl
  | startRemoteLoad _ looked _ _ async popped aside =>
    obtain ⟨hconnector, _, hanswer⟩ := findComputedTokens_async looked async
    have hcan : s.CanBePutAside ext _ := .load (hst.config ▸ hconnector) rfl hanswer
    obtain ⟨rest, hrest⟩ : ∃ rest, Queues ext s queue (ScheduleState.putAside _ _ _) rest _ :=
      hqueues.putAside popped aside hcan rfl rfl
    exact ⟨rest, _, hrest⟩
  | admits _ _ _ _ _ _ _ popped _ =>
    obtain ⟨rest, rfl, rfl⟩ := hqueues.popped popped
    refine ⟨rest, skipped, rfl, hqueues.skips, .trans ?_ hqueues.order, hqueues.aside⟩
    exact List.Sublist.append_left (sublist_cons_self _ _) _

theorem WaitingMoves.queues {s₀ : Scheduler} (h : WaitingMoves env ext s₀ st st')
    (hst : Unlooked s st) (hqueues : ∃ waiting skipped, Queues ext s queue st waiting skipped) :
    ∃ waiting skipped, Queues ext s queue st' waiting skipped := by
  suffices hboth : Unlooked s st' ∧ ∃ waiting skipped, Queues ext s queue st' waiting skipped from
    hboth.2
  induction h with
  | refl => exact ⟨hst, hqueues⟩
  | tail _ hlast ih => exact ⟨hlast.move.unlooked ih.1, hlast.move.queues ih.1 ih.2⟩

end PutAside

/-! ### The running requests -/

section Running

variable {env : Kv.HashEnv} {s : Scheduler} {st st' : ScheduleState} {r : Request}
  {queue : List String}

/-- While running requests are scheduled, only they change, and those that are preempted go to the
front of the queue. -/
structure Ahead (s : Scheduler) (queue : List String) (st : ScheduleState) : Prop where
  ran : RanBefore s st
  waiting : st.scheduler.waiting = .fcfs (st.preemptedReqs.reverse ++ queue)
  requests : ∀ id ∉ s.running, st.scheduler.requests id = s.requests id
  received : st.scheduler.finishedRecvingKvReqIds = s.finishedRecvingKvReqIds
  skipped : st.skippedWaitingRequests = s.startSchedule.skippedWaitingRequests

theorem Preempts.ahead {n : ℤ} {victim : String} (h : Preempts env r n st victim st')
    (hst : Ahead s queue st) : Ahead s queue st' := by
  have hran := h.ranBefore hst.ran
  cases h with
  | @mk v kv kv' running waiting _ popped _ _ queued =>
    rw [hst.waiting] at queued
    cases queued
    refine ⟨hran, ?_, fun id hid => ?_, hst.received, hst.skipped⟩
    · simp [ScheduleState.afterPreemption, Request.preempted]
    · have hran : v.requestId ∈ s.running :=
        hst.ran.running ((popVictim_eq_ok popped).1.symm.subset mem_cons_self)
      have hne : id ≠ v.requestId := fun heq => hid (heq ▸ hran)
      exact (Function.update_of_ne hne _ _).trans (hst.requests id hid)

theorem RunningMove.ahead (h : RunningMove env st st') (hst : Ahead s queue st) :
    Ahead s queue st' := by
  have hran := h.ranBefore hst.ran
  have hothers : ∀ r n u, PreemptsOthers env r n st u → Ahead s queue u := fun r n u hmoves =>
    hmoves.preserves (P := Ahead s queue) (fun _ _ _ ht hlast => hlast.ahead ht) hst
  cases h with
  | pass _ _ => exact ⟨hran, hst.waiting, hst.requests, hst.received, hst.skipped⟩
  | @schedule st₁ _ r _ n _ _ _ current _ _ others _ scheduled =>
    obtain ⟨_, -, rfl⟩ := scheduleRunning_eq_ok scheduled
    have hst₁ := hothers _ _ _ others
    refine ⟨hran, hst₁.waiting, fun id hid => ?_, hst₁.received, hst₁.skipped⟩
    have hne : id ≠ (ScheduleState.trimSpec r n).requestId := by
      rintro rfl
      rw [trimSpec_requestId] at hid
      exact hid (hst.ran.running (mem_of_getElem? current.index))
    exact (Function.update_of_ne hne _ _).trans (hst₁.requests id hid)
  | giveUp _ _ _ others itself => exact itself.ahead (hothers _ _ _ others)

theorem RunningMoves.ahead (h : RunningMoves env st st') (hst : Ahead s queue st) :
    Ahead s queue st' := by
  induction h with
  | refl => exact hst
  | tail _ hlast ih => exact hlast.ahead ih

end Running

/-! ### Calls -/

namespace Scheduler

variable {env : Kv.HashEnv} {ext : External} {s s' : Scheduler}

section

variable {output : SchedulerOutput} (hs : s.Filed) (fcfs : s.config.policy = .fcfs)
  (hok : s.schedule env ext = .ok (s', output))
include hs fcfs hok

/-- The queue after a call consists of the requests that were put aside and of a part of the old
queue behind them, or of preempted requests and the old queue. -/
theorem queue_of_schedule : (∃ preempted, s'.waiting.ids = preempted ++ s.waiting.ids) ∨
    ∃ skipped waiting, s'.waiting.ids = skipped ++ waiting ∧
      (skipped.reverse ++ waiting).Sublist s.waiting.ids ∧
      ∀ id ∈ skipped, s.CanBePutAside ext id := by
  obtain ⟨st, s'', hst, -, hadvance, rfl⟩ := schedule_eq_ok hok
  have hlast : s''.waiting = st.scheduler.waiting := by
    refine foldlM_advance_preserves (P := fun t => t.waiting = st.scheduler.waiting) ?_ hadvance
      rfl
    intro t entry u ht hu
    obtain ⟨_, _, -, -, rfl⟩ := advance_eq_ok hu
    exact ht
  rw [hlast]
  obtain ⟨st₁, _, st₃, hphases⟩ := phases_of_eq_ok hs.labelled hst
  obtain ⟨queue, hqueue⟩ : ∃ queue, s.waiting = .fcfs queue := by
    have hpolicy := hs.policy.trans fcfs
    cases hq : s.waiting with
    | fcfs queue => exact ⟨queue, rfl⟩
    | priority heap =>
      rw [hq] at hpolicy
      cases hpolicy
  have hahead : Ahead s queue st₁ :=
    hphases.running.ahead ⟨ranBefore_start s, hqueue, fun _ _ => rfl, rfl, rfl⟩
  have hnone : st₁.skippedWaitingRequests = .fcfs [] := by
    rw [hahead.skipped]
    simp [startSchedule, fcfs, createRequestQueue]
  obtain ⟨loras, rfl, hloras⟩ := recordLoras_eq_ok hphases.loras
  have hback := hphases.putBack
  unfold ScheduleState.putBack at hback
  rcases hphases.waiting with rfl | ⟨hpre, hmoves⟩
  · -- nothing was put aside
    rw [if_pos (by rw [hnone]; rfl)] at hback
    cases hback
    refine .inl ⟨st₁.preemptedReqs.reverse, ?_⟩
    rw [hqueue]
    exact congrArg RequestQueue.ids hahead.waiting
  · have hwaiting : st₁.scheduler.waiting = .fcfs queue := by
      have hsame := hahead.waiting
      rwa [hpre] at hsame
    have hunlooked : Unlooked s { st₁ with scheduledLoras := loras } := by
      refine ⟨hahead.ran.config, hahead.ran.lora, ?_, ?_, ?_, ?_⟩
      · intro id hid
        have hmem : id ∈ st₁.scheduler.running ∨ id ∈ queue := by
          simpa [ScheduleState.listed, hnone, hwaiting, RequestQueue.ids] using hid
        rw [hqueue]
        exact mem_append.mpr (hmem.imp_left (hahead.ran.running ·))
      · rw [hwaiting]
        exact hqueue ▸ hs.lists.nodup_waiting
      · intro maxLoras hlimit l hl
        obtain ⟨-, rfl⟩ := hloras maxLoras (hahead.ran.config ▸ hlimit)
        obtain ⟨id, hid, hadapter⟩ := mem_filterMap.mp (mem_filter.mp (mem_toFinset.mp hl)).1
        refine mem_adaptersOf.mpr ⟨id, mem_append_left _ (hahead.ran.scheduled hid), ?_⟩
        rw [← hahead.ran.lora]
        exact hadapter
      · intro id hid r hr _
        have hwaits : id ∈ s.waiting.ids := by
          rw [hqueue, ← hwaiting]
          exact hid
        have hidle : id ∉ s.running := fun hruns => by
          obtain ⟨-, r₁, hr₁, hstatus₁⟩ := (hs.lists.mem_running id).mp hruns
          obtain ⟨-, r₂, hr₂, hstatus₂⟩ := (hs.lists.mem_waiting id).mp hwaits
          cases hr₁.symm.trans hr₂
          rw [hstatus₁] at hstatus₂
          cases hstatus₂
        exact ⟨r, (hahead.requests id hidle).symm.trans hr, rfl, fun hmem => hahead.received ▸ hmem⟩
    obtain ⟨waiting, skipped, hqueues⟩ : ∃ waiting skipped, Queues ext s queue _ waiting skipped :=
      hmoves.queues hunlooked ⟨queue, [], hwaiting, hnone, List.Sublist.refl _, by simp⟩
    refine .inr ⟨skipped, waiting, ?_, ?_, hqueues.aside⟩
    · rw [hqueues.skips, hqueues.waits, RequestQueue.prependRequests_fcfs] at hback
      split at hback
      · rename_i hempty
        cases hback
        obtain rfl : skipped = [] := hempty
        exact congrArg RequestQueue.ids hqueues.waits
      · cases hback
        rfl
    · rw [hqueue]
      exact hqueues.order

/-- The order changes as soon as two requests are put aside. -/
theorem keepsOrder_of_schedule : KeepsOrder s.waiting.ids s'.waiting.ids ∨
    ∃ a b, a ≠ b ∧ [a, b].Sublist s.waiting.ids ∧ [b, a].Sublist s'.waiting.ids ∧
      s.CanBePutAside ext a ∧ s.CanBePutAside ext b := by
  rcases queue_of_schedule hs fcfs hok with
    ⟨preempted, hqueue⟩ | ⟨skipped, waiting, hqueue, hsub, haside⟩
  · rw [hqueue]
    exact .inl (KeepsOrder.of_sublist (sublist_append_right _ _))
  · have hnew : (skipped ++ waiting).Nodup := hqueue ▸ (schedule_filed hok hs).lists.nodup_waiting
    rw [hqueue]
    match skipped, hnew, hsub, haside with
    | [], _, hsub, _ => exact .inl (KeepsOrder.of_subset hsub hs.lists.nodup_waiting)
    | [id], _, hsub, _ => exact .inl (KeepsOrder.of_subset hsub hs.lists.nodup_waiting)
    | b :: a :: rest, hnew, hsub, haside =>
      -- the last two that were put aside stood the other way round
      refine .inr ⟨a, b, ?_, .trans (by simp) hsub, by simp, haside a (by simp),
        haside b (by simp)⟩
      rintro rfl
      simp at hnew

end

end Scheduler

section Example

/-- Two places and eight tokens a step. -/
def fewTokens : SchedulerConfig where
  maxNumRunningReqs := 2
  maxNumScheduledTokens := 8
  maxModelLen := 8
  blockSize := 4

/-- A request with a grammar. -/
def guided (requestId : String) : Request where
  requestId := requestId
  promptTokenIds := [1, 2, 3]
  maxTokens := 4
  status := .waitingForFsm
  samplingParams := some { guidedDecoding := true }

/-- A request without one. -/
def plain (requestId : String) : Request where
  requestId := requestId
  promptTokenIds := [1, 2, 3]
  maxTokens := 4

/-- No grammar is compiled yet. -/
def noGrammar : External where
  grammarReady := fun _ => false

/-- The queue before and after a call, and the statuses of the requests in it before. -/
def queueAround (commands : List Command) :
    Option (List String × List String × List (Option RequestStatus)) := do
  let p ← Pipeline.follows Kv.encodedHash fewTokens 0 (Pipeline.oneGroup 12 4) false commands
  let (s, _) ← (p.scheduler.schedule Kv.encodedHash noGrammar).toOption
  return (p.scheduler.waiting.ids, s.waiting.ids,
    p.scheduler.waiting.ids.map fun id => (p.scheduler.requests id).map Request.status)

theorem queueAround_eq_some {commands : List Command} {old new : List String}
    {statuses : List (Option RequestStatus)}
    (h : queueAround commands = some (old, new, statuses)) :
    ∃ kv events p s output, Kv.KVCacheManager.new (Pipeline.oneGroup 12 4)
        fewTokens.maxModelLen false false false = .ok kv ∧
      Execution (Step Kv.encodedHash) ⟨.new fewTokens 0 kv, []⟩ events p ∧
      p.scheduler.schedule Kv.encodedHash noGrammar = .ok (s, output) ∧
      p.scheduler.waiting.ids = old ∧ s.waiting.ids = new ∧
      old.map (fun id => (p.scheduler.requests id).map Request.status) = statuses := by
  obtain ⟨p, hp, h⟩ := Option.bind_eq_some_iff.mp h
  obtain ⟨⟨s, output⟩, hs, hres⟩ := Option.bind_eq_some_iff.mp h
  obtain ⟨rfl, hqueue⟩ := Prod.mk.inj (Option.some.inj hres)
  obtain ⟨rfl, rfl⟩ := Prod.mk.inj hqueue
  obtain ⟨kv, events, hnew, hrun⟩ := Pipeline.execution_of_follows hp
  exact ⟨kv, events, p, s, output, hnew, hrun, toOption_eq_some.mp hs, rfl, rfl, rfl⟩

end Example

end Sched
