import Mosaic.Diffusion.SchedulerMoves
import Mosaic.Transition.Execution

/-!
# The lifecycle of a diffusion request

A run alternates between scheduling a batch and applying one update for each request of it, in
any order; requests arrive at any time, also while a batch is out. Along such a run every
request waits, runs and finishes, in this order and once.
-/

namespace Diffusion

open List

open Transition (Execution)

/-! ### Runs -/

/-- What happens in a run, with what the scheduler answers. -/
inductive Event where
  | added (req : DiffusionRequest)
  | scheduled (entered : List String) (batch : Option DiffusionStepBatch)
  | applied (updates : List DiffusionStepUpdate) (finished : List FinishedDiffusionItem)

namespace Event

/-- The id that arrives. -/
def addedId : Event → List String
  | .added req => [req.reqId]
  | _ => []

/-- The ids that enter the running list. -/
def entered : Event → List String
  | .scheduled entered _ => entered
  | _ => []

/-- The ids that are reported finished. -/
def reported : Event → List String
  | .applied _ finished => finished.map FinishedDiffusionItem.reqId
  | _ => []

/-- The event schedules a step. -/
def isScheduled : Event → Bool
  | .scheduled _ _ => true
  | _ => false

end Event

/-- The ids that arrived, in order. -/
def addedIds (events : List Event) : List String := events.flatMap Event.addedId

/-- The ids that entered the running list, in order. -/
def enteredIds (events : List Event) : List String := events.flatMap Event.entered

/-- The ids that were reported finished, in order. -/
def reportedIds (events : List Event) : List String := events.flatMap Event.reported

/-- The number of steps that were scheduled. -/
def scheduledSteps (events : List Event) : ℕ := events.countP Event.isScheduled

@[simp] theorem addedIds_concat (events : List Event) (e : Event) :
    addedIds (events ++ [e]) = addedIds events ++ e.addedId := by
  simp [addedIds]

@[simp] theorem enteredIds_concat (events : List Event) (e : Event) :
    enteredIds (events ++ [e]) = enteredIds events ++ e.entered := by
  simp [enteredIds]

@[simp] theorem reportedIds_concat (events : List Event) (e : Event) :
    reportedIds (events ++ [e]) = reportedIds events ++ e.reported := by
  simp [reportedIds]

/-- The ids of a batch. -/
def DiffusionStepBatch.ids (batch : DiffusionStepBatch) : List String :=
  batch.requests.map DiffusionStepRequest.reqId

/-- A scheduler, and the batch whose updates are still to come. -/
structure Rounds where
  scheduler : DiffusionScheduler
  pending : Option DiffusionStepBatch

namespace Rounds

/-- No requests, and an initialised pool. -/
def init (maxBatchSize : ℕ) : Rounds where
  scheduler := (DiffusionScheduler.init maxBatchSize).setModelRunner (some ⟨some ⟨true⟩⟩)
  pending := none

/-- One step of a run. A batch is scheduled when the updates of the previous one were applied,
and the applied updates are one for each request of the batch, in any order. -/
inductive Step : Rounds → Event → Rounds → Prop where
  | added {s : DiffusionScheduler} {pending : Option DiffusionStepBatch}
      (req : DiffusionRequest) :
      Step ⟨s, pending⟩ (.added req) ⟨s.addRequest req, pending⟩
  | scheduled {s : DiffusionScheduler} {batch : Option DiffusionStepBatch}
      (returns : s.scheduleStep.1 = .ok batch) :
      Step ⟨s, none⟩
        (.scheduled (s.scheduleStep.2.running.filter (· ∉ s.running)) batch)
        ⟨s.scheduleStep.2, batch⟩
  | applied {s : DiffusionScheduler} {batch : DiffusionStepBatch}
      {updates : List DiffusionStepUpdate}
      (each : (updates.map DiffusionStepUpdate.reqId).Perm batch.ids) :
      Step ⟨s, some batch⟩ (.applied updates (s.applyUpdatesAndCollectFinished updates).1)
        ⟨(s.applyUpdatesAndCollectFinished updates).2, none⟩

end Rounds

/-! ### The invariant -/

namespace Rounds

/-- Where the requests are after the given events. -/
structure Inv (maxBatchSize : ℕ) (events : List Event) (c : Rounds) : Prop where
  limit : c.scheduler.maxBatchSize = maxBatchSize
  pool : c.scheduler.poolInitialized = true
  consistent : c.scheduler.Consistent
  funded : c.scheduler.Funded
  order : enteredIds events ++ c.scheduler.waitingIds = addedIds events
  placed : (enteredIds events).Perm (c.scheduler.running ++ reportedIds events)
  finished : c.scheduler.finishedReqIds = (reportedIds events).toFinset
  capacity : c.scheduler.running.length ≤ maxBatchSize
  pending : ∀ batch, c.pending = some batch → batch.ids = c.scheduler.running ∧ batch.ids ≠ []

namespace Inv

variable {maxBatchSize : ℕ} {events : List Event} {c : Rounds}

/-- Waiting, running and reported ids together are the ids that arrived. -/
theorem perm_added (h : Inv maxBatchSize events c) :
    (addedIds events).Perm
      (c.scheduler.running ++ reportedIds events ++ c.scheduler.waitingIds) := by
  rw [← h.order]
  exact h.placed.append_right _

theorem nodup (h : Inv maxBatchSize events c) (distinct : (addedIds events).Nodup) :
    (c.scheduler.running ++ reportedIds events ++ c.scheduler.waitingIds).Nodup :=
  h.perm_added.nodup_iff.mp distinct

theorem running_waiting_nodup (h : Inv maxBatchSize events c)
    (distinct : (addedIds events).Nodup) :
    (c.scheduler.running ++ c.scheduler.waitingIds).Nodup := by
  have hnodup := h.nodup distinct
  grind

variable {id : String}

theorem known (h : Inv maxBatchSize events c) (hid : id ∈ c.scheduler.activeIds) :
    (c.scheduler.states id).isSome := by
  obtain ⟨_, hst, _⟩ := h.funded id hid
  simp [hst]

theorem added (h : Inv maxBatchSize events c) (req : DiffusionRequest) :
    Inv maxBatchSize (events ++ [.added req])
      ⟨c.scheduler.addRequest req, c.pending⟩ where
  limit := h.limit
  pool := h.pool
  consistent := h.consistent.addRequest req
  funded := h.funded.addRequest req
  order := by
    have horder := h.order
    simp [Event.entered, Event.addedId, DiffusionScheduler.addRequest,
      DiffusionScheduler.waitingIds, ← horder]
  placed := by simpa [Event.entered, Event.reported, DiffusionScheduler.addRequest] using h.placed
  finished := by simpa [Event.reported, DiffusionScheduler.addRequest] using h.finished
  capacity := h.capacity
  pending := h.pending

/-- What a scheduled step leaves: the queue lost the entered ids, and the batch is the running
list. -/
theorem scheduled (h : Inv maxBatchSize events c) (distinct : (addedIds events).Nodup)
    {batch : Option DiffusionStepBatch} (returns : c.scheduler.scheduleStep.1 = .ok batch) :
    Inv maxBatchSize
      (events ++ [.scheduled
        (c.scheduler.scheduleStep.2.running.filter (· ∉ c.scheduler.running)) batch])
      ⟨c.scheduler.scheduleStep.2, batch⟩ := by
  have hnodup := h.running_waiting_nodup distinct
  have hknown : ∀ id ∈ c.scheduler.waitingIds, (c.scheduler.states id).isSome :=
    fun id hid => h.known (DiffusionScheduler.mem_activeIds.mpr (.inr hid))
  obtain ⟨taken, hqueue, hrunning, hstates⟩ :=
    DiffusionScheduler.ensureRunningCapacity_moves hnodup hknown
  have hentered : (c.scheduler.ensureRunningCapacity.2.running.filter
      (· ∉ c.scheduler.running)) = taken := by
    rw [hqueue] at hnodup
    rw [hrunning, filter_append, filter_eq_nil_iff.mpr (by simp),
      filter_eq_self.mpr, nil_append]
    grind
  have hfunded : c.scheduler.ensureRunningCapacity.2.Funded := by
    intro id hid
    rw [hstates]
    rw [DiffusionScheduler.ensureRunningCapacity_activeIds] at hid
    exact h.funded id hid
  have hcapacity := DiffusionScheduler.ensureRunningCapacity_capacity
    (h.capacity.trans h.limit.symm.le)
  rw [h.limit] at hcapacity
  have hconsistent := h.consistent.ensureRunningCapacity
  -- the batch is the whole running list, because the list is below the limit
  have hids : c.scheduler.ensureRunningCapacity.2.stepRequests.map DiffusionStepRequest.reqId =
      c.scheduler.ensureRunningCapacity.2.running := by
    apply DiffusionScheduler.stepRequests_ids hconsistent
    · intro id hid
      obtain ⟨_, hst, _⟩ := hfunded id (DiffusionScheduler.mem_activeIds.mpr (.inl hid))
      simp [hst]
    · simpa [h.limit] using hcapacity
  rw [DiffusionScheduler.scheduleStep_state, hentered]
  exact {
    limit := by simpa using h.limit
    pool := by simpa using h.pool
    consistent := hconsistent
    funded := hfunded
    order := by simpa [Event.entered, Event.addedId, ← hqueue] using h.order
    placed := by
      simp only [enteredIds_concat, reportedIds_concat, Event.entered, Event.reported, hrunning,
        append_nil]
      refine (h.placed.append_right taken).trans ?_
      rw [append_assoc, append_assoc]
      exact perm_append_comm.append_left _
    finished := by simpa [Event.reported] using h.finished
    capacity := hcapacity
    pending := by
      intro batch' hbatch'
      subst hbatch'
      obtain ⟨hreqs, hnonempty⟩ :=
        DiffusionScheduler.requests_of_scheduleStep c.scheduler returns
      refine ⟨by rw [DiffusionStepBatch.ids, hreqs, hids], ?_⟩
      simpa [DiffusionStepBatch.ids] using hnonempty }

/-- The updates of a batch that is out are for distinct running requests. -/
theorem updates_running {s : DiffusionScheduler} {batch : DiffusionStepBatch}
    (h : Inv maxBatchSize events ⟨s, some batch⟩) (distinct : (addedIds events).Nodup)
    {updates : List DiffusionStepUpdate}
    (each : (updates.map DiffusionStepUpdate.reqId).Perm batch.ids) :
    (updates.map DiffusionStepUpdate.reqId).Nodup ∧ (∀ up ∈ updates, up.reqId ∈ s.running) ∧
      (∀ up ∈ updates, up.reqId ∉ s.waitingIds) ∧ 1 ≤ updates.length := by
  obtain ⟨hbatch, hnonempty⟩ := h.pending batch rfl
  have hnodup : (s.running ++ s.waitingIds).Nodup := h.running_waiting_nodup distinct
  have hruns : ∀ up ∈ updates, up.reqId ∈ s.running := by
    intro up hup
    have hmem := each.subset (mem_map_of_mem hup)
    rwa [hbatch] at hmem
  refine ⟨?_, hruns, ?_, ?_⟩
  · rw [each.nodup_iff, hbatch]
    exact hnodup.of_append_left
  · intro up hup hwaits
    exact (nodup_append.mp hnodup).2.2 _ (hruns up hup) _ hwaits rfl
  · have hlength := each.length_eq
    rw [length_map] at hlength
    rw [hlength]
    exact length_pos_iff.mpr hnonempty

theorem applied {s : DiffusionScheduler} {batch : DiffusionStepBatch}
    (h : Inv maxBatchSize events ⟨s, some batch⟩) (distinct : (addedIds events).Nodup)
    {updates : List DiffusionStepUpdate}
    (each : (updates.map DiffusionStepUpdate.reqId).Perm batch.ids) :
    Inv maxBatchSize
      (events ++ [.applied updates (s.applyUpdatesAndCollectFinished updates).1])
      ⟨(s.applyUpdatesAndCollectFinished updates).2, none⟩ ∧
    (s.applyUpdatesAndCollectFinished updates).2.workLeft + 1 ≤ s.workLeft := by
  obtain ⟨hdistinct, hruns, hidle, hlength⟩ := h.updates_running distinct each
  have hconsistent : s.Consistent := h.consistent
  have hold : s.Funded := h.funded
  have hknown : ∀ id ∈ s.running, (s.states id).isSome :=
    fun id hid => h.known (DiffusionScheduler.mem_activeIds.mpr (.inl hid))
  obtain ⟨hperm, hfin⟩ :=
    DiffusionScheduler.applyUpdates_moves hconsistent hdistinct hruns hknown
  obtain ⟨hfunded, hwork⟩ := hold.applyUpdates hconsistent hdistinct hruns hidle
  refine ⟨?_, by omega⟩
  exact {
    limit := (s.applyUpdates_frame updates).2.1.trans h.limit
    pool := by simpa using h.pool
    consistent := hconsistent.applyUpdates updates
    funded := hfunded
    order := by
      simpa [Event.entered, Event.addedId, DiffusionScheduler.applyUpdates_waitingIds] using h.order
    placed := by
      simp only [enteredIds_concat, reportedIds_concat, Event.entered, Event.reported,
        append_nil]
      refine h.placed.trans ((hperm.append_right _).trans ?_)
      rw [append_assoc]
      exact perm_append_comm.append_left _
    finished := by
      have hbefore := h.finished
      rw [hfin, hbefore]
      simp [Event.reported]
    capacity := by
      have hlen := hperm.length_eq
      have hcap := h.capacity
      dsimp only at hcap ⊢
      rw [length_append] at hlen
      omega
    pending := by
      intro batch' hbatch'
      cases hbatch' }

theorem init (maxBatchSize : ℕ) : Inv maxBatchSize [] (Rounds.init maxBatchSize) where
  limit := rfl
  pool := rfl
  consistent :=
    have h := DiffusionScheduler.consistent_init maxBatchSize
    ⟨h.nodup, h.filed⟩
  funded := by
    intro id hid
    simp [DiffusionScheduler.activeIds, Rounds.init, DiffusionScheduler.init,
      DiffusionScheduler.setModelRunner, DiffusionScheduler.waitingIds] at hid
  order := rfl
  placed := List.Perm.refl _
  finished := rfl
  capacity := Nat.zero_le _
  pending := by
    intro batch hbatch
    cases hbatch

theorem step {e : Event} {d : Rounds} (h : Inv maxBatchSize events c)
    (distinct : (addedIds events).Nodup) (hstep : Step c e d) :
    Inv maxBatchSize (events ++ [e]) d := by
  cases hstep with
  | added req => exact h.added req
  | scheduled returns => exact h.scheduled distinct returns
  | applied each => exact (h.applied distinct each).1

theorem of_execution (run : Execution Step (Rounds.init maxBatchSize) events c)
    (distinct : (addedIds events).Nodup) : Inv maxBatchSize events c := by
  revert distinct
  refine Execution.invariant
    (P := fun events c => (addedIds events).Nodup → Inv maxBatchSize events c) ?_ ?_ run
  · exact fun _ => .init maxBatchSize
  · intro events t event u ih last distinct
    -- the ids that arrived before the last event are distinct as well
    rw [addedIds_concat] at distinct
    have hearlier := distinct.of_append_left
    exact (ih hearlier).step hearlier last

section

variable (h : Inv maxBatchSize events c)
include h

theorem scheduleStep_workLeft (distinct : (addedIds events).Nodup) :
    c.scheduler.scheduleStep.2.workLeft = c.scheduler.workLeft := by
  obtain ⟨_, _, _, hstates⟩ := DiffusionScheduler.ensureRunningCapacity_moves
    (h.running_waiting_nodup distinct)
    fun id hid => h.known (DiffusionScheduler.mem_activeIds.mpr (.inr hid))
  rw [DiffusionScheduler.scheduleStep_state, DiffusionScheduler.workLeft,
    DiffusionScheduler.ensureRunningCapacity_activeIds, DiffusionScheduler.workLeft]
  unfold DiffusionScheduler.stepsLeftOf
  rw [hstates]

/-- Only an idle scheduler has no step to schedule. -/
theorem idle_of_scheduled_none (distinct : (addedIds events).Nodup) (hmax : 1 ≤ maxBatchSize)
    (returns : c.scheduler.scheduleStep.1 = .ok none) : c.scheduler.activeIds = ∅ := by
  have hafter := h.scheduled distinct returns
  have hpool := h.pool
  have hcapacity := hafter.capacity
  have hlimit := hafter.limit
  have hknown : ∀ id ∈ c.scheduler.scheduleStep.2.running,
      (c.scheduler.scheduleStep.2.states id).isSome :=
    fun id hid => hafter.known (DiffusionScheduler.mem_activeIds.mpr (.inl hid))
  have hids := DiffusionScheduler.stepRequests_ids hafter.consistent hknown
    (hcapacity.trans hlimit.symm.le)
  rw [DiffusionScheduler.scheduleStep_state] at hlimit hids
  rw [DiffusionScheduler.scheduleStep_result] at returns
  obtain ⟨hok, hroom⟩ | ⟨herror, _⟩ := c.scheduler.ensureRunningCapacity_exit
  · rw [hok, Except.map, Except.ok.injEq] at returns
    have hempty : c.scheduler.ensureRunningCapacity.2.stepRequests = [] := by
      by_contra hne
      simp [hne] at returns
    have hrunning : c.scheduler.ensureRunningCapacity.2.running = [] := by
      rw [← hids, hempty]
      rfl
    -- nothing runs, so there is room, and the queue must be empty
    have hwait : c.scheduler.ensureRunningCapacity.2.waiting = [] := by
      by_contra hne
      rw [DiffusionScheduler.canAddMoreRequests_of_waiting hne, hrunning, hlimit] at hroom
      simp only [length_nil, decide_eq_false_iff_not, not_lt] at hroom
      omega
    rw [← DiffusionScheduler.ensureRunningCapacity_activeIds]
    simp [DiffusionScheduler.activeIds, DiffusionScheduler.waitingIds, hrunning, hwait]
  · rw [herror] at returns
    cases returns

/-- An active request has work left. -/
theorem one_le_workLeft (hactive : c.scheduler.activeIds ≠ ∅) : 1 ≤ c.scheduler.workLeft := by
  obtain ⟨id, hid⟩ := Finset.nonempty_iff_ne_empty.mpr hactive
  have hone := h.funded.one_le_stepsLeftOf hid
  have hle : c.scheduler.stepsLeftOf id ≤ c.scheduler.workLeft :=
    Finset.single_le_sum (fun _ _ => Nat.zero_le _) hid
  omega

theorem mem_finished_iff : id ∈ c.scheduler.finishedReqIds ↔ id ∈ reportedIds events := by
  rw [h.finished, mem_toFinset]

theorem mem_added_iff : id ∈ addedIds events ↔
      id ∈ c.scheduler.running ∨ id ∈ reportedIds events ∨ id ∈ c.scheduler.waitingIds := by
  rw [h.perm_added.mem_iff]
  simp

/-- A request that arrived waits, runs or is finished, and only one of these. -/
theorem one_place (distinct : (addedIds events).Nodup) (hid : id ∈ addedIds events) :
    (id ∈ c.scheduler.waitingIds ∧ id ∉ c.scheduler.running ∧
      id ∉ c.scheduler.finishedReqIds) ∨
    (id ∉ c.scheduler.waitingIds ∧ id ∈ c.scheduler.running ∧
      id ∉ c.scheduler.finishedReqIds) ∨
    (id ∉ c.scheduler.waitingIds ∧ id ∉ c.scheduler.running ∧
      id ∈ c.scheduler.finishedReqIds) := by
  have hnodup := h.nodup distinct
  have hsome := h.mem_added_iff.mp hid
  rw [h.mem_finished_iff]
  grind

/-- A finished request was reported once, and no other request was. -/
theorem count_reported (distinct : (addedIds events).Nodup) (id : String) :
    (reportedIds events).count id = if id ∈ c.scheduler.finishedReqIds then 1 else 0 := by
  have hnodup := h.nodup distinct
  have hreported : (reportedIds events).Nodup := by grind
  by_cases hid : id ∈ reportedIds events
  · rw [if_pos (h.mem_finished_iff.mpr hid)]
    exact count_eq_one_of_mem hreported hid
  · rw [if_neg (mt h.mem_finished_iff.mp hid)]
    exact count_eq_zero_of_not_mem hid

/-- The batch that is out holds no request that was reported. -/
theorem pending_not_reported (distinct : (addedIds events).Nodup) {batch : DiffusionStepBatch}
    (hbatch : c.pending = some batch) (hid : id ∈ reportedIds events) : id ∉ batch.ids := by
  have hnodup := h.nodup distinct
  rw [(h.pending batch hbatch).1]
  grind

end

end Inv

/-! ### Enough rounds finish every request -/

variable {maxBatchSize : ℕ} {events later : List Event} {c d : Rounds}

theorem addedIds_append (events later : List Event) :
    addedIds (events ++ later) = addedIds events ++ addedIds later := by
  simp [addedIds]

section

variable (hc : Inv maxBatchSize events c) (distinct : (addedIds events).Nodup)
  (hmax : 1 ≤ maxBatchSize) (run : Execution Step c later d) (noArrival : addedIds later = [])
include hc distinct hmax run noArrival

/-- Without arrivals, every scheduled step takes work away, until nothing is active. -/
theorem scheduledSteps_le : Inv maxBatchSize (events ++ later) d ∧
      (d.scheduler.activeIds = ∅ ∨
        scheduledSteps later + d.scheduler.workLeft ≤
          c.scheduler.workLeft + if d.pending.isSome then 1 else 0) := by
  induction run with
  | start => exact ⟨by simpa using hc, .inr (by simp [scheduledSteps])⟩
  | @extend later t u e _ last ih =>
    rw [addedIds_concat, append_eq_nil_iff] at noArrival
    obtain ⟨ht, hwork⟩ := ih noArrival.1
    have hdistinct : (addedIds (events ++ later)).Nodup := by
      simpa [addedIds_append, noArrival.1] using distinct
    refine ⟨by simpa using ht.step hdistinct last, ?_⟩
    have hcount : scheduledSteps (later ++ [e]) =
        scheduledSteps later + if e.isScheduled then 1 else 0 := by
      simp [scheduledSteps, countP_append, countP_cons]
    cases last with
    | added req => simp [Event.addedId] at noArrival
    | @scheduled s batch returns =>
      have hkeep : s.scheduleStep.2.workLeft = s.workLeft := ht.scheduleStep_workLeft hdistinct
      have hactive : s.scheduleStep.2.activeIds = s.activeIds := by
        rw [DiffusionScheduler.scheduleStep_state,
          DiffusionScheduler.ensureRunningCapacity_activeIds]
      rw [hactive]
      cases batch with
      | none => exact .inl (ht.idle_of_scheduled_none hdistinct hmax returns)
      | some batch =>
        refine hwork.imp_right fun hle => ?_
        rw [hcount, hkeep]
        simp only [Event.isScheduled, Option.isSome_none, Option.isSome_some, if_true,
          Bool.false_eq_true, if_false] at hle ⊢
        omega
    | @applied s batch updates each =>
      have hless : (s.applyUpdatesAndCollectFinished updates).2.workLeft + 1 ≤ s.workLeft :=
        (ht.applied hdistinct each).2
      obtain ⟨hids, hnonempty⟩ := ht.pending batch rfl
      -- a batch is out, so something runs
      have hnotidle : s.activeIds ≠ ∅ := by
        intro hidle
        obtain ⟨id, hid⟩ := exists_mem_of_ne_nil _ hnonempty
        rw [hids] at hid
        have hmem : id ∈ s.activeIds := DiffusionScheduler.mem_activeIds.mpr (.inl hid)
        rw [hidle] at hmem
        exact absurd hmem (Finset.notMem_empty id)
      have hle := hwork.resolve_left hnotidle
      right
      rw [hcount]
      simp only [Event.isScheduled, Option.isSome_none, Option.isSome_some, if_true,
        Bool.false_eq_true, if_false] at hle ⊢
      omega

/-- When more steps were scheduled than there was work, without further arrivals, every request
has been reported finished. -/
theorem all_reported (enough : c.scheduler.workLeft < scheduledSteps later) :
    (addedIds events).Perm (reportedIds (events ++ later)) := by
  obtain ⟨hd, hwork⟩ := scheduledSteps_le hc distinct hmax run noArrival
  have hidle : d.scheduler.activeIds = ∅ := by
    by_contra hactive
    have hle := hwork.resolve_left hactive
    have hone := hd.one_le_workLeft hactive
    split at hle
    · omega
    · omega
  have hnil : d.scheduler.running = [] ∧ d.scheduler.waitingIds = [] := by
    simpa [DiffusionScheduler.activeIds] using hidle
  have hperm := hd.perm_added
  rw [addedIds_append, noArrival, hnil.1, hnil.2] at hperm
  simpa using hperm

/-! ### The lifecycle -/

end

theorem hasActiveRequests_iff (s : DiffusionScheduler) :
    s.hasActiveRequests = true ↔ ∃ id, id ∈ s.waitingIds ∨ id ∈ s.running := by
  unfold DiffusionScheduler.hasActiveRequests DiffusionScheduler.waitingIds
  cases s.waiting with
  | nil =>
    cases s.running with
    | nil => simp
    | cons id rest => simp
  | cons req rest => simp [exists_or]

/-- There are active requests as long as some request is not finished. -/
theorem Inv.hasActiveRequests_iff (h : Inv maxBatchSize events c)
    (distinct : (addedIds events).Nodup) :
    c.scheduler.hasActiveRequests = true ↔
      ∃ id ∈ addedIds events, id ∉ c.scheduler.finishedReqIds := by
  rw [Rounds.hasActiveRequests_iff]
  apply exists_congr
  intro id
  constructor
  · intro hactive
    have hadded := h.mem_added_iff.mpr (show id ∈ c.scheduler.running ∨ id ∈ reportedIds events ∨
      id ∈ c.scheduler.waitingIds by tauto)
    have hplace := h.one_place distinct hadded
    exact ⟨hadded, by tauto⟩
  · intro ⟨hadded, hunfinished⟩
    have hplace := h.one_place distinct hadded
    tauto

/-- No batch of a run holds an id that was reported before. -/
theorem batch_not_reported (run : Execution Step (Rounds.init maxBatchSize) events c)
    (distinct : (addedIds events).Nodup) {earlier later : List Event} {entered : List String}
    {batch : DiffusionStepBatch}
    (hsplit : events = earlier ++ .scheduled entered (some batch) :: later) {id : String}
    (hid : id ∈ reportedIds earlier) : id ∉ batch.ids := by
  -- the run up to and including this batch
  rw [hsplit, append_cons, Execution.append_iff] at run
  obtain ⟨_, hrun, _⟩ := run
  have hearlier : (addedIds (earlier ++ [.scheduled entered (some batch)])).Nodup := by
    rw [hsplit, append_cons, addedIds_append] at distinct
    exact distinct.of_append_left
  have ht := Inv.of_execution hrun hearlier
  obtain ⟨_, _, hlast⟩ := Execution.concat_iff.mp hrun
  cases hlast with
  | scheduled returns =>
    apply ht.pending_not_reported hearlier rfl
    rw [reportedIds_concat]
    exact mem_append_left _ hid

/-- In every run with distinct ids:

* every request that arrived is in exactly one of the queue, the running list and the finished
  set;
* the ids enter the running list in their order of arrival;
* the running list stays within the limit;
* no batch holds an id that was reported finished before;
* an id is reported finished once if it is finished, and never otherwise;
* there are active requests exactly as long as some request is not finished;
* in every continuation with enough further steps and no further arrivals, every request is
  reported finished exactly once. -/
theorem lifecycle (maxBatchSize : ℕ) (events : List Event) (c : Rounds)
    (run : Execution Step (Rounds.init maxBatchSize) events c)
    (distinct : (addedIds events).Nodup) :
    (∀ id ∈ addedIds events,
      (id ∈ c.scheduler.waitingIds ∧ id ∉ c.scheduler.running ∧
        id ∉ c.scheduler.finishedReqIds) ∨
      (id ∉ c.scheduler.waitingIds ∧ id ∈ c.scheduler.running ∧
        id ∉ c.scheduler.finishedReqIds) ∨
      (id ∉ c.scheduler.waitingIds ∧ id ∉ c.scheduler.running ∧
        id ∈ c.scheduler.finishedReqIds)) ∧
    enteredIds events <+: addedIds events ∧
    c.scheduler.running.length ≤ maxBatchSize ∧
    (∀ earlier entered batch later,
      events = earlier ++ .scheduled entered (some batch) :: later →
      ∀ id ∈ reportedIds earlier, id ∉ batch.ids) ∧
    (∀ id, (reportedIds events).count id = if id ∈ c.scheduler.finishedReqIds then 1 else 0) ∧
    (c.scheduler.hasActiveRequests = true ↔
      ∃ id ∈ addedIds events, id ∉ c.scheduler.finishedReqIds) ∧
    (1 ≤ maxBatchSize → ∃ enough, ∀ later d, Execution Step c later d → addedIds later = [] →
      enough < scheduledSteps later →
      ∀ id ∈ addedIds events, (reportedIds (events ++ later)).count id = 1) := by
  have h := Inv.of_execution run distinct
  refine ⟨fun id hid => h.one_place distinct hid, ⟨_, h.order⟩, h.capacity, ?_,
    h.count_reported distinct, h.hasActiveRequests_iff distinct, ?_⟩
  · intro earlier entered batch later hsplit id hid
    exact batch_not_reported run distinct hsplit hid
  · intro hmax
    refine ⟨c.scheduler.workLeft, ?_⟩
    intro later d hlater noArrival enough id hid
    have hperm := all_reported h distinct hmax hlater noArrival enough
    rw [← hperm.count_eq]
    exact count_eq_one_of_mem distinct hid

/-- Two requests and a limit of one: the first runs and finishes, the second waits. -/
theorem lifecycle_two_requests :
    ∃ events c, Execution Step (Rounds.init 1) events c ∧ addedIds events = ["a", "b"] ∧
      c.scheduler.waitingIds = ["b"] ∧ (reportedIds events).count "a" = 1 := by
  let params : DiffusionParams := { steps := 1, genLength := 1, blockLength := 1 }
  let one := (Rounds.init 1).scheduler.addRequest ⟨"a", [1], params⟩
  let two := one.addRequest ⟨"b", [2], params⟩
  have hadd : Execution Step (Rounds.init 1) [.added ⟨"a", [1], params⟩, .added ⟨"b", [2], params⟩]
      ⟨two, none⟩ := (Execution.single (Step.added _)).extend (Step.added _)
  have hreturns : two.scheduleStep.1 =
      .ok (some ⟨[⟨"a", [1, 126336], 1, 2, params, 0, 0⟩]⟩) := rfl
  have hschedule := hadd.extend (Step.scheduled hreturns)
  have heach : (List.map DiffusionStepUpdate.reqId [⟨"a", [1, 7], 0, 0⟩]).Perm
      (DiffusionStepBatch.ids ⟨[⟨"a", [1, 126336], 1, 2, params, 0, 0⟩]⟩) := List.Perm.refl _
  have hrun := hschedule.extend (Step.applied heach)
  refine ⟨_, _, hrun, rfl, rfl, ?_⟩
  have hcount := (lifecycle 1 _ _ hrun (by decide)).2.2.2.2.1 "a"
  rw [hcount]
  rfl

end Rounds

end Diffusion
