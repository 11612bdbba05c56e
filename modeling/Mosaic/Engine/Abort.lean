import Mosaic.Engine.Core
import Mosaic.Diffusion.SchedulerMoves

/-!
# Aborted requests

An abort does not reach the diffusion scheduler. So it is final for ids that are not active
there, and has no effect on the others: as long as the batch limit leaves room for all active
requests, the next step schedules an aborted request that waits or runs.
-/

namespace Engine

open List Diffusion
open Transition (Execution)

variable {F : Type} [LinearOrder F]

/-! ### Healthy schedulers -/

/-- Every active id has a state, and the running list is within the limit. -/
structure Healthy (s : DiffusionScheduler) : Prop extends s.Consistent where
  known : ∀ id ∈ s.activeIds, (s.states id).isSome
  capacity : s.running.length ≤ s.maxBatchSize

namespace Healthy

variable {s : DiffusionScheduler}

theorem addRequest (h : Healthy s) (req : DiffusionRequest) : Healthy (s.addRequest req) where
  toConsistent := h.toConsistent.addRequest req
  known := by
    intro id hid
    by_cases hreq : id = req.reqId
    · simp [DiffusionScheduler.addRequest, hreq]
    · rw [DiffusionScheduler.mem_activeIds] at hid
      simp only [DiffusionScheduler.addRequest, DiffusionScheduler.waitingIds, map_append,
        mem_append, map_singleton, mem_singleton, hreq, or_false] at hid
      simpa [DiffusionScheduler.addRequest, hreq] using
        h.known id (DiffusionScheduler.mem_activeIds.mpr hid)
  capacity := h.capacity

theorem ensureRunningCapacity (h : Healthy s) : Healthy s.ensureRunningCapacity.2 where
  toConsistent := h.toConsistent.ensureRunningCapacity
  known := by
    intro id hid
    rw [DiffusionScheduler.ensureRunningCapacity_activeIds] at hid
    -- the refill never removes a state
    apply DiffusionScheduler.ensureRunningCapacity_induction
      (P := fun t => (t.states id).isSome) (h.known id hid)
    intro t req rest ht _ _
    unfold DiffusionScheduler.startRunning
    split
    · by_cases hreq : id = req.reqId
      · simp [hreq]
      · simpa [hreq] using ht
    · exact ht
  capacity := by
    rw [DiffusionScheduler.ensureRunningCapacity_maxBatchSize]
    exact DiffusionScheduler.ensureRunningCapacity_capacity h.capacity

theorem applyUpdates (h : Healthy s) (updates : List DiffusionStepUpdate) :
    Healthy (s.applyUpdatesAndCollectFinished updates).2 where
  toConsistent := h.toConsistent.applyUpdates updates
  known := by
    intro id hid
    rw [DiffusionScheduler.applyUpdates_isSome]
    exact h.known id (applyUpdates_activeIds_subset updates hid)
  capacity := by
    have hlen : (s.applyUpdatesAndCollectFinished updates).2.running.length ≤
        s.running.length := by
      apply DiffusionScheduler.applyUpdates_preserves
        (P := fun t => t.running.length ≤ s.running.length) _ le_rfl
      intro t up ht
      obtain ⟨_, heq⟩ | ⟨_, _, ⟨_, heq⟩ | ⟨_, heq⟩⟩ := t.applyUpdate_cases up
      · rw [heq]
        exact ht
      · rw [heq]
        exact ht
      · rw [heq]
        exact length_erase_le.trans ht
    rw [(s.applyUpdates_frame updates).2.1]
    exact hlen.trans h.capacity

/-- When the limit leaves room for all active ids, a refill makes all of them run. -/
theorem active_runs (h : Healthy s) (room : s.activeIds.card ≤ s.maxBatchSize)
    (returns : s.ensureRunningCapacity.1 = .ok ()) {id : String} (hid : id ∈ s.activeIds) :
    id ∈ s.ensureRunningCapacity.2.running := by
  have hafter := h.ensureRunningCapacity
  rw [← s.ensureRunningCapacity_activeIds] at hid room
  rw [← s.ensureRunningCapacity_maxBatchSize] at room
  by_cases hempty : s.ensureRunningCapacity.2.waiting = []
  · rw [DiffusionScheduler.mem_activeIds] at hid
    simpa [DiffusionScheduler.waitingIds, hempty] using hid
  · -- the running list is full, so it holds as many ids as there are active ones
    have hfull : s.ensureRunningCapacity.2.canAddMoreRequests = false := by
      obtain ⟨_, hfull⟩ | ⟨herror, _⟩ := s.ensureRunningCapacity_exit
      · exact hfull
      · rw [herror] at returns
        cases returns
    rw [DiffusionScheduler.canAddMoreRequests_of_waiting hempty, decide_eq_false_iff_not, not_lt]
      at hfull
    have hsub : s.ensureRunningCapacity.2.running.toFinset ⊆
        s.ensureRunningCapacity.2.activeIds := by
      intro key hkey
      exact DiffusionScheduler.mem_activeIds.mpr (.inl (by simpa using hkey))
    have heq : s.ensureRunningCapacity.2.running.toFinset =
        s.ensureRunningCapacity.2.activeIds := by
      apply Finset.eq_of_subset_of_card_le hsub
      rw [toFinset_card_of_nodup hafter.nodup]
      exact room.trans hfull
    rw [← heq, mem_toFinset] at hid
    exact hid

end Healthy

/-- With an initialised pool and room for all active ids, a step schedules every one of them. -/
theorem scheduled_of_active (env : RunnerEnv F) {s : DiffusionScheduler} (h : Healthy s)
    (pool : s.poolInitialized = true) (room : s.activeIds.card ≤ s.maxBatchSize) {id : String}
    (hid : id ∈ s.activeIds) :
    ∃ batch, (diffusionStep env s).batch = some batch ∧
      id ∈ batch.requests.map DiffusionStepRequest.reqId := by
  -- The refill loop ends, since a pool that is initialised does not refuse a request.
  have hreturns : s.ensureRunningCapacity.1 = .ok () := by
    obtain ⟨hok, _⟩ | ⟨_, hempty, hroom⟩ := s.ensureRunningCapacity_exit
    · exact hok
    · rw [DiffusionScheduler.canAddMoreRequests_of_waiting_nil hempty,
        DiffusionScheduler.ensureRunningCapacity_poolInitialized, pool] at hroom
      cases hroom
  have hafter := h.ensureRunningCapacity
  have hids := DiffusionScheduler.stepRequests_ids hafter.toConsistent
    (fun key hkey => hafter.known key (DiffusionScheduler.mem_activeIds.mpr (.inl hkey)))
    hafter.capacity
  have hmem : id ∈ s.ensureRunningCapacity.2.stepRequests.map DiffusionStepRequest.reqId := by
    rw [hids]
    exact h.active_runs room hreturns hid
  have hne : s.ensureRunningCapacity.2.stepRequests.isEmpty = false := by
    rw [isEmpty_eq_false_iff]
    intro hnil
    simp [hnil] at hmem
  have hactive : s.hasActiveRequests = true := by
    rw [DiffusionScheduler.mem_activeIds] at hid
    unfold DiffusionScheduler.hasActiveRequests
    cases hid with
    | inl hrun => simp [length_pos_of_mem hrun]
    | inr hwait =>
      unfold DiffusionScheduler.waitingIds at hwait
      cases hwaiting : s.waiting with
      | nil => simp [hwaiting] at hwait
      | cons req rest => simp
  have hschedule : s.scheduleStep = (.ok (some ⟨s.ensureRunningCapacity.2.stepRequests⟩),
      s.ensureRunningCapacity.2) := by
    apply Prod.ext
    · rw [DiffusionScheduler.scheduleStep_result, hreturns, hne]
      rfl
    · exact s.scheduleStep_state
  refine ⟨⟨s.ensureRunningCapacity.2.stepRequests⟩, ?_, hmem⟩
  unfold diffusionStep
  rw [hactive, hschedule]
  simp only [Bool.not_true, Bool.false_eq_true, if_false]
  split
  · rfl
  · rfl

namespace EngineCore

theorem Step.healthy {e e' : EngineCore} {event : Event} (hstep : Step F e event e')
    (h : Healthy e.diffusionScheduler) : Healthy e'.diffusionScheduler := by
  cases hstep with
  | added request =>
    unfold addRequest
    split
    · split
      · exact h
      · exact h.addRequest _
    · exact h.addRequest _
  | aborted requestIds => exact h
  | stepped env =>
    show Healthy (diffusionStep env e.diffusionScheduler).scheduler
    obtain heq | ⟨_, -, heq⟩ | ⟨_, -, ⟨_, heq⟩ | ⟨updates, -, heq⟩⟩ :=
      diffusionStep_cases env e.diffusionScheduler
    · rw [heq]
      exact h
    · rw [heq]
      exact h.ensureRunningCapacity
    · rw [heq]
      exact h.ensureRunningCapacity
    · rw [heq]
      exact h.ensureRunningCapacity.applyUpdates updates

theorem healthy_of_execution {runner : Option ModelRunnerRef} {events : List Event}
    {e : EngineCore} (run : Execution (Step F) (init runner) events e) :
    Healthy e.diffusionScheduler := by
  apply run.preserves (P := fun e => Healthy e.diffusionScheduler)
  · intro t event u ht hstep
    exact hstep.healthy ht
  · have h := DiffusionScheduler.consistent_init 999
    refine ⟨⟨h.nodup, h.filed⟩, ?_, Nat.zero_le _⟩
    intro id hid
    simp [init, DiffusionScheduler.activeIds, DiffusionScheduler.waitingIds] at hid

/-- While an id is inactive and not added, no event of a run names it. -/
theorem unnamed_of_inactive {e e' : EngineCore} {later : List Event} {id : String}
    (run : Execution (Step F) e later e') (hs : e.diffusionScheduler.Consistent)
    (inactive : id ∉ e.diffusionScheduler.activeIds)
    (notAdded : ∀ event ∈ later, id ∉ event.addedId) :
    ∀ event ∈ later, id ∉ event.scheduledIds ∧ id ∉ event.outputIds := by
  -- along the run the id stays inactive
  suffices key : e'.diffusionScheduler.Consistent ∧ id ∉ e'.diffusionScheduler.activeIds ∧
      ∀ event ∈ later, id ∉ event.scheduledIds ∧ id ∉ event.outputIds from key.2.2
  induction run with
  | start => exact ⟨hs, inactive, by simp⟩
  | @extend events t u event _ last ih =>
    obtain ⟨ht, hidle, hearlier⟩ := ih fun event hevent => notAdded event (by simp [hevent])
    obtain ⟨hnext, hsched, hout⟩ :=
      last.keeps_inactive ht hidle (notAdded event (by simp))
    refine ⟨last.consistent ht, hnext, ?_⟩
    intro event' hevent'
    rw [mem_append, mem_singleton] at hevent'
    cases hevent' with
    | inl hold => exact hearlier event' hold
    | inr hlast => exact hlast ▸ ⟨hsched, hout⟩

/-- From this state on, no step schedules the id or puts out anything for it, until it is
added. -/
def SilentUntilAdded (F : Type) [LinearOrder F] (e : EngineCore) (id : String) : Prop :=
  ∀ later e', Execution (Step F) e later e' → (∀ event ∈ later, id ∉ event.addedId) →
    ∀ event ∈ later, id ∉ event.scheduledIds ∧ id ∉ event.outputIds

/-- In every run, an abort of an id that neither waits nor runs in the diffusion scheduler is
final: no later step schedules the id or puts out anything for it, until it is added again. An
abort of any other id has no effect: with an initialised pool and at most 999 active requests,
every next step schedules it. -/
theorem abort_final_of_inactive (runner : Option ModelRunnerRef) (earlier : List Event)
    (e aborted : EngineCore) (requestIds : List String) (id : String)
    (before : Execution (Step F) (init runner) earlier e)
    (abort : Step F e (.aborted requestIds) aborted) (_ : id ∈ requestIds) :
    (id ∉ e.diffusionScheduler.activeIds → SilentUntilAdded F aborted id) ∧
    (id ∈ e.diffusionScheduler.activeIds → e.diffusionScheduler.poolInitialized = true →
      e.diffusionScheduler.activeIds.card ≤ e.diffusionScheduler.maxBatchSize →
      ∀ batch outputs e', Step F aborted (.stepped batch outputs) e' →
        id ∈ (Event.stepped batch outputs).scheduledIds) := by
  have hsame : aborted.diffusionScheduler = e.diffusionScheduler := by
    cases abort
    rfl
  constructor
  · intro inactive later e' after notAdded
    apply unnamed_of_inactive after _ _ notAdded
    · rw [hsame]
      exact consistent_of_execution before
    · rw [hsame]
      exact inactive
  · intro active pool room batch outputs e' hstep
    cases hstep with
    | stepped env =>
      obtain ⟨batch, hbatch, hmem⟩ :=
        scheduled_of_active env (healthy_of_execution before) pool room active
      have hstepBatch : aborted.stepBatch env = some batch := by
        unfold stepBatch
        rw [hsame]
        exact hbatch
      simpa [Event.scheduledIds, hstepBatch] using hmem

/-- The abort of an unknown id while another request waits. -/
theorem abort_final_unknown_id :
    SilentUntilAdded ℕ
      (((init (some ⟨some ⟨true⟩⟩)).addRequest ⟨"r", [1], none, none, 0⟩).2.abortRequests ["x"])
      "x" :=
  (abort_final_of_inactive (some ⟨some ⟨true⟩⟩) [.added ⟨"r", [1], none, none, 0⟩] _ _ ["x"] "x"
    (Execution.single (Step.added _)) (Step.aborted ["x"]) (by decide)).1 (by decide)

/-- A waiting request is aborted, and the next step schedules it, completes it and puts it
out. -/
theorem aborted_request_put_out :
    ∃ e aborted final batch outputs,
      Execution (Step ℕ) (init (some ⟨some ⟨true⟩⟩))
        [.added ⟨"r", [1], some { steps := 1, genLength := 1, blockLength := 1 }, none, 0⟩] e ∧
      Step ℕ e (.aborted ["r"]) aborted ∧ Step ℕ aborted (.stepped batch outputs) final ∧
      "r" ∈ (Event.stepped batch outputs).scheduledIds ∧
      "r" ∈ (Event.stepped batch outputs).outputIds := by
  refine ⟨_, _, _, _, _, Execution.single (Step.added _), Step.aborted _,
    Step.stepped (constantEnv 7), ?_, ?_⟩
  · decide
  · decide

end EngineCore

end Engine
