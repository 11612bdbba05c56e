import Mosaic.Diffusion.Scheduler
import Mathlib.Data.Finset.Card
import Mathlib.Data.Set.Basic

/-!
# Runs of the diffusion scheduler

The states reached by any sequence of calls, in any order and with any arguments: ids may be
reused, updates may name unknown ids or repeat an id, a call may raise, and the model runner may
be set or its pool initialised at any time.
-/

namespace Diffusion

open List Function Option Bool

namespace DiffusionScheduler

/-- A scheduler without requests and without a model runner. -/
def init (maxBatchSize : ℕ) : DiffusionScheduler where
  maxBatchSize := maxBatchSize

/-- A call of the scheduler. Setting the model runner also stands for its pool becoming
initialised, which the scheduler sees through the reference it holds. -/
inductive Call where
  | addRequest (req : DiffusionRequest)
  | scheduleStep
  | applyUpdates (updates : List DiffusionStepUpdate)
  | setModelRunner (runner : Option ModelRunnerRef)

/-- The state a call leaves, also when it raises. -/
def call (s : DiffusionScheduler) : Call → DiffusionScheduler
  | .addRequest req => s.addRequest req
  | .scheduleStep => s.scheduleStep.2
  | .applyUpdates updates => (s.applyUpdatesAndCollectFinished updates).2
  | .setModelRunner runner => s.setModelRunner runner

/-- The state after a sequence of calls. -/
def after (s : DiffusionScheduler) (calls : List Call) : DiffusionScheduler :=
  calls.foldl call s

@[simp] theorem after_nil (s : DiffusionScheduler) : s.after [] = s := rfl

theorem after_append (s : DiffusionScheduler) (calls later : List Call) :
    s.after (calls ++ later) = (s.after calls).after later := by
  unfold after
  exact foldl_append

@[simp] theorem after_concat (s : DiffusionScheduler) (calls : List Call) (c : Call) :
    s.after (calls ++ [c]) = (s.after calls).call c := by
  rw [after_append]
  rfl

variable {s : DiffusionScheduler}

/-- What every call preserves holds after every sequence of calls. -/
theorem after_induction {P : DiffusionScheduler → Prop} (start : P s)
    (step : ∀ t c, P t → P (t.call c)) (calls : List Call) : P (s.after calls) := by
  induction calls using List.reverseRecOn with
  | nil => exact start
  | append_singleton calls c ih =>
    rw [after_concat]
    exact step _ c ih

/-! ### Consistency -/

/-- No id runs twice, and every state is filed under its own id. -/
structure Consistent (s : DiffusionScheduler) : Prop where
  nodup : s.running.Nodup
  filed : ∀ id st, s.states id = some st → st.reqId = id

section

variable (h : s.Consistent)
include h

theorem Consistent.addRequest (req : DiffusionRequest) : (s.addRequest req).Consistent where
  nodup := h.nodup
  filed := by
    intro id st hst
    by_cases hid : id = req.reqId
    · subst hid
      simp only [DiffusionScheduler.addRequest, update_self, some.injEq] at hst
      rw [← hst, DiffusionRequest.initialState_reqId]
    · apply h.filed
      simpa [DiffusionScheduler.addRequest, hid] using hst

theorem Consistent.startRunning (req : DiffusionRequest) : (s.startRunning req).Consistent where
  nodup := by
    unfold DiffusionScheduler.startRunning
    dsimp only
    split
    · exact h.nodup
    · rename_i hnew
      rw [nodup_append]
      refine ⟨h.nodup, nodup_singleton _, ?_⟩
      intro a ha b hb hab
      rw [mem_singleton] at hb
      exact hnew (hb ▸ hab ▸ ha)
  filed := by
    intro id st hst
    unfold DiffusionScheduler.startRunning at hst
    split at hst
    · by_cases hid : id = req.reqId
      · subst hid
        simp only [update_self, some.injEq] at hst
        rw [← hst, DiffusionRequest.initialState_reqId]
      · apply h.filed
        simpa [hid] using hst
    · exact h.filed id st hst

theorem Consistent.ensureRunningCapacity : s.ensureRunningCapacity.2.Consistent := by
  apply ensureRunningCapacity_induction h
  intro t req rest ht _ _
  -- the queue plays no part in consistency
  have hpop : ({ t with waiting := rest } : DiffusionScheduler).Consistent := ⟨ht.nodup, ht.filed⟩
  exact hpop.startRunning req

theorem Consistent.applyUpdate (up : DiffusionStepUpdate) : (s.applyUpdate up).2.Consistent := by
  have filed (st : DiffusionRuntimeState) (hst : s.states up.reqId = some st) (id : String)
      (st' : DiffusionRuntimeState)
      (hst' : update s.states up.reqId (some (st.advance up.newX)) id = some st') :
      st'.reqId = id := by
    by_cases hid : id = up.reqId
    · subst hid
      simp only [update_self, some.injEq] at hst'
      rw [← hst', DiffusionRuntimeState.advance_reqId]
      exact h.filed _ st hst
    · apply h.filed
      simpa [hid] using hst'
  obtain ⟨_, heq⟩ | ⟨st, hst, ⟨_, heq⟩ | ⟨_, heq⟩⟩ := s.applyUpdate_cases up
  · rw [heq]
    exact h
  · rw [heq]
    exact ⟨h.nodup, filed st hst⟩
  · rw [heq]
    exact ⟨h.nodup.erase _, filed st hst⟩

theorem Consistent.applyUpdates (updates : List DiffusionStepUpdate) :
    (s.applyUpdatesAndCollectFinished updates).2.Consistent :=
  applyUpdates_preserves (fun _ up ht => ht.applyUpdate up) h updates

theorem Consistent.call (c : Call) : (s.call c).Consistent := by
  cases c with
  | addRequest req => exact h.addRequest req
  | scheduleStep =>
    rw [DiffusionScheduler.call, scheduleStep_state]
    exact h.ensureRunningCapacity
  | applyUpdates updates => exact h.applyUpdates updates
  | setModelRunner runner => exact ⟨h.nodup, h.filed⟩

end

theorem consistent_init (maxBatchSize : ℕ) : (init maxBatchSize).Consistent where
  nodup := nodup_nil
  filed := by
    intro id st hst
    simp [init] at hst

theorem consistent_after (maxBatchSize : ℕ) (calls : List Call) :
    ((init maxBatchSize).after calls).Consistent :=
  after_induction (consistent_init maxBatchSize) (fun _ c h => h.call c) calls

/-! ### When a step is scheduled -/

/-- The ids that wait or run. -/
def activeIds (s : DiffusionScheduler) : Finset String :=
  (s.running ++ s.waitingIds).toFinset

theorem mem_activeIds {id : String} : id ∈ s.activeIds ↔ id ∈ s.running ∨ id ∈ s.waitingIds := by
  simp [activeIds]

theorem Consistent.length_running_le (h : s.Consistent) : s.running.length ≤ s.activeIds.card := by
  rw [← toFinset_card_of_nodup h.nodup]
  apply Finset.card_le_card
  intro id hid
  exact mem_activeIds.mpr (.inl (by simpa using hid))

/-- Refilling only moves ids from the queue to the running list. -/
theorem ensureRunningCapacity_activeIds (s : DiffusionScheduler) :
    s.ensureRunningCapacity.2.activeIds = s.activeIds := by
  apply ensureRunningCapacity_induction (P := fun t => t.activeIds = s.activeIds) rfl
  intro t req rest ht hqueue _
  rw [← ht]
  ext id
  simp only [mem_activeIds, startRunning, waitingIds, hqueue, map_cons, mem_cons]
  split
  · grind
  · grind

theorem scheduleStep_isOk_iff_refilled (s : DiffusionScheduler) :
    (∃ batch, s.scheduleStep.1 = .ok batch) ↔ s.ensureRunningCapacity.1 = .ok () := by
  rw [scheduleStep_result]
  cases s.ensureRunningCapacity.1 with
  | ok u => simp [Except.map]
  | error e => simp [Except.map]

/-- In every reachable state `scheduleStep` returns if and only if the pool is initialised or
the requests at hand fill the batch limit: otherwise the refill loop pops from an empty queue. -/
theorem scheduleStep_returns_iff (maxBatchSize : ℕ) (calls : List Call) :
    let s := (init maxBatchSize).after calls
    (∃ batch, s.scheduleStep.1 = .ok batch) ↔
      s.poolInitialized = true ∨ s.maxBatchSize ≤ s.activeIds.card := by
  intro s
  have hcons : s.ensureRunningCapacity.2.Consistent :=
    (consistent_after maxBatchSize calls).ensureRunningCapacity
  rw [scheduleStep_isOk_iff_refilled, ← s.ensureRunningCapacity_poolInitialized,
    ← s.ensureRunningCapacity_maxBatchSize, ← s.ensureRunningCapacity_activeIds]
  obtain ⟨hok, hfull⟩ | ⟨herror, hempty, hroom⟩ := s.ensureRunningCapacity_exit
  · -- the loop stopped: the running list is full, or nothing waits and the pool was asked
    refine iff_of_true hok ?_
    by_cases hempty : s.ensureRunningCapacity.2.waiting = []
    · rw [canAddMoreRequests_of_waiting_nil hempty] at hfull
      simp only [and_eq_false_iff, not_eq_false', decide_eq_false_iff_not, not_lt]
        at hfull
      exact hfull.imp_right fun h => h.trans hcons.length_running_le
    · rw [canAddMoreRequests_of_waiting hempty] at hfull
      simp only [decide_eq_false_iff_not, not_lt] at hfull
      exact .inr (hfull.trans hcons.length_running_le)
  · -- the loop raised: the queue ran dry below the limit
    rw [canAddMoreRequests_of_waiting_nil hempty] at hroom
    simp only [and_eq_true, not_eq_true', decide_eq_true_eq] at hroom
    have hcard : s.ensureRunningCapacity.2.activeIds.card =
        s.ensureRunningCapacity.2.running.length := by
      rw [← toFinset_card_of_nodup hcons.nodup]
      simp [activeIds, waitingIds, hempty]
    apply iff_of_false
    · rw [herror]
      intro h
      cases h
    · rw [hcard, hroom.1]
      intro h
      cases h with
      | inl h => cases h
      | inr h => exact absurd hroom.2 (not_lt.mpr h)

/-- One request and no model runner: the loop admits the request, still finds room and pops
from the empty queue. -/
theorem scheduleStep_raises_without_pool :
    ¬ ∀ (maxBatchSize : ℕ) (calls : List Call),
      ∃ batch, ((init maxBatchSize).after calls).scheduleStep.1 = .ok batch := by
  intro h
  obtain ⟨batch, hbatch⟩ := h 999 [.addRequest ⟨"r", [1], {}⟩]
  have herror : ((init 999).after [.addRequest ⟨"r", [1], {}⟩]).scheduleStep.1 =
      .error .indexError := rfl
  rw [herror] at hbatch
  cases hbatch

/-! ### Reclaiming -/

/-- Exactly the ids that wait or run have a runtime state. -/
def Reclaims (s : DiffusionScheduler) : Prop :=
  {id | (s.states id).isSome} = {id | id ∈ s.waitingIds ∨ id ∈ s.running}

theorem reclaims_iff :
    s.Reclaims ↔ ∀ id, (s.states id).isSome ↔ id ∈ s.waitingIds ∨ id ∈ s.running :=
  Set.ext_iff

/-- An update that completes a request names an id that is also in the queue, where it waits
for another turn. -/
def CompletionsWait (s : DiffusionScheduler) (updates : List DiffusionStepUpdate) : Prop :=
  ∀ earlier up later, updates = earlier ++ up :: later →
    ∀ st, (s.applyUpdatesAndCollectFinished earlier).2.states up.reqId = some st →
      (st.advance up.newX).isFinished = true → up.reqId ∈ s.waitingIds

theorem applyUpdates_append (s : DiffusionScheduler) (earlier later : List DiffusionStepUpdate) :
    (s.applyUpdatesAndCollectFinished (earlier ++ later)).2 =
      ((s.applyUpdatesAndCollectFinished earlier).2.applyUpdatesAndCollectFinished later).2 := by
  induction earlier generalizing s with
  | nil => rfl
  | cons up rest ih => exact ih _

theorem applyUpdates_waitingIds (s : DiffusionScheduler) (updates : List DiffusionStepUpdate) :
    (s.applyUpdatesAndCollectFinished updates).2.waitingIds = s.waitingIds := by
  unfold waitingIds
  rw [(s.applyUpdates_frame updates).1]

/-- Updates never add or remove a runtime state. -/
theorem applyUpdate_isSome (s : DiffusionScheduler) (up : DiffusionStepUpdate) (id : String) :
    ((s.applyUpdate up).2.states id).isSome = (s.states id).isSome := by
  have hupd (st st' : DiffusionRuntimeState) (hst : s.states up.reqId = some st) :
      (update s.states up.reqId (some st') id).isSome = (s.states id).isSome := by
    by_cases hid : id = up.reqId
    · subst hid
      simp [hst]
    · simp [hid]
  obtain ⟨_, heq⟩ | ⟨st, hst, ⟨_, heq⟩ | ⟨_, heq⟩⟩ := s.applyUpdate_cases up
  · rw [heq]
  · rw [heq]
    exact hupd st _ hst
  · rw [heq]
    exact hupd st _ hst

theorem applyUpdates_isSome (s : DiffusionScheduler) (updates : List DiffusionStepUpdate)
    (id : String) :
    ((s.applyUpdatesAndCollectFinished updates).2.states id).isSome = (s.states id).isSome :=
  applyUpdates_preserves (P := fun t => (t.states id).isSome = (s.states id).isSome)
    (fun t up ht => (t.applyUpdate_isSome up id).trans ht) rfl updates

theorem applyUpdate_running_subset (s : DiffusionScheduler) (up : DiffusionStepUpdate) :
    (s.applyUpdate up).2.running ⊆ s.running := by
  obtain ⟨_, heq⟩ | ⟨_, _, ⟨_, heq⟩ | ⟨_, heq⟩⟩ := s.applyUpdate_cases up
  · rw [heq]
    exact List.Subset.refl _
  · rw [heq]
    exact List.Subset.refl _
  · rw [heq]
    exact erase_subset

theorem applyUpdates_running_subset (s : DiffusionScheduler)
    (updates : List DiffusionStepUpdate) :
    (s.applyUpdatesAndCollectFinished updates).2.running ⊆ s.running :=
  applyUpdates_preserves (P := fun t => t.running ⊆ s.running)
    (fun t up ht => List.Subset.trans (t.applyUpdate_running_subset up) ht)
    (List.Subset.refl _) updates

theorem Reclaims.addRequest (h : s.Reclaims) (req : DiffusionRequest) :
    (s.addRequest req).Reclaims := by
  rw [reclaims_iff] at h ⊢
  intro id
  by_cases hid : id = req.reqId
  · subst hid
    simp [DiffusionScheduler.addRequest, waitingIds]
  · have := h id
    simpa [DiffusionScheduler.addRequest, waitingIds, hid] using this

theorem Reclaims.ensureRunningCapacity (h : s.Reclaims) : s.ensureRunningCapacity.2.Reclaims := by
  apply ensureRunningCapacity_induction h
  intro t req rest ht hqueue _
  rw [reclaims_iff] at ht ⊢
  -- the admitted request had a state already, so the fallback of the loop body is not taken
  have hstate : (t.states req.reqId).isSome :=
    (ht req.reqId).mpr (.inl (by simp [waitingIds, hqueue]))
  intro id
  have hid := ht id
  simp only [waitingIds, hqueue, map_cons, mem_cons] at hid
  have hnone : (t.states req.reqId).isNone = false := by simp [isNone_eq_false_iff, hstate]
  simp only [startRunning, waitingIds, hnone, false_eq_true, if_false]
  rw [hid]
  split
  · grind
  · grind

theorem Reclaims.applyUpdate (h : s.Reclaims) (hs : s.Consistent) {up : DiffusionStepUpdate}
    (waits : ∀ st, s.states up.reqId = some st → (st.advance up.newX).isFinished = true →
      up.reqId ∈ s.waitingIds) :
    (s.applyUpdate up).2.Reclaims := by
  rw [reclaims_iff] at h ⊢
  intro id
  rw [s.applyUpdate_isSome up id, h id]
  obtain ⟨_, heq⟩ | ⟨st, _, ⟨_, heq⟩ | ⟨hfin, heq⟩⟩ := s.applyUpdate_cases up
  · rw [heq]
  · rw [heq]
    rfl
  · rename_i hst
    have hwaits := waits st hst hfin
    rw [heq]
    show id ∈ s.waitingIds ∨ id ∈ s.running ↔ id ∈ s.waitingIds ∨ id ∈ s.running.erase st.reqId
    rw [hs.filed _ st hst]
    -- only the completed id leaves the running list, and it waits
    by_cases hid : id = up.reqId
    · subst hid
      simp [hwaits]
    · rw [mem_erase_of_ne hid]

theorem Reclaims.applyUpdates (h : s.Reclaims) (hs : s.Consistent)
    {updates : List DiffusionStepUpdate} (waits : s.CompletionsWait updates) :
    (s.applyUpdatesAndCollectFinished updates).2.Reclaims := by
  induction updates using List.reverseRecOn with
  | nil => exact h
  | append_singleton updates up ih =>
    have hearlier : s.CompletionsWait updates := by
      intro earlier up' later hsplit
      exact waits earlier up' (later ++ [up]) (by simp [hsplit])
    rw [applyUpdates_append]
    apply (ih hearlier).applyUpdate (hs.applyUpdates updates)
    intro st hst hfin
    rw [applyUpdates_waitingIds]
    exact waits updates up [] rfl st hst hfin

/-- A completed id that does not wait keeps its state and loses its place. -/
theorem not_reclaims_of_completion (hs : s.Consistent)
    {earlier later : List DiffusionStepUpdate} {up : DiffusionStepUpdate}
    {st : DiffusionRuntimeState}
    (hst : (s.applyUpdatesAndCollectFinished earlier).2.states up.reqId = some st)
    (hfin : (st.advance up.newX).isFinished = true) (hwaits : up.reqId ∉ s.waitingIds) :
    ¬ (s.applyUpdatesAndCollectFinished (earlier ++ up :: later)).2.Reclaims := by
  intro h
  set mid := (s.applyUpdatesAndCollectFinished earlier).2 with hmid
  have hmidcons : mid.Consistent := hs.applyUpdates earlier
  have hsome : ((s.applyUpdatesAndCollectFinished (earlier ++ up :: later)).2.states
      up.reqId).isSome := by
    rw [applyUpdates_isSome, ← applyUpdates_isSome s earlier up.reqId, ← hmid, hst]
    rfl
  have hgone : up.reqId ∉ (mid.applyUpdate up).2.running := by
    obtain ⟨hnone, _⟩ | ⟨st', hst', ⟨hnot, _⟩ | ⟨_, heq⟩⟩ := mid.applyUpdate_cases up
    · simp [hst] at hnone
    · obtain rfl : st = st' := some.inj (hst.symm.trans hst')
      simp [hfin] at hnot
    · rw [heq]
      show up.reqId ∉ mid.running.erase st'.reqId
      rw [hmidcons.filed _ st' hst']
      exact hmidcons.nodup.not_mem_erase
  obtain hwait | hrun := (reclaims_iff.mp h up.reqId).mp hsome
  · rw [applyUpdates_waitingIds] at hwait
    exact hwaits hwait
  · rw [applyUpdates_append, applyUpdates_cons] at hrun
    exact hgone (applyUpdates_running_subset _ later hrun)

/-- A run keeps runtime states for exactly the active requests, in every state on its way, if
and only if nothing it completes has left the queue: runtime states are never removed. -/
theorem reclaims_iff_completionsWait (maxBatchSize : ℕ) (calls : List Call) :
    (∀ earlier, earlier <+: calls → ((init maxBatchSize).after earlier).Reclaims) ↔
      ∀ earlier updates, earlier ++ [.applyUpdates updates] <+: calls →
        ((init maxBatchSize).after earlier).CompletionsWait updates := by
  constructor
  · intro h earlier updates hpre before up after hsplit st hst hfin
    by_contra hwaits
    have hreclaims := h _ hpre
    rw [after_concat, call, hsplit] at hreclaims
    exact not_reclaims_of_completion (consistent_after maxBatchSize earlier) hst hfin hwaits
      hreclaims
  · intro h earlier hpre
    induction earlier using List.reverseRecOn with
    | nil =>
      rw [reclaims_iff]
      intro id
      simp [init, waitingIds]
    | append_singleton earlier c ih =>
      have hreclaims := ih ((prefix_append earlier [c]).trans hpre)
      rw [after_concat]
      cases c with
      | addRequest req => exact hreclaims.addRequest req
      | scheduleStep =>
        rw [call, scheduleStep_state]
        exact hreclaims.ensureRunningCapacity
      | applyUpdates updates =>
        exact hreclaims.applyUpdates (consistent_after maxBatchSize earlier)
          (h earlier updates hpre)
      | setModelRunner runner => exact hreclaims

/-- A request of one block with one step: the update that fills it completes it, and its state
stays. -/
theorem finished_request_keeps_state :
    ¬ ∀ (maxBatchSize : ℕ) (calls : List Call), ((init maxBatchSize).after calls).Reclaims := by
  intro h
  have hid := reclaims_iff.mp (h 1 [.setModelRunner (some ⟨some ⟨true⟩⟩),
    .addRequest ⟨"r", [1], { steps := 1, genLength := 1, blockLength := 1 }⟩, .scheduleStep,
    .applyUpdates [⟨"r", [1, 5], 0, 0⟩]]) "r"
  revert hid
  decide

end DiffusionScheduler

end Diffusion
