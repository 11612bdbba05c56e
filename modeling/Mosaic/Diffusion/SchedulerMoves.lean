import Mosaic.Diffusion.SchedulerRuns
import Mathlib.Algebra.BigOperators.Group.Finset.Basic
import Mathlib.Algebra.Order.BigOperators.Group.Finset
import Mathlib.Tactic.Linarith

/-!
# What one operation of the diffusion scheduler moves

When ids are distinct, a refill moves the front of the queue to the running list, and an update
either takes its request one step further or moves it out. Every update uses up a step of the
budget of its request, so the work that is left bounds the number of updates to come.
-/

namespace Diffusion

open List

/-! ### The budget of a request -/

namespace DiffusionRuntimeState

/-- The counters point at a step that the request may still take. -/
structure InBudget (st : DiffusionRuntimeState) : Prop where
  block : (st.blockIdx : ℤ) < st.params.numBlocks
  step : (st.stepIdxInBlock : ℤ) < st.params.stepsPerBlock

/-- The number of steps that were taken. -/
def stepsTaken (st : DiffusionRuntimeState) : ℤ :=
  st.blockIdx * st.params.stepsPerBlock + st.stepIdxInBlock

/-- The number of steps that are left. -/
def stepsLeft (st : DiffusionRuntimeState) : ℕ :=
  (st.params.numBlocks * st.params.stepsPerBlock - st.stepsTaken).toNat

variable {st : DiffusionRuntimeState}

theorem InBudget.stepsTaken_lt (h : st.InBudget) :
    st.stepsTaken < st.params.numBlocks * st.params.stepsPerBlock := by
  have hspb := st.params.one_le_stepsPerBlock
  have hblock : ((st.blockIdx : ℤ) + 1) * st.params.stepsPerBlock ≤
      st.params.numBlocks * st.params.stepsPerBlock :=
    mul_le_mul_of_nonneg_right h.block (by omega)
  unfold stepsTaken
  linarith [h.step]

theorem InBudget.one_le_stepsLeft (h : st.InBudget) : 1 ≤ st.stepsLeft := by
  have := h.stepsTaken_lt
  unfold stepsLeft
  omega

theorem InBudget.stepsTaken_advance (h : st.InBudget)
    (newX : List ℤ) : (st.advance newX).stepsTaken = st.stepsTaken + 1 := by
  have hstep := h.step
  unfold advance stepsTaken
  dsimp only
  split
  · -- the step counter rolls over exactly when the block has had all of its steps
    rename_i hroll
    have hlast : (st.stepIdxInBlock : ℤ) + 1 = st.params.stepsPerBlock := by
      push_cast at hroll
      omega
    push_cast
    linarith
  · push_cast
    linarith

theorem InBudget.stepsLeft_advance (h : st.InBudget)
    (newX : List ℤ) : (st.advance newX).stepsLeft + 1 = st.stepsLeft := by
  have hlt := h.stepsTaken_lt
  have hadv := h.stepsTaken_advance newX
  unfold stepsLeft
  rw [advance_params, hadv]
  omega

/-- A state that is advanced and not finished may take another step. -/
theorem inBudget_advance {newX : List ℤ}
    (h : (st.advance newX).isFinished = false) : (st.advance newX).InBudget where
  block := by
    simp only [isFinished, finishedByBudget, Bool.or_eq_false_iff, decide_eq_false_iff_not,
      not_le] at h
    exact h.2
  step := by
    have := st.params.one_le_stepsPerBlock
    rw [advance_params]
    unfold advance
    dsimp only
    split
    · dsimp only
      omega
    · dsimp only
      omega

theorem inBudget_initialState (req : DiffusionRequest) : req.initialState.InBudget where
  block := by
    have := req.params.one_le_numBlocks
    simp only [DiffusionRequest.initialState]
    omega
  step := by
    have := req.params.one_le_stepsPerBlock
    simp only [DiffusionRequest.initialState]
    omega

end DiffusionRuntimeState

/-! ### What scheduling and updates move -/

namespace DiffusionScheduler

variable {s : DiffusionScheduler}

/-- With distinct ids and a state for every waiting request, refilling moves a prefix of the
queue to the end of the running list and changes nothing else. -/
theorem ensureRunningCapacity_moves (distinct : (s.running ++ s.waitingIds).Nodup)
    (known : ∀ id ∈ s.waitingIds, (s.states id).isSome) :
    ∃ taken, s.waitingIds = taken ++ s.ensureRunningCapacity.2.waitingIds ∧
      s.ensureRunningCapacity.2.running = s.running ++ taken ∧
      s.ensureRunningCapacity.2.states = s.states := by
  apply ensureRunningCapacity_induction (P := fun t => ∃ taken,
    s.waitingIds = taken ++ t.waitingIds ∧ t.running = s.running ++ taken ∧ t.states = s.states)
  · exact ⟨[], by simp, by simp, rfl⟩
  · intro t req rest ⟨taken, hqueue, hrun, hstates⟩ ht _
    have hsplit : s.waitingIds = taken ++ req.reqId :: rest.map DiffusionRequest.reqId := by
      rw [hqueue, waitingIds, ht]
      rfl
    -- the head of the queue neither runs yet nor was taken before
    have hnew : req.reqId ∉ t.running := by
      rw [hsplit] at distinct
      rw [hrun]
      grind
    have hknown : (t.states req.reqId).isSome := by
      rw [hstates]
      exact known req.reqId (by simp [hsplit])
    have hstart : ({ t with waiting := rest } : DiffusionScheduler).startRunning req =
        { t with waiting := rest, running := t.running ++ [req.reqId] } :=
      startRunning_of_new hnew hknown
    rw [hstart]
    refine ⟨taken ++ [req.reqId], ?_, ?_, hstates⟩
    · rw [hsplit, append_assoc]
      rfl
    · rw [← append_assoc, ← hrun]

theorem ensureRunningCapacity_capacity (h : s.running.length ≤ s.maxBatchSize) :
    s.ensureRunningCapacity.2.running.length ≤ s.maxBatchSize := by
  have key : s.ensureRunningCapacity.2.running.length ≤ s.ensureRunningCapacity.2.maxBatchSize := by
    apply ensureRunningCapacity_induction (P := fun t => t.running.length ≤ t.maxBatchSize) h
    intro t req rest ht _ hroom
    unfold startRunning
    dsimp only
    split
    · exact ht
    · simp only [length_append, length_singleton]
      omega
  simpa using key

/-- Below the limit a batch holds every running request. -/
theorem stepRequests_ids (hs : s.Consistent)
    (known : ∀ id ∈ s.running, (s.states id).isSome) (h : s.running.length ≤ s.maxBatchSize) :
    s.stepRequests.map DiffusionStepRequest.reqId = s.running := by
  have hids : ∀ ids : List String, (∀ id ∈ ids, (s.states id).isSome) →
      (ids.filterMap s.states).map DiffusionRuntimeState.reqId = ids := by
    intro ids hids
    induction ids with
    | nil => rfl
    | cons id rest ih =>
      obtain ⟨st, hst⟩ := Option.isSome_iff_exists.mp (hids id (by simp))
      have hrest := ih fun id hid => hids id (by simp [hid])
      simp [hst, hs.filed id st hst, hrest]
  have hlen : (s.running.filterMap s.states).length ≤ max 1 s.maxBatchSize := by
    have := length_filterMap_le s.states s.running
    omega
  rw [stepRequests_eq, take_of_length_le (by simpa using hlen), map_map]
  exact hids s.running known

variable {up : DiffusionStepUpdate}

/-- One update for a running request: the request stays, one step further, or it leaves. -/
theorem applyUpdate_running (hs : s.Consistent) {st : DiffusionRuntimeState}
    (hst : s.states up.reqId = some st) :
    ((st.advance up.newX).isFinished = false ∧ (s.applyUpdate up).1 = [] ∧
      (s.applyUpdate up).2.running = s.running ∧
      (s.applyUpdate up).2.finishedReqIds = s.finishedReqIds) ∨
    ((s.applyUpdate up).1.map FinishedDiffusionItem.reqId = [up.reqId] ∧
      (s.applyUpdate up).2.running = s.running.erase up.reqId ∧
      (s.applyUpdate up).2.finishedReqIds = insert up.reqId s.finishedReqIds) := by
  have hid := hs.filed _ st hst
  obtain ⟨hnone, _⟩ | ⟨st', hst', ⟨hnot, heq⟩ | ⟨_, heq⟩⟩ := s.applyUpdate_cases up
  · rw [hst] at hnone
    cases hnone
  · obtain rfl : st = st' := Option.some.inj (hst.symm.trans hst')
    exact .inl ⟨hnot, by rw [heq], by rw [heq], by rw [heq]⟩
  · obtain rfl : st = st' := Option.some.inj (hst.symm.trans hst')
    refine .inr ⟨?_, ?_, ?_⟩
    · rw [heq]
      simp [hid]
    · rw [heq, hid]
    · rw [heq, hid]

theorem applyUpdate_states {st : DiffusionRuntimeState} (hst : s.states up.reqId = some st) :
    (s.applyUpdate up).2.states =
      Function.update s.states up.reqId (some (st.advance up.newX)) := by
  obtain ⟨hnone, _⟩ | ⟨st', hst', ⟨_, heq⟩ | ⟨_, heq⟩⟩ := s.applyUpdate_cases up
  · rw [hst] at hnone
    cases hnone
  · obtain rfl : st = st' := Option.some.inj (hst.symm.trans hst')
    rw [heq]
  · obtain rfl : st = st' := Option.some.inj (hst.symm.trans hst')
    rw [heq]

/-- Updates for distinct running requests move what they complete out of the running list. -/
theorem applyUpdates_moves (hs : s.Consistent) {updates : List DiffusionStepUpdate}
    (distinct : (updates.map DiffusionStepUpdate.reqId).Nodup)
    (runs : ∀ up ∈ updates, up.reqId ∈ s.running)
    (known : ∀ id ∈ s.running, (s.states id).isSome) :
    s.running.Perm ((s.applyUpdatesAndCollectFinished updates).2.running ++
        (s.applyUpdatesAndCollectFinished updates).1.map FinishedDiffusionItem.reqId) ∧
      (s.applyUpdatesAndCollectFinished updates).2.finishedReqIds =
        s.finishedReqIds ∪ ((s.applyUpdatesAndCollectFinished updates).1.map
          FinishedDiffusionItem.reqId).toFinset := by
  induction updates generalizing s with
  | nil => simp
  | cons up rest ih =>
    rw [map_cons, nodup_cons] at distinct
    obtain ⟨_, hst⟩ := Option.isSome_iff_exists.mp (known up.reqId (runs up (by simp)))
    have hrest : ∀ up' ∈ rest, up'.reqId ∈ s.running ∧ up'.reqId ≠ up.reqId := by
      intro up' hup'
      refine ⟨runs up' (by simp [hup']), ?_⟩
      intro hsame
      exact distinct.1 (hsame ▸ mem_map_of_mem hup')
    have hcons := hs.applyUpdate up
    have hknown : ∀ id ∈ (s.applyUpdate up).2.running,
        ((s.applyUpdate up).2.states id).isSome := by
      intro id hid
      rw [applyUpdate_isSome]
      exact known id (s.applyUpdate_running_subset up hid)
    rw [applyUpdates_cons]
    obtain ⟨_, hitems, hrun, hfin⟩ | ⟨hitems, hrun, hfin⟩ :=
      applyUpdate_running hs hst
    · -- the request goes on
      have hruns : ∀ up' ∈ rest, up'.reqId ∈ (s.applyUpdate up).2.running := by
        intro up' hup'
        rw [hrun]
        exact (hrest up' hup').1
      obtain ⟨hperm, hset⟩ := ih hcons distinct.2 hruns hknown
      rw [hrun] at hperm
      rw [hfin] at hset
      exact ⟨by simpa [hitems] using hperm, by simpa [hitems] using hset⟩
    · -- the request leaves
      have hruns : ∀ up' ∈ rest, up'.reqId ∈ (s.applyUpdate up).2.running := by
        intro up' hup'
        rw [hrun]
        exact (mem_erase_of_ne (hrest up' hup').2).mpr (hrest up' hup').1
      obtain ⟨hperm, hset⟩ := ih hcons distinct.2 hruns hknown
      rw [hrun] at hperm
      rw [hfin] at hset
      constructor
      · have hout := perm_cons_erase (runs up (by simp))
        rw [map_append, hitems]
        refine hout.trans ((hperm.cons _).trans ?_)
        rw [singleton_append]
        exact perm_middle.symm
      · rw [hset, map_append, hitems]
        ext id
        simp

/-! ### The work that is left -/

/-- The updates that the request `id` may still take. -/
def stepsLeftOf (s : DiffusionScheduler) (id : String) : ℕ :=
  ((s.states id).map DiffusionRuntimeState.stepsLeft).getD 0

/-- The updates that the active requests may still take together. -/
def workLeft (s : DiffusionScheduler) : ℕ :=
  ∑ id ∈ s.activeIds, s.stepsLeftOf id

/-- Every active request has a state that may take another step. -/
def Funded (s : DiffusionScheduler) : Prop :=
  ∀ id ∈ s.activeIds, ∃ st, s.states id = some st ∧ st.InBudget

theorem Funded.one_le_stepsLeftOf (h : s.Funded) {id : String}
    (hid : id ∈ s.activeIds) : 1 ≤ s.stepsLeftOf id := by
  obtain ⟨_, hst, hbudget⟩ := h id hid
  simpa [stepsLeftOf, hst] using hbudget.one_le_stepsLeft

theorem Funded.addRequest (h : s.Funded) (req : DiffusionRequest) : (s.addRequest req).Funded := by
  intro id hid
  by_cases hreq : id = req.reqId
  · subst hreq
    exact ⟨_, by simp [DiffusionScheduler.addRequest],
      DiffusionRuntimeState.inBudget_initialState req⟩
  · have hold : id ∈ s.activeIds := by
      simp only [mem_activeIds, DiffusionScheduler.addRequest, waitingIds, map_append,
        mem_append, map_singleton, mem_singleton, hreq, or_false] at hid
      exact mem_activeIds.mpr hid
    obtain ⟨st, hst, hbudget⟩ := h id hold
    exact ⟨st, by simpa [DiffusionScheduler.addRequest, hreq] using hst, hbudget⟩

/-- One update for a running request that does not wait takes at least one unit of work. -/
theorem Funded.applyUpdate (h : s.Funded) (hs : s.Consistent)
    (runs : up.reqId ∈ s.running) (idle : up.reqId ∉ s.waitingIds) :
    (s.applyUpdate up).2.Funded ∧ (s.applyUpdate up).2.workLeft + 1 ≤ s.workLeft := by
  have hactive : up.reqId ∈ s.activeIds := mem_activeIds.mpr (.inl runs)
  obtain ⟨st, hst, hbudget⟩ := h up.reqId hactive
  have hstates := applyUpdate_states hst
  have hwait : (s.applyUpdate up).2.waitingIds = s.waitingIds := by
    unfold waitingIds
    rw [(s.applyUpdate_frame up).1]
  have hleft : s.stepsLeftOf up.reqId = (st.advance up.newX).stepsLeft + 1 := by
    rw [hbudget.stepsLeft_advance]
    simp [stepsLeftOf, hst]
  have hothers : ∑ id ∈ s.activeIds.erase up.reqId, (s.applyUpdate up).2.stepsLeftOf id =
      ∑ id ∈ s.activeIds.erase up.reqId, s.stepsLeftOf id := by
    apply Finset.sum_congr rfl
    intro id hid
    simp [stepsLeftOf, hstates, Finset.ne_of_mem_erase hid]
  have hsplit : s.workLeft =
      s.stepsLeftOf up.reqId + ∑ id ∈ s.activeIds.erase up.reqId, s.stepsLeftOf id :=
    (Finset.add_sum_erase _ _ hactive).symm
  have hfunded : ∀ id ∈ s.activeIds.erase up.reqId,
      ∃ st', (s.applyUpdate up).2.states id = some st' ∧ st'.InBudget := by
    intro id hid
    obtain ⟨st', hst', hbudget'⟩ := h id (Finset.mem_of_mem_erase hid)
    exact ⟨st', by simpa [hstates, Finset.ne_of_mem_erase hid] using hst', hbudget'⟩
  obtain ⟨hnot, _, hrun, _⟩ | ⟨_, hrun, _⟩ := applyUpdate_running hs hst
  · -- the request goes on with one step less
    have hsame : (s.applyUpdate up).2.activeIds = s.activeIds := by
      unfold activeIds
      rw [hrun, hwait]
    constructor
    · intro id hid
      rw [hsame] at hid
      by_cases hup : id = up.reqId
      · subst hup
        exact ⟨st.advance up.newX, by simp [hstates],
          DiffusionRuntimeState.inBudget_advance hnot⟩
      · exact hfunded id (Finset.mem_erase.mpr ⟨hup, hid⟩)
    · have hself : (s.applyUpdate up).2.stepsLeftOf up.reqId = (st.advance up.newX).stepsLeft := by
        simp [stepsLeftOf, hstates]
      rw [workLeft, hsame, ← Finset.add_sum_erase _ _ hactive, hothers, hself, hsplit, hleft]
      omega
  · -- the request leaves, and its remaining steps with it
    have hless : (s.applyUpdate up).2.activeIds = s.activeIds.erase up.reqId := by
      ext id
      rw [Finset.mem_erase, mem_activeIds, mem_activeIds, hrun, hwait, hs.nodup.mem_erase_iff]
      by_cases hup : id = up.reqId
      · subst hup
        simp [idle]
      · simp [hup]
    constructor
    · intro id hid
      rw [hless] at hid
      exact hfunded id hid
    · rw [workLeft, hless, hothers, hsplit, hleft]
      omega

/-- Updates for distinct running requests take at least one unit of work each. -/
theorem Funded.applyUpdates (h : s.Funded) (hs : s.Consistent) {updates : List DiffusionStepUpdate}
    (distinct : (updates.map DiffusionStepUpdate.reqId).Nodup)
    (runs : ∀ up ∈ updates, up.reqId ∈ s.running)
    (idle : ∀ up ∈ updates, up.reqId ∉ s.waitingIds) :
    (s.applyUpdatesAndCollectFinished updates).2.Funded ∧
      (s.applyUpdatesAndCollectFinished updates).2.workLeft + updates.length ≤ s.workLeft := by
  induction updates generalizing s with
  | nil => exact ⟨h, le_rfl⟩
  | cons up rest ih =>
    rw [map_cons, nodup_cons] at distinct
    obtain ⟨hfunded, hless⟩ := h.applyUpdate hs (runs up (by simp)) (idle up (by simp))
    obtain ⟨_, hst, _⟩ := h up.reqId (mem_activeIds.mpr (.inl (runs up (by simp))))
    have hruns : ∀ up' ∈ rest, up'.reqId ∈ (s.applyUpdate up).2.running := by
      intro up' hup'
      have hne : up'.reqId ≠ up.reqId := by
        intro hsame
        exact distinct.1 (hsame ▸ mem_map_of_mem hup')
      have hold := runs up' (by simp [hup'])
      obtain ⟨_, _, hrun, _⟩ | ⟨_, hrun, _⟩ := applyUpdate_running hs hst
      · rw [hrun]
        exact hold
      · rw [hrun]
        exact (mem_erase_of_ne hne).mpr hold
    have hidle : ∀ up' ∈ rest, up'.reqId ∉ (s.applyUpdate up).2.waitingIds := by
      intro up' hup'
      unfold waitingIds
      rw [(s.applyUpdate_frame up).1]
      exact idle up' (by simp [hup'])
    obtain ⟨hfunded', hless'⟩ := ih hfunded (hs.applyUpdate up) distinct.2 hruns hidle
    refine ⟨hfunded', ?_⟩
    rw [applyUpdates_cons, length_cons]
    dsimp only
    omega

end DiffusionScheduler

end Diffusion
