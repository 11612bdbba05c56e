import Mosaic.Engine.Core

/-!
# Invariants of the stored requests

An invariant of the waiting requests and one of the runtime states, such that a fresh state has
the second when its request has the first. Both survive every run when the update of the first
request of a batch preserves the second.
-/

namespace Engine

open List Function Diffusion
open Transition (Execution)

variable {F : Type} [LinearOrder F]

/-- Every waiting request satisfies `P` and every runtime state satisfies `Q`. -/
structure Stores (P : DiffusionRequest → Prop) (Q : DiffusionRuntimeState → Prop)
    (s : DiffusionScheduler) : Prop extends s.Consistent where
  waiting : ∀ req ∈ s.waiting, P req
  states : ∀ id st, s.states id = some st → Q st

namespace Stores

variable {P : DiffusionRequest → Prop} {Q : DiffusionRuntimeState → Prop} {s : DiffusionScheduler}

theorem addRequest (h : Stores P Q s) {req : DiffusionRequest} (hreq : P req)
    (fresh : Q req.initialState) : Stores P Q (s.addRequest req) where
  toConsistent := h.toConsistent.addRequest req
  waiting := by
    intro req' hmem
    rcases mem_append.mp hmem with hold | hnew
    · exact h.waiting req' hold
    · rw [mem_singleton.mp hnew]
      exact hreq
  states := by
    intro id st hst
    by_cases hid : id = req.reqId
    · simp only [DiffusionScheduler.addRequest, hid, update_self] at hst
      rw [← Option.some.inj hst]
      exact fresh
    · simp only [DiffusionScheduler.addRequest, update_of_ne hid] at hst
      exact h.states id st hst

theorem ensureRunningCapacity (h : Stores P Q s) (fresh : ∀ req, P req → Q req.initialState) :
    Stores P Q s.ensureRunningCapacity.2 := by
  apply DiffusionScheduler.ensureRunningCapacity_induction h
  intro t req rest ht hqueue _
  have hpopped : DiffusionScheduler.Consistent { t with waiting := rest } :=
    ⟨ht.nodup, ht.filed⟩
  refine ⟨hpopped.startRunning req, ?_, ?_⟩
  · intro req' hmem
    exact ht.waiting req' (hqueue ▸ mem_cons_of_mem _ hmem)
  · intro id st hst
    unfold DiffusionScheduler.startRunning at hst
    dsimp only at hst
    split at hst
    · by_cases hid : id = req.reqId
      · rw [hid, update_self] at hst
        rw [← Option.some.inj hst]
        exact fresh req (ht.waiting req (hqueue ▸ mem_cons_self))
      · rw [update_of_ne hid] at hst
        exact ht.states id st hst
    · exact ht.states id st hst

theorem applyUpdate (h : Stores P Q s) {up : DiffusionStepUpdate}
    (hup : ∀ st, s.states up.reqId = some st → Q (st.advance up.newX)) :
    Stores P Q (s.applyUpdate up).2 where
  toConsistent := h.toConsistent.applyUpdate up
  waiting := by
    rw [(s.applyUpdate_frame up).1]
    exact h.waiting
  states := by
    obtain ⟨_, heq⟩ | ⟨st, hst, ⟨_, heq⟩ | ⟨_, heq⟩⟩ := s.applyUpdate_cases up
    · rw [heq]
      exact h.states
    all_goals
      rw [heq]
      intro id st' hst'
      by_cases hid : id = up.reqId
      · simp only [hid, update_self, Option.some.injEq] at hst'
        exact hst' ▸ hup st hst
      · simp only [update_of_ne hid] at hst'
        exact h.states id st' hst'

theorem reqIds_sublist (hs : s.Consistent) (ids : List String) :
    ((ids.filterMap s.states).map DiffusionRuntimeState.reqId).Sublist ids := by
  induction ids with
  | nil => exact .slnil
  | cons id ids ih =>
    cases hstate : s.states id with
    | none =>
      rw [filterMap_cons_none hstate]
      exact ih.cons _
    | some st =>
      rw [filterMap_cons_some hstate, map_cons, hs.filed id st hstate]
      exact ih.cons_cons _

/-- The requests of a batch are made of states that the scheduler keeps, each of another request,
and no more of them than the limit. -/
theorem stepRequests_eq_map (h : Stores P Q s) :
    ∃ sts : List DiffusionRuntimeState,
      s.stepRequests = sts.map DiffusionRuntimeState.toStepRequest ∧
        ((sts.map DiffusionRuntimeState.reqId).Nodup ∧ sts.length ≤ max 1 s.maxBatchSize) ∧
        ∀ st ∈ sts, Q st ∧ s.states st.reqId = some st := by
  refine ⟨(s.running.filterMap s.states).take (max 1 s.maxBatchSize), ?_, ⟨?_, ?_⟩, ?_⟩
  · rw [DiffusionScheduler.stepRequests_eq, List.map_take]
  · rw [List.map_take]
    exact (h.nodup.sublist (reqIds_sublist h.toConsistent s.running)).sublist (take_sublist _ _)
  · exact length_take_le _ _
  · intro st hst
    obtain ⟨id, -, hid⟩ := mem_filterMap.mp (mem_of_mem_take hst)
    exact ⟨h.states id st hid, by rw [h.filed id st hid, hid]⟩

end Stores

/-- Updating the first request of a batch preserves `Q`. -/
def UpdatePreserves (F : Type) [LinearOrder F] (Q : DiffusionRuntimeState → Prop) : Prop :=
  ∀ (env : RunnerEnv F) st rest up, Q st → (∀ st' ∈ rest, Q st') →
    executeDiffusionOnce env ⟨(st :: rest).map DiffusionRuntimeState.toStepRequest⟩ = .ok [up] →
    Q (st.advance up.newX)

section Runs

variable {P : DiffusionRequest → Prop} {Q : DiffusionRuntimeState → Prop} {s : DiffusionScheduler}

theorem Stores.diffusionStep (h : Stores P Q s) (fresh : ∀ req, P req → Q req.initialState)
    (update : UpdatePreserves F Q) (env : RunnerEnv F) :
    Stores P Q (diffusionStep env s).scheduler := by
  have hrefilled := h.ensureRunningCapacity fresh
  obtain heq | ⟨_, -, heq⟩ | ⟨⟨_⟩, hbatch, ⟨_, heq⟩ | ⟨_, hexec, heq⟩⟩ :=
    diffusionStep_cases env s
  · rw [heq]
    exact h
  · rw [heq]
    exact hrefilled
  · rw [heq]
    exact hrefilled
  · rw [heq]
    obtain ⟨sts, hsts, -, hkept⟩ := hrefilled.stepRequests_eq_map
    dsimp only at hbatch
    rw [hbatch, hsts] at hexec
    cases sts with
    | nil =>
      cases hexec
      exact hrefilled
    | cons st rest =>
      -- the only update is that of the first request, whose state is the one in the batch
      obtain ⟨up, rfl, hid⟩ := executeDiffusionOnce_eq_ok hexec
      obtain ⟨hst, hfiled⟩ := hkept st mem_cons_self
      apply Stores.applyUpdate hrefilled
      intro st' hst'
      rw [hid, DiffusionRuntimeState.toStepRequest_reqId, hfiled] at hst'
      cases hst'
      exact update env st rest up hst
        (fun st' hmem => (hkept st' (mem_cons_of_mem _ hmem)).1) hexec

theorem diffusionStep_frame (env : RunnerEnv F) (s : DiffusionScheduler) :
    (diffusionStep env s).scheduler.poolInitialized = s.poolInitialized ∧
      (diffusionStep env s).scheduler.maxBatchSize = s.maxBatchSize := by
  obtain heq | ⟨_, -, heq⟩ | ⟨_, -, ⟨_, heq⟩ | ⟨_, -, heq⟩⟩ := diffusionStep_cases env s
  · rw [heq]
    exact ⟨rfl, rfl⟩
  · rw [heq]
    exact ⟨s.ensureRunningCapacity_poolInitialized, s.ensureRunningCapacity_maxBatchSize⟩
  · rw [heq]
    exact ⟨s.ensureRunningCapacity_poolInitialized, s.ensureRunningCapacity_maxBatchSize⟩
  · rw [heq]
    refine ⟨?_, ?_⟩
    · rw [DiffusionScheduler.applyUpdates_poolInitialized,
        s.ensureRunningCapacity_poolInitialized]
    · rw [(DiffusionScheduler.applyUpdates_frame _ _).2.1, s.ensureRunningCapacity_maxBatchSize]

theorem addRequest_frame (e : EngineCore) (request : Request) :
    (e.addRequest request).2.diffusionScheduler.poolInitialized =
        e.diffusionScheduler.poolInitialized ∧
      (e.addRequest request).2.diffusionScheduler.maxBatchSize =
        e.diffusionScheduler.maxBatchSize := by
  unfold EngineCore.addRequest
  split
  · split
    · exact ⟨rfl, rfl⟩
    · exact ⟨rfl, rfl⟩
  · exact ⟨rfl, rfl⟩

/-- A run changes neither the pool nor the size of a batch. -/
theorem frame_of_execution {runner : Option ModelRunnerRef} {events : List Event}
    {e : EngineCore} (run : Execution (EngineCore.Step F) (EngineCore.init runner) events e) :
    e.diffusionScheduler.poolInitialized =
        (EngineCore.init runner).diffusionScheduler.poolInitialized ∧
      e.diffusionScheduler.maxBatchSize = 999 := by
  refine run.preserves (P := fun e => e.diffusionScheduler.poolInitialized =
    (EngineCore.init runner).diffusionScheduler.poolInitialized ∧
      e.diffusionScheduler.maxBatchSize = 999) ?_ ⟨rfl, rfl⟩
  intro t event u ⟨hpool, hmax⟩ last
  rw [← hpool, ← hmax]
  cases last with
  | added request => exact addRequest_frame t request
  | aborted requestIds => exact ⟨rfl, rfl⟩
  | stepped env => exact diffusionStep_frame env _

/-- The two invariants hold after every run that adds only requests with the first one. -/
theorem stores_of_execution (fresh : ∀ req, P req → Q req.initialState)
    (update : UpdatePreserves F Q) {runner : Option ModelRunnerRef} {events : List Event}
    {e : EngineCore} (run : Execution (EngineCore.Step F) (EngineCore.init runner) events e)
    (added : ∀ request, .added request ∈ events → P request.toDiffusionRequest) :
    Stores P Q e.diffusionScheduler := by
  induction run with
  | start =>
    have h := DiffusionScheduler.consistent_init 999
    exact ⟨⟨h.nodup, h.filed⟩, nofun, nofun⟩
  | extend _ last ih =>
    have hbefore := ih fun request hmem => added request (mem_append_left _ hmem)
    cases last with
    | added request =>
      have hreq := added request (by simp)
      unfold EngineCore.addRequest
      split
      · split
        · exact hbefore
        · exact hbefore.addRequest hreq (fresh _ hreq)
      · exact hbefore.addRequest hreq (fresh _ hreq)
    | aborted requestIds => exact hbefore
    | stepped env => exact hbefore.diffusionStep fresh update env

end Runs

end Engine
