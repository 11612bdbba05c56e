import Mosaic.Engine.Core

/-!
# The clients of the engine

A request carries the index of the client that submitted it. The diffusion request made from it
has no such field, and a step puts all its outputs under client 0. So the outputs are put out
once each, and reach the client of the request exactly when that client has index 0.
-/

open Transition (Execution)

namespace Diffusion.DiffusionScheduler

/-! ### What the scheduler still owes -/

/-- How often `id` runs or waits. -/
def owed (s : DiffusionScheduler) (id : String) : ℕ :=
  s.running.count id + s.waitingIds.count id

variable {s : DiffusionScheduler}

theorem owed_addRequest (req : DiffusionRequest) (id : String) :
    (s.addRequest req).owed id = s.owed id + if req.reqId = id then 1 else 0 := by
  simp only [owed, addRequest, waitingIds, List.map_append, List.map_singleton, List.count_append,
    List.count_singleton, beq_iff_eq]
  rw [Nat.add_assoc]

/-- A request that leaves the queue runs at most once. -/
theorem owed_startRunning {req : DiffusionRequest} {rest : List DiffusionRequest}
    (hqueue : s.waiting = req :: rest) (id : String) :
    ({ s with waiting := rest }.startRunning req).owed id ≤ s.owed id := by
  unfold owed startRunning waitingIds
  rw [hqueue, List.map_cons, List.count_cons]
  dsimp only
  split
  · omega
  · rw [List.count_append, List.count_singleton]
    omega

theorem owed_ensureRunningCapacity (id : String) :
    s.ensureRunningCapacity.2.owed id ≤ s.owed id := by
  apply ensureRunningCapacity_induction (P := fun t => t.owed id ≤ s.owed id) le_rfl
  intro t req rest ht hqueue _
  exact (owed_startRunning hqueue id).trans ht

/-- A request that completes stops running. -/
theorem owed_applyUpdate (hs : s.Consistent) {up : DiffusionStepUpdate}
    (runs : up.reqId ∈ s.running) (id : String) :
    ((s.applyUpdate up).1.map FinishedDiffusionItem.reqId).count id + (s.applyUpdate up).2.owed id ≤
      s.owed id := by
  obtain ⟨_, heq⟩ | ⟨st, hst, ⟨_, heq⟩ | ⟨_, heq⟩⟩ := s.applyUpdate_cases up
  · simp [heq]
  · simp [heq, owed, waitingIds]
  · have hid := hs.filed _ st hst
    have hone : 1 ≤ s.running.count up.reqId := List.one_le_count_iff.mpr runs
    simp only [heq, hid, owed, waitingIds, List.map_singleton, List.count_singleton,
      List.count_erase, beq_iff_eq]
    by_cases hsame : up.reqId = id
    · subst hsame
      simp only [if_true]
      omega
    · simp [hsame]

/-- The finished ids are those from before and those that are reported. -/
theorem applyUpdates_finishedReqIds (updates : List DiffusionStepUpdate) :
    (s.applyUpdatesAndCollectFinished updates).2.finishedReqIds = s.finishedReqIds ∪
      ((s.applyUpdatesAndCollectFinished updates).1.map FinishedDiffusionItem.reqId).toFinset := by
  induction updates generalizing s with
  | nil => simp
  | cons up rest ih =>
    rw [applyUpdates_cons]
    rw [ih]
    obtain ⟨_, heq⟩ | ⟨_, _, ⟨_, heq⟩ | ⟨_, heq⟩⟩ := s.applyUpdate_cases up
    · simp [heq]
    · simp [heq]
    · ext id
      simp [heq]

end Diffusion.DiffusionScheduler

namespace Engine

open Diffusion

variable {F : Type} [LinearOrder F]

/-! ### Histories -/

/-- The engine takes the request: it does not raise for its pooling task. -/
def Request.accepted (request : Request) (tasks : List String) : Bool :=
  request.poolingTask.all fun task => decide (task ∈ tasks)

namespace Event

/-- The request that an event adds to the queue. -/
def submitted (tasks : List String) : Event → List Request
  | .added request => if request.accepted tasks then [request] else []
  | _ => []

/-- The outputs of a step with the client that each of them is for. -/
def delivered : Event → List (ℕ × EngineCoreOutput)
  | .stepped _ outputs => outputs.flatMap fun out => out.2.map fun o => (out.1, o)
  | _ => []

end Event

/-- The requests of a history. -/
def submissions (tasks : List String) (events : List Event) : List Request :=
  events.flatMap (Event.submitted tasks)

/-- How often `id` was submitted. -/
def timesSubmitted (tasks : List String) (events : List Event) (id : String) : ℕ :=
  ((submissions tasks events).map Request.requestId).count id

/-- How often an output for `id` was put out, over all clients. -/
def timesPutOut (events : List Event) (id : String) : ℕ :=
  (events.flatMap Event.outputIds).count id

/-- An output for client `c` belongs to a request that was submitted, and the requests that
were submitted under its id come from `c`. -/
structure AtClient (requests : List Request) (c : ℕ) (out : EngineCoreOutput) : Prop where
  submitted : ∃ request ∈ requests, request.requestId = out.requestId
  client : ∀ request ∈ requests, request.requestId = out.requestId → request.clientIndex = c

/-- What the clients of the engine rely on: every output is under the client of its request, a
request has at most one output, and a request that has finished has one. -/
structure Delivered (events : List Event) (e : EngineCore) : Prop where
  placed : ∀ prior event later, events = prior ++ event :: later →
    ∀ c out, (c, out) ∈ event.delivered →
      AtClient (submissions e.supportedPoolingTasks prior) c out
  once : ∀ id, timesPutOut events id ≤ timesSubmitted e.supportedPoolingTasks events id
  complete : ∀ id ∈ e.diffusionScheduler.finishedReqIds, 1 ≤ timesPutOut events id

theorem submissions_append (tasks : List String) (events later : List Event) :
    submissions tasks (events ++ later) = submissions tasks events ++ submissions tasks later :=
  List.flatMap_append

theorem timesSubmitted_concat (tasks : List String) (events : List Event) (event : Event)
    (id : String) :
    timesSubmitted tasks (events ++ [event]) id =
      timesSubmitted tasks events id + timesSubmitted tasks [event] id := by
  simp [timesSubmitted, submissions_append]

theorem timesPutOut_concat (events : List Event) (event : Event) (id : String) :
    timesPutOut (events ++ [event]) id = timesPutOut events id + event.outputIds.count id := by
  simp [timesPutOut]

theorem Event.mem_outputIds {event : Event} {id : String} :
    id ∈ event.outputIds ↔ ∃ c out, (c, out) ∈ event.delivered ∧ out.requestId = id := by
  cases event with
  | added request => simp [outputIds, delivered]
  | aborted requestIds => simp [outputIds, delivered]
  | stepped batch outputs =>
    simp only [outputIds, delivered, List.mem_flatMap, List.mem_map, Prod.mk.injEq]
    constructor
    · rintro ⟨out, hout, o, ho, rfl⟩
      exact ⟨out.1, o, ⟨out, hout, o, ho, rfl, rfl⟩, rfl⟩
    · rintro ⟨c, o, ⟨out, hout, o, ho, rfl, rfl⟩, rfl⟩
      exact ⟨out, hout, o, ho, rfl⟩

/-! ### Steps -/

/-- A diffusion step pays for the outputs that it puts out. -/
theorem owed_diffusionStep (env : RunnerEnv F) {s : DiffusionScheduler} (hs : s.Consistent)
    (items : List FinishedDiffusionItem) (hitems : (diffusionStep env s).finished = .ok items)
    (id : String) :
    (items.map FinishedDiffusionItem.reqId).count id + (diffusionStep env s).scheduler.owed id ≤
      s.owed id := by
  have hrefill := s.owed_ensureRunningCapacity id
  obtain heq | ⟨finished, hnone, heq⟩ | ⟨batch, hbatch, ⟨_, heq⟩ | ⟨_, hexec, heq⟩⟩ :=
    diffusionStep_cases env s
  · rw [heq] at hitems ⊢
    cases hitems
    simp
  · rw [heq] at hitems ⊢
    rw [hnone items hitems]
    simpa using hrefill
  · rw [heq] at hitems
    cases hitems
  · rw [heq] at hitems ⊢
    cases hitems
    obtain ⟨requests⟩ := batch
    cases requests with
    | nil =>
      cases hexec
      simpa using hrefill
    | cons r rest =>
      -- the only update is for the first request of the batch, which runs
      obtain ⟨up, rfl, hid⟩ := executeDiffusionOnce_eq_ok hexec
      have hruns : up.reqId ∈ s.ensureRunningCapacity.2.running := by
        apply stepRequests_subset_running hs.ensureRunningCapacity
        rw [← hbatch, hid]
        simp
      have hpaid := DiffusionScheduler.owed_applyUpdate hs.ensureRunningCapacity hruns id
      rw [DiffusionScheduler.applyUpdates_cons]
      simpa using hpaid.trans hrefill

theorem finishedReqIds_diffusionStep (env : RunnerEnv F) (s : DiffusionScheduler)
    (id : String) (hid : id ∈ (diffusionStep env s).scheduler.finishedReqIds) :
    id ∈ s.finishedReqIds ∨ ∃ items, (diffusionStep env s).finished = .ok items ∧
      id ∈ items.map FinishedDiffusionItem.reqId := by
  obtain heq | ⟨finished, _, heq⟩ | ⟨_, _, ⟨_, heq⟩ | ⟨_, _, heq⟩⟩ :=
    diffusionStep_cases env s
  · rw [heq] at hid
    exact .inl hid
  · rw [heq] at hid
    exact .inl (by simpa using hid)
  · rw [heq] at hid
    exact .inl (by simpa using hid)
  · rw [heq] at hid ⊢
    rw [DiffusionScheduler.applyUpdates_finishedReqIds,
      DiffusionScheduler.ensureRunningCapacity_finishedReqIds, Finset.mem_union,
      List.mem_toFinset] at hid
    exact hid.imp_right fun h => ⟨_, rfl, h⟩

namespace EngineCore

/-- The event of a step. -/
def stepEvent (env : RunnerEnv F) (e : EngineCore) : Event :=
  .stepped (e.stepBatch env) (match (e.step env).1 with
    | .ok (outputs, _) => outputs
    | .error _ => [])

/-- All outputs of a step are for client 0. -/
theorem delivered_stepEvent {env : RunnerEnv F} {e : EngineCore} {c : ℕ} {out : EngineCoreOutput}
    (h : (c, out) ∈ (e.stepEvent env).delivered) : c = 0 := by
  simp only [stepEvent, Event.delivered, step] at h
  cases hfin : (diffusionStep env e.diffusionScheduler).finished with
  | error err => simp [hfin, Except.map] at h
  | ok items =>
    simp only [hfin, Except.map, packOutputs] at h
    split at h
    · simp at h
    · simp only [List.flatMap_cons, List.flatMap_nil, List.append_nil, List.mem_map,
        Prod.mk.injEq] at h
      obtain ⟨_, _, hzero, _⟩ := h
      exact hzero.symm

theorem outputIds_stepEvent (env : RunnerEnv F) (e : EngineCore) :
    (e.stepEvent env).outputIds = match (diffusionStep env e.diffusionScheduler).finished with
      | .ok items => items.map FinishedDiffusionItem.reqId
      | .error _ => [] := by
  simp only [stepEvent, Event.outputIds, step]
  cases (diffusionStep env e.diffusionScheduler).finished with
  | error err => rfl
  | ok items =>
    simp only [Except.map, packOutputs]
    cases items with
    | nil => rfl
    | cons item rest => simp

theorem addRequest_eq (e : EngineCore) (request : Request) :
    (e.addRequest request).2 = if request.accepted e.supportedPoolingTasks then
      { e with
        diffusionScheduler := e.diffusionScheduler.addRequest request.toDiffusionRequest }
      else e := by
  unfold addRequest
  split
  · rename_i task htask
    by_cases hmem : task ∈ e.supportedPoolingTasks
    · simp [Request.accepted, htask, hmem]
    · simp [Request.accepted, htask, hmem]
  · rename_i htask
    simp [Request.accepted, htask]

variable {event : Event} {e e' : EngineCore}

theorem Step.supportedPoolingTasks
    (h : Step F e event e') : e'.supportedPoolingTasks = e.supportedPoolingTasks := by
  cases h with
  | added request =>
    rw [addRequest_eq]
    split <;> rfl
  | aborted requestIds => rfl
  | stepped env => rfl

/-- What an event submits, it adds to what is owed, and what it puts out it takes off. -/
theorem Step.owed (h : Step F e event e') (hs : e.diffusionScheduler.Consistent) (id : String) :
    event.outputIds.count id + e'.diffusionScheduler.owed id ≤
      e.diffusionScheduler.owed id + timesSubmitted e.supportedPoolingTasks [event] id := by
  cases h with
  | added request =>
    rw [addRequest_eq]
    by_cases haccepted : request.accepted e.supportedPoolingTasks = true
    · rw [if_pos haccepted]
      rw [DiffusionScheduler.owed_addRequest]
      simp only [Event.outputIds, timesSubmitted, submissions, Event.submitted, haccepted,
        Request.toDiffusionRequest, List.count_nil, if_true, List.flatMap_cons, List.flatMap_nil,
        List.append_nil, List.map_singleton, List.count_singleton, beq_iff_eq]
      by_cases hsame : request.requestId = id
      · simp [hsame]
      · simp [hsame]
    · rw [if_neg haccepted]
      simp [Event.outputIds]
  | aborted requestIds => simp [Event.outputIds, abortRequests]
  | stepped env =>
    apply le_trans _ (Nat.le_add_right _ _)
    show (e.stepEvent env).outputIds.count id +
      (diffusionStep env e.diffusionScheduler).scheduler.owed id ≤ _
    rw [outputIds_stepEvent]
    cases hfin : (diffusionStep env e.diffusionScheduler).finished with
    | ok items => exact owed_diffusionStep env hs items hfin id
    | error err =>
      have hrefill := e.diffusionScheduler.owed_ensureRunningCapacity id
      obtain heq | ⟨_, _, heq⟩ | ⟨_, _, ⟨_, heq⟩ | ⟨_, _, heq⟩⟩ :=
        diffusionStep_cases env e.diffusionScheduler
      · simp [heq] at hfin
      · simpa [heq] using hrefill
      · simpa [heq] using hrefill
      · simp [heq] at hfin

theorem Step.finishedReqIds (h : Step F e event e')
    {id : String} (hid : id ∈ e'.diffusionScheduler.finishedReqIds) :
    id ∈ e.diffusionScheduler.finishedReqIds ∨ id ∈ event.outputIds := by
  cases h with
  | added request =>
    rw [addRequest_eq] at hid
    split at hid
    · exact .inl hid
    · exact .inl hid
  | aborted requestIds => exact .inl hid
  | stepped env =>
    refine (finishedReqIds_diffusionStep env e.diffusionScheduler id hid).imp_right ?_
    rintro ⟨_, hitems, hmem⟩
    show id ∈ (e.stepEvent env).outputIds
    rw [outputIds_stepEvent, hitems]
    exact hmem

/-! ### Runs -/

/-- The account of an id: what was put out and what is owed was submitted, and what has
finished was put out. -/
structure Accounts (events : List Event) (e : EngineCore) : Prop where
  consistent : e.diffusionScheduler.Consistent
  paid : ∀ id, timesPutOut events id + e.diffusionScheduler.owed id ≤
    timesSubmitted e.supportedPoolingTasks events id
  finished : ∀ id ∈ e.diffusionScheduler.finishedReqIds, 1 ≤ timesPutOut events id

theorem accounts_of_execution {runner : Option ModelRunnerRef} {events : List Event}
    {e : EngineCore} (run : Execution (Step F) (init runner) events e) : Accounts events e := by
  refine run.invariant (P := Accounts) ?_ ?_
  · have h := DiffusionScheduler.consistent_init 999
    exact ⟨⟨h.nodup, h.filed⟩, by simp [timesPutOut, init, DiffusionScheduler.owed,
      DiffusionScheduler.waitingIds], by simp [init]⟩
  · intro events t event u ht hstep
    refine ⟨hstep.consistent ht.consistent, ?_, ?_⟩
    · intro id
      have hpaid := ht.paid id
      have howed := hstep.owed ht.consistent id
      rw [timesPutOut_concat, timesSubmitted_concat, hstep.supportedPoolingTasks]
      omega
    · intro id hid
      rw [timesPutOut_concat]
      cases hstep.finishedReqIds hid with
      | inl hold => exact (ht.finished id hold).trans (Nat.le_add_right _ _)
      | inr hnew => exact (List.one_le_count_iff.mpr hnew).trans (Nat.le_add_left _ _)

/-- What a run puts out under a client is under client 0, for an id that was submitted. -/
theorem delivered_of_execution {runner : Option ModelRunnerRef} {events prior later : List Event}
    {e : EngineCore} (run : Execution (Step F) (init runner) events e)
    (split : events = prior ++ event :: later) {c : ℕ} {out : EngineCoreOutput}
    (hout : (c, out) ∈ event.delivered) :
    c = 0 ∧ ∃ request ∈ submissions e.supportedPoolingTasks prior,
      request.requestId = out.requestId := by
  subst split
  obtain ⟨t, before, after⟩ := Execution.append_iff.mp run
  obtain ⟨u, hstep, hlater⟩ : ∃ u, Step F t event u ∧ Execution (Step F) u later e := by
    obtain ⟨u, hfirst, hrest⟩ := Execution.append_iff.mp
      (show Execution (Step F) t ([event] ++ later) e from after)
    exact ⟨u, Execution.single_iff.mp hfirst, hrest⟩
  have htasks : e.supportedPoolingTasks = t.supportedPoolingTasks := by
    rw [← hstep.supportedPoolingTasks]
    exact hlater.preserves (P := fun v => v.supportedPoolingTasks = u.supportedPoolingTasks)
      (fun _ _ _ hv hnext => hnext.supportedPoolingTasks.trans hv) rfl
  have hcounts := accounts_of_execution before
  constructor
  · cases hstep with
    | added request => simp [Event.delivered] at hout
    | aborted requestIds => simp [Event.delivered] at hout
    | stepped env => exact delivered_stepEvent hout
  · -- the output is paid for by an earlier submission
    have hput : 1 ≤ event.outputIds.count out.requestId :=
      List.one_le_count_iff.mpr (Event.mem_outputIds.mpr ⟨c, out, hout, rfl⟩)
    have howed := hstep.owed hcounts.consistent out.requestId
    have hpaid := hcounts.paid out.requestId
    have hnone : timesSubmitted t.supportedPoolingTasks [event] out.requestId = 0 := by
      cases hstep with
      | added request => simp [Event.delivered] at hout
      | aborted requestIds => rfl
      | stepped env => rfl
    have hsubmitted : 1 ≤ timesSubmitted t.supportedPoolingTasks prior out.requestId := by omega
    obtain ⟨request, hrequest, hid⟩ := List.mem_map.mp (List.one_le_count_iff.mp hsubmitted)
    exact ⟨request, htasks ▸ hrequest, hid⟩

/-- The outputs of a run arrive when every request comes from client 0. An output for a request
of another client never does. -/
theorem delivered_of_client_zero (runner : Option ModelRunnerRef) (events : List Event)
    (e : EngineCore) (run : Execution (Step F) (init runner) events e) :
    ((∀ request ∈ submissions e.supportedPoolingTasks events, request.clientIndex = 0) →
      Delivered events e) ∧
    ∀ request prior event later, events = prior ++ event :: later →
      request ∈ submissions e.supportedPoolingTasks prior → request.clientIndex ≠ 0 →
      request.requestId ∈ event.outputIds → ¬ Delivered events e := by
  have haccounts := accounts_of_execution run
  constructor
  · intro allZero
    refine ⟨?_, fun id => (Nat.le_add_right _ _).trans (haccounts.paid id), haccounts.finished⟩
    intro prior event later split c out hout
    obtain ⟨rfl, hsubmitted⟩ := delivered_of_execution run split hout
    refine ⟨hsubmitted, ?_⟩
    intro request hrequest _
    apply allZero
    rw [split, submissions_append]
    exact List.mem_append_left _ hrequest
  · intro request prior event later split hrequest hclient hput h
    obtain ⟨c, out, hout, hid⟩ := Event.mem_outputIds.mp hput
    obtain ⟨hzero, -⟩ := delivered_of_execution run split hout
    have hsame := (h.placed prior event later split c out hout).client request hrequest hid.symm
    exact hclient (hsame.trans hzero)

/-- The request of client 0 is put out in the first step. -/
theorem delivered_one_request :
    ∃ events e, Execution (Step ℕ) (init (some ⟨some ⟨true⟩⟩)) events e ∧
      timesPutOut events "r" = 1 ∧ Delivered events e :=
  have run := (Execution.single (Step.added ⟨"r", [1],
    some { steps := 1, genLength := 1, blockLength := 1 }, none, 0⟩)).extend
    (Step.stepped (constantEnv 7))
  ⟨_, _, run, by decide, (delivered_of_client_zero _ _ _ run).1 (by decide)⟩

/-- The request of client 1 completes, and its output is put out for client 0. -/
theorem output_of_another_client :
    ∃ events e, Execution (Step ℕ) (init (some ⟨some ⟨true⟩⟩)) events e ∧
      ¬ Delivered events e := by
  refine ⟨_, _, (Execution.single (Step.added ⟨"r", [1],
    some { steps := 1, genLength := 1, blockLength := 1 }, none, 1⟩)).extend
    (Step.stepped (constantEnv 7)), ?_⟩
  intro h
  have hout := (h.placed _ _ [] rfl 0 ⟨"r", [7], .length⟩ (by decide)).client
    ⟨"r", [1], some { steps := 1, genLength := 1, blockLength := 1 }, none, 1⟩
    (by simp [submissions, Event.submitted, Request.accepted]) rfl
  cases hout

end EngineCore

end Engine
