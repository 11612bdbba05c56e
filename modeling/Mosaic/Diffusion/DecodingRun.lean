import Mosaic.Diffusion.Decoding

/-!
# Decoding one request to its end

A scheduler that holds a single request is iterated: schedule, run, apply the update. The model
may answer differently in every step.
-/

namespace Diffusion

variable {F : Type} [LinearOrder F]

/-- The scheduler after `n` iterations. -/
def decodeState (envs : ℕ → RunnerEnv F) (s : DiffusionScheduler) : ℕ → DiffusionScheduler
  | 0 => s
  | n + 1 => (diffusionStep (envs n) (decodeState envs s n)).scheduler

/-- What iteration `n` reports. -/
def decodeReport (envs : ℕ → RunnerEnv F) (s : DiffusionScheduler) (n : ℕ) :
    Except PyError (List FinishedDiffusionItem) :=
  (diffusionStep (envs n) (decodeState envs s n)).finished

/-! ### A scheduler with one request -/

/-- The scheduler holds this request and no other, and its refill loop stops after it. -/
structure Alone (s : DiffusionScheduler) (req : DiffusionRequest) (st : DiffusionRuntimeState) :
    Prop where
  state : s.states req.reqId = some st
  reqId : st.reqId = req.reqId
  place : (s.waiting = [req] ∧ s.running = []) ∨ (s.waiting = [] ∧ s.running = [req.reqId])
  room : 1 ≤ s.maxBatchSize
  stops : s.poolInitialized = true ∨ s.maxBatchSize = 1

variable {s : DiffusionScheduler}

/-- A running request that is alone leaves the refill loop without work. -/
theorem ensureRunningCapacity_of_running {id : String}
    (hwait : s.waiting = []) (hrun : s.running = [id])
    (stops : s.poolInitialized = true ∨ s.maxBatchSize = 1) :
    s.ensureRunningCapacity = (.ok (), s) := by
  have hfull : s.canAddMoreRequests = false := by
    rw [DiffusionScheduler.canAddMoreRequests_of_waiting_nil hwait, hrun]
    cases stops with
    | inl hpool => simp [hpool]
    | inr hmax => simp [hmax]
  rw [DiffusionScheduler.ensureRunningCapacity_eq, hfull]
  rfl

variable {st : DiffusionRuntimeState} {req : DiffusionRequest}

theorem Alone.ensureRunningCapacity (h : Alone s req st) :
    s.ensureRunningCapacity = (.ok (), { s with waiting := [], running := [req.reqId] }) := by
  rcases h.place with ⟨hwait, hrun⟩ | ⟨hwait, hrun⟩
  · have hroom : s.canAddMoreRequests = true := by
      rw [DiffusionScheduler.canAddMoreRequests_of_waiting (by simp [hwait]), hrun,
        decide_eq_true_eq]
      exact h.room
    have hstart : ({ s with waiting := [] } : DiffusionScheduler).startRunning req =
        { s with waiting := [], running := s.running ++ [req.reqId] } :=
      DiffusionScheduler.startRunning_of_new (by simp [hrun]) (by simp [h.state])
    rw [DiffusionScheduler.ensureRunningCapacity_eq, hroom]
    simp only [if_true, DiffusionScheduler.popRequest, hwait]
    rw [hstart, hrun, List.nil_append]
    exact ensureRunningCapacity_of_running rfl rfl h.stops
  · rw [ensureRunningCapacity_of_running hwait hrun h.stops, ← hwait, ← hrun]

theorem Alone.scheduleStep (h : Alone s req st) : s.scheduleStep = (.ok (some ⟨[st.toStepRequest]⟩),
      { s with waiting := [], running := [req.reqId] }) := by
  have hreqs : ({ s with waiting := [], running := [req.reqId] } :
      DiffusionScheduler).stepRequests = [st.toStepRequest] := by
    rw [DiffusionScheduler.stepRequests_eq]
    simp [h.state]
  unfold DiffusionScheduler.scheduleStep
  rw [h.ensureRunningCapacity]
  dsimp only
  rw [hreqs]
  rfl

theorem Alone.hasActiveRequests (h : Alone s req st) : s.hasActiveRequests = true := by
  unfold DiffusionScheduler.hasActiveRequests
  rcases h.place with ⟨hwait, hrun⟩ | ⟨hwait, hrun⟩
  · simp [hwait]
  · simp [hrun]

/-- No request is left, and the state of the last one is kept. -/
structure Ended (s : DiffusionScheduler) (req : DiffusionRequest) (st : DiffusionRuntimeState) :
    Prop where
  state : s.states req.reqId = some st
  waiting : s.waiting = []
  running : s.running = []

theorem Ended.diffusionStep (h : Ended s req st) (env : RunnerEnv F) :
    diffusionStep env s = ⟨none, .ok [], s⟩ := by
  have hidle : s.hasActiveRequests = false := by
    simp [DiffusionScheduler.hasActiveRequests, h.waiting, h.running]
  unfold Diffusion.diffusionStep
  rw [hidle]
  rfl

/-- One iteration: the request takes one step, and either goes on or is reported. -/
theorem diffusionStep_alone {env : RunnerEnv F} (h : Alone s req st) {up : DiffusionStepUpdate}
    (hexec : executeDiffusionOnce env ⟨[st.toStepRequest]⟩ = .ok [up])
    (hup : up.reqId = req.reqId) :
    ((st.advance up.newX).isFinished = false ∧ (diffusionStep env s).finished = .ok [] ∧
      Alone (diffusionStep env s).scheduler req (st.advance up.newX)) ∨
    ((st.advance up.newX).isFinished = true ∧
      (diffusionStep env s).finished = .ok [⟨req.reqId, (st.advance up.newX).tail⟩] ∧
      Ended (diffusionStep env s).scheduler req (st.advance up.newX)) := by
  set t : DiffusionScheduler := { s with waiting := [], running := [req.reqId] } with ht
  have hstep : diffusionStep env s =
      ⟨some ⟨[st.toStepRequest]⟩, .ok (t.applyUpdatesAndCollectFinished [up]).1,
        (t.applyUpdatesAndCollectFinished [up]).2⟩ := by
    unfold diffusionStep
    rw [h.hasActiveRequests, h.scheduleStep]
    simp [hexec, ht]
  have hstate : t.states up.reqId = some st := by
    rw [hup]
    exact h.state
  rw [hstep, DiffusionScheduler.applyUpdates_cons, DiffusionScheduler.applyUpdates_nil]
  obtain ⟨hnone, _⟩ | ⟨st', hst', ⟨hnot, heq⟩ | ⟨hfin, heq⟩⟩ := t.applyUpdate_cases up
  · rw [hstate] at hnone
    cases hnone
  · obtain rfl : st = st' := Option.some.inj (hstate.symm.trans hst')
    left
    rw [heq]
    refine ⟨hnot, rfl, ?_⟩
    exact {
      state := by simp [hup]
      reqId := by rw [DiffusionRuntimeState.advance_reqId, h.reqId]
      place := .inr ⟨rfl, rfl⟩
      room := h.room
      stops := h.stops }
  · obtain rfl : st = st' := Option.some.inj (hstate.symm.trans hst')
    right
    rw [heq]
    refine ⟨hfin, by simp [h.reqId], ?_⟩
    exact {
      state := by simp [hup]
      waiting := rfl
      running := by simp [ht, h.reqId] }

/-! ### The run -/

/-- From one sequence to the next, tokens that were revealed stay, and only the given block
changes. -/
structure OneBlock (req : DiffusionRequest) (blockIdx : ℕ) (x y : List ℤ) : Prop where
  stays : ∀ j v, req.inputTokenIds.length ≤ j → x[j]? = some v → v ≠ req.params.maskId →
    y[j]? = some v
  inside : ∀ j : ℕ, y[j]? ≠ x[j]? →
    req.inputTokenIds.length + blockIdx * req.params.blockLength ≤ (j : ℤ) ∧
      (j : ℤ) < req.inputTokenIds.length + (blockIdx + 1) * req.params.blockLength

theorem OneBlock.refl (req : DiffusionRequest) (blockIdx : ℕ) (x : List ℤ) :
    OneBlock req blockIdx x x where
  stays := fun _ _ _ h _ => h
  inside := fun _ h => absurd rfl h

theorem Decoding.oneBlock
    (h : Decoding req st) (hp : Decodable req.params) (hb : st.InBudget) {y : List ℤ}
    {sel : Finset ℕ} {count : ℕ} (hr : Reveals st.toStepRequest count st.x y sel) :
    OneBlock req st.blockIdx st.x y where
  stays := by
    intro j v _ hj hv
    rw [← hj]
    apply hr.getElem?_eq
    right
    right
    rw [show st.toStepRequest.params = st.params from rfl, h.params, hj]
    simpa using hv
  inside := by
    intro j hchanged
    rw [← h.promptLen]
    constructor
    · by_contra hlt
      exact hchanged (h.kept_outside hp hb hr (.inl (by omega)))
    · by_contra hge
      exact hchanged (h.kept_outside hp hb hr (.inr (by omega)))

/-- After `n` iterations the request is being decoded and nothing was reported. -/
structure Running (envs : ℕ → RunnerEnv F) (s : DiffusionScheduler) (req : DiffusionRequest)
    (n : ℕ) (st : DiffusionRuntimeState) : Prop where
  alone : Alone (decodeState envs s n) req st
  decoding : Decoding req st
  onQuota : OnQuota st
  steps : st.stepsTaken = n
  silent : ∀ m < n, decodeReport envs s m = .ok []

/-- After `n` iterations the request has been reported, once. -/
structure Reported (envs : ℕ → RunnerEnv F) (s : DiffusionScheduler) (req : DiffusionRequest)
    (n : ℕ) (st : DiffusionRuntimeState) (last : ℕ) : Prop where
  ended : Ended (decodeState envs s n) req st
  decoding : Decoding req st
  finished : st.isFinished = true
  before : last < n
  intime : (last : ℤ) < req.params.numBlocks * req.params.stepsPerBlock
  reports : ∀ m < n, decodeReport envs s m = .ok (if m = last then [⟨req.reqId, st.tail⟩] else [])

section Run

variable {envs : ℕ → RunnerEnv F} {s : DiffusionScheduler} {req : DiffusionRequest} {n : ℕ}
variable {st : DiffusionRuntimeState}

theorem Running.next (h : Running envs s req n st) (hp : Decodable req.params)
    (hs : Storable req)
    (answers : ∀ n ctx, Answers req.params.maskId ((envs n).model ctx)) :
    ∃ st', OneBlock req st.blockIdx st.x st'.x ∧
      (Running envs s req (n + 1) st' ∨ Reported envs s req (n + 1) st' n) := by
  obtain ⟨up, _, hexec, hup, hreveals⟩ := h.decoding.execute hp hs h.onQuota (answers n)
  obtain ⟨hdecoding, hquota⟩ := h.decoding.advance hp h.onQuota hreveals
  have hbudget := h.onQuota.toInBudget
  refine ⟨st.advance up.newX, ?_, ?_⟩
  · rw [DiffusionRuntimeState.advance_x]
    exact h.decoding.oneBlock hp hbudget hreveals
  · rcases diffusionStep_alone h.alone hexec hup with
      ⟨hnot, hreport, halone⟩ | ⟨hfin, hreport, hended⟩
    · left
      refine ⟨halone, hdecoding, hquota hnot, ?_, ?_⟩
      · rw [hbudget.stepsTaken_advance, h.steps]
        push_cast
        rfl
      · intro m hm
        obtain hm | rfl := Nat.lt_succ_iff_lt_or_eq.mp hm
        · exact h.silent m hm
        · exact hreport
    · right
      refine ⟨hended, hdecoding, hfin, Nat.lt_succ_self n, ?_, ?_⟩
      · rw [← h.steps, ← h.decoding.params]
        exact hbudget.stepsTaken_lt
      · intro m hm
        obtain hm | rfl := Nat.lt_succ_iff_lt_or_eq.mp hm
        · rw [if_neg (by omega)]
          exact h.silent m hm
        · rw [if_pos rfl]
          exact hreport

theorem Reported.next {last : ℕ} (h : Reported envs s req n st last) :
    Reported envs s req (n + 1) st last := by
  have hidle := h.ended.diffusionStep (envs n)
  have hbefore := h.before
  refine ⟨?_, h.decoding, h.finished, by omega, h.intime, ?_⟩
  · rw [decodeState, hidle]
    exact h.ended
  · intro m hm
    obtain hm | rfl := Nat.lt_succ_iff_lt_or_eq.mp hm
    · exact h.reports m hm
    · rw [if_neg (by omega), decodeReport, hidle]

/-- The tail of a complete sequence is what follows the prompt. -/
theorem Decoding.tail_eq (h : Decoding req st) (hp : Decodable req.params) :
    st.tail = st.x.drop st.promptLen ∧ (st.tail.length : ℤ) = req.params.genLength := by
  have hgen := hp.gen
  have hlength := h.length
  have htotal := h.totalLen
  have heq : st.tail = st.x.drop st.promptLen := by
    unfold DiffusionRuntimeState.tail slice
    rw [h.params, if_neg (by omega), List.take_of_length_le (by omega)]
  refine ⟨heq, ?_⟩
  rw [heq, List.length_drop]
  omega

theorem Alone.start (empty : s.waiting = [] ∧ s.running = []) (room : 1 ≤ s.maxBatchSize)
    (stops : s.poolInitialized = true ∨ s.maxBatchSize = 1) :
    Alone (s.addRequest req) req req.initialState where
  state := by simp [DiffusionScheduler.addRequest]
  reqId := rfl
  place := .inl (by simp [DiffusionScheduler.addRequest, empty])
  room := room
  stops := stops

theorem Running.start (alone : Alone (s.addRequest req) req req.initialState)
    (hp : Decodable req.params) (hs : Storable req) :
    Running envs (s.addRequest req) req 0 req.initialState where
  alone := alone
  decoding := (Decoding.initial req hp hs).1
  onQuota := (Decoding.initial req hp hs).2
  steps := by simp [DiffusionRuntimeState.stepsTaken, DiffusionRequest.initialState]
  silent := by
    intro m hm
    cases hm

/-- After every number of iterations, the request is being decoded or has been reported. -/
theorem exists_phase (start : Running envs s req 0 req.initialState) (hp : Decodable req.params)
    (hs : Storable req)
    (answers : ∀ n ctx, Answers req.params.maskId ((envs n).model ctx)) (n : ℕ) :
    ∃ st, Running envs s req n st ∨ ∃ last, Reported envs s req n st last := by
  induction n with
  | zero => exact ⟨_, .inl start⟩
  | succ n ih =>
    obtain ⟨st, hrun | ⟨last, hreported⟩⟩ := ih
    · obtain ⟨st', _, hnext⟩ := hrun.next hp hs answers
      exact ⟨st', hnext.imp_right fun h => ⟨n, h⟩⟩
    · exact ⟨st, .inr ⟨last, hreported.next⟩⟩

/-- The state of the request after `n` iterations. -/
def decodedState (envs : ℕ → RunnerEnv F) (s : DiffusionScheduler) (req : DiffusionRequest)
    (n : ℕ) : DiffusionRuntimeState :=
  ((decodeState envs s n).states req.reqId).getD req.initialState

theorem Running.decodedState_eq (h : Running envs s req n st) : decodedState envs s req n = st := by
  simp [decodedState, h.alone.state]

theorem Reported.decodedState_eq {last : ℕ} (h : Reported envs s req n st last) :
    decodedState envs s req n = st := by
  simp [decodedState, h.ended.state]

section

variable (start : Running envs s req 0 req.initialState) (hp : Decodable req.params)
  (hs : Storable req) (answers : ∀ n ctx, Answers req.params.maskId ((envs n).model ctx))
include start hp hs answers

/-- What holds of the request after every number of iterations. -/
theorem decoding_decodedState (n : ℕ) :
    (decodeState envs s n).states req.reqId = some (decodedState envs s req n) ∧
      Decoding req (decodedState envs s req n) ∧
      OneBlock req (decodedState envs s req n).blockIdx (decodedState envs s req n).x
        (decodedState envs s req (n + 1)).x := by
  obtain ⟨_, hrun | ⟨_, hreported⟩⟩ := exists_phase start hp hs answers n
  · rw [hrun.decodedState_eq]
    refine ⟨hrun.alone.state, hrun.decoding, ?_⟩
    obtain ⟨st', hone, hnext⟩ := hrun.next hp hs answers
    have heq : decodedState envs s req (n + 1) = st' := by
      cases hnext with
      | inl h => exact h.decodedState_eq
      | inr h => exact h.decodedState_eq
    rw [heq]
    exact hone
  · rw [hreported.decodedState_eq, hreported.next.decodedState_eq]
    exact ⟨hreported.ended.state, hreported.decoding, .refl _ _ _⟩

/-- Some iteration within the budget reports the request, and no other one does. -/
theorem exists_report : ∃ last : ℕ, (last : ℤ) < req.params.numBlocks * req.params.stepsPerBlock ∧
      (decodedState envs s req (last + 1)).isFinished = true ∧
      ∀ n, decodeReport envs s n = .ok
        (if n = last then [⟨req.reqId, (decodedState envs s req (last + 1)).tail⟩] else []) := by
  -- the budget does not allow the request to be still running after all of its steps
  obtain ⟨st, hrun | ⟨last, hreported⟩⟩ := exists_phase start hp hs answers
    (req.params.numBlocks * req.params.stepsPerBlock).toNat
  · have hlt := hrun.onQuota.toInBudget.stepsTaken_lt
    rw [hrun.steps, hrun.decoding.params] at hlt
    omega
  · have hlater : ∀ k, Reported envs s req
        ((req.params.numBlocks * req.params.stepsPerBlock).toNat + k) st last := by
      intro k
      induction k with
      | zero => exact hreported
      | succ k ih => exact ih.next
    have hreports : ∀ m, decodeReport envs s m =
        .ok (if m = last then [⟨req.reqId, st.tail⟩] else []) :=
      fun m => (hlater (m + 1)).reports m (by omega)
    refine ⟨last, hreported.intime, ?_⟩
    -- the report was made on the state that the request has right after it
    obtain ⟨st', hrun' | ⟨last', hreported'⟩⟩ := exists_phase start hp hs answers (last + 1)
    · have hsilent := hrun'.silent last (Nat.lt_succ_self last)
      rw [hreports last, if_pos rfl] at hsilent
      cases hsilent
    · rw [hreported'.decodedState_eq]
      have hsame := hreported'.reports last (Nat.lt_succ_self last)
      rw [hreports last, if_pos rfl, Except.ok.injEq] at hsame
      have htail : st.tail = st'.tail := by
        by_cases hlast : last = last'
        · rw [if_pos hlast] at hsame
          simpa using hsame
        · rw [if_neg hlast] at hsame
          cases hsame
      rw [← htail]
      exact ⟨hreported'.finished, hreports⟩

end

end Run

/-- How a request, alone on a scheduler, is decoded over the iterations:

* the sequence keeps its length and its prompt;
* revealed tokens stay, and an iteration changes positions of the current block only;
* the blocks before the current one hold no mask, the blocks after it nothing else;
* the request is reported exactly once, within its budget of steps, with the generated tokens,
  none of which is the mask. -/
def BlockDecoding (envs : ℕ → RunnerEnv F) (s : DiffusionScheduler) (req : DiffusionRequest) :
    Prop :=
  ∃ seq : ℕ → DiffusionRuntimeState,
    (∀ n, (decodeState envs (s.addRequest req) n).states req.reqId = some (seq n)) ∧
    (∀ n, ((seq n).x.length : ℤ) = req.inputTokenIds.length + req.params.genLength ∧
      (seq n).x.take req.inputTokenIds.length = req.inputTokenIds) ∧
    (∀ n, OneBlock req (seq n).blockIdx (seq n).x (seq (n + 1)).x) ∧
    (∀ n (j : ℕ), req.inputTokenIds.length ≤ j →
      (j : ℤ) < req.inputTokenIds.length + (seq n).blockIdx * req.params.blockLength →
      (seq n).x[j]? ≠ some req.params.maskId) ∧
    (∀ n (j : ℕ),
      req.inputTokenIds.length + ((seq n).blockIdx + 1) * req.params.blockLength ≤ (j : ℤ) →
      j < (seq n).x.length → (seq n).x[j]? = some req.params.maskId) ∧
    ∃ (last : ℕ) (tail : List ℤ),
      (last : ℤ) + 1 ≤ req.params.numBlocks * req.params.stepsPerBlock ∧
      (∀ n, decodeReport envs (s.addRequest req) n =
        .ok (if n = last then [⟨req.reqId, tail⟩] else [])) ∧
      tail = (seq (last + 1)).x.drop req.inputTokenIds.length ∧
      (tail.length : ℤ) = req.params.genLength ∧ req.params.maskId ∉ tail

/-- The condition for this: the batch has room, the refill loop stops at the end of the queue, and
the request can be stored. -/
structure DecodingCondition (s : DiffusionScheduler) (req : DiffusionRequest) : Prop
    extends Storable req where
  room : 1 ≤ s.maxBatchSize
  stops : s.poolInitialized = true ∨ s.maxBatchSize = 1

section Condition

variable {s : DiffusionScheduler} {req : DiffusionRequest} {envs : ℕ → RunnerEnv F}

theorem blockDecoding_of_condition (empty : s.waiting = [] ∧ s.running = [])
    (hp : Decodable req.params)
    (answers : ∀ n ctx, Answers req.params.maskId ((envs n).model ctx))
    (condition : DecodingCondition s req) : BlockDecoding envs s req := by
  have hs := condition.toStorable
  have start : Running envs (s.addRequest req) req 0 req.initialState :=
    Running.start (Alone.start empty condition.room condition.stops) hp hs
  have hall := decoding_decodedState start hp hs answers
  obtain ⟨last, hbudget, hfin, hreports⟩ := exists_report start hp hs answers
  have hlast := (hall (last + 1)).2.1
  obtain ⟨htail, hlength⟩ := hlast.tail_eq hp
  refine ⟨decodedState envs (s.addRequest req) req, fun n => (hall n).1, ?_,
    fun n => (hall n).2.2, ?_, ?_, last, _, by omega, hreports, ?_, hlength, ?_⟩
  · intro n
    have h := (hall n).2.1
    rw [h.length, h.totalLen, ← h.promptLen]
    exact ⟨rfl, h.promptLen ▸ h.prompt⟩
  · intro n j hprompt hj
    have h := (hall n).2.1
    rw [← h.promptLen] at hprompt hj
    exact h.earlier j hprompt hj
  · intro n j hj hlen
    have h := (hall n).2.1
    rw [← h.promptLen] at hj
    exact h.later j hj hlen
  · rw [htail, hlast.promptLen]
  · intro hmask
    rw [htail, List.mem_iff_getElem?] at hmask
    obtain ⟨i, hi⟩ := hmask
    rw [List.getElem?_drop] at hi
    exact hlast.no_mask_of_finished hp hfin (Nat.le_add_right _ i) hi

variable (req envs) in
/-- Without room the request waits for ever. -/
theorem decodeReport_of_full (empty : s.waiting = [] ∧ s.running = [])
    (full : s.maxBatchSize = 0) (n : ℕ) :
    decodeState envs (s.addRequest req) n = s.addRequest req ∧
      decodeReport envs (s.addRequest req) n = .ok [] := by
  have hactive : (s.addRequest req).hasActiveRequests = true := by
    simp [DiffusionScheduler.hasActiveRequests, DiffusionScheduler.addRequest]
  have hrefill : (s.addRequest req).ensureRunningCapacity = (.ok (), s.addRequest req) := by
    have hfull : (s.addRequest req).canAddMoreRequests = false := by
      rw [DiffusionScheduler.canAddMoreRequests_of_waiting (by
        simp [DiffusionScheduler.addRequest])]
      simp [DiffusionScheduler.addRequest, full]
    rw [DiffusionScheduler.ensureRunningCapacity_eq, hfull]
    rfl
  have hnone : (s.addRequest req).stepRequests = [] := by
    rw [DiffusionScheduler.stepRequests_eq]
    simp [DiffusionScheduler.addRequest, empty]
  have hstep : ∀ env : RunnerEnv F,
      diffusionStep env (s.addRequest req) = ⟨none, .ok [], s.addRequest req⟩ := by
    intro env
    unfold diffusionStep DiffusionScheduler.scheduleStep
    rw [hactive, hrefill]
    simp [hnone]
  have hstate : decodeState envs (s.addRequest req) n = s.addRequest req := by
    induction n with
    | zero => rfl
    | succ n ih => rw [decodeState, ih, hstep]
  exact ⟨hstate, by rw [decodeReport, hstate, hstep]⟩

variable (req envs) in
/-- Without an initialised pool the refill loop takes a second request from the empty queue. -/
theorem decodeReport_of_raises (empty : s.waiting = [] ∧ s.running = [])
    (room : 1 ≤ s.maxBatchSize)
    (stops : ¬ (s.poolInitialized = true ∨ s.maxBatchSize = 1)) :
    decodeReport envs (s.addRequest req) 0 = .error .indexError := by
  have hactive : (s.addRequest req).hasActiveRequests = true := by
    simp [DiffusionScheduler.hasActiveRequests, DiffusionScheduler.addRequest]
  have hfirst : (s.addRequest req).canAddMoreRequests = true := by
    rw [DiffusionScheduler.canAddMoreRequests_of_waiting (by
      simp [DiffusionScheduler.addRequest])]
    simp only [DiffusionScheduler.addRequest, empty, List.length_nil, decide_eq_true_eq]
    omega
  set t := DiffusionScheduler.startRunning { s.addRequest req with waiting := [] } req with ht
  have hpop : (s.addRequest req).popRequest =
      .ok (req, { s.addRequest req with waiting := [] }) := by
    simp [DiffusionScheduler.popRequest, DiffusionScheduler.addRequest, empty]
  have hrunning : t.running = [req.reqId] := by
    simp [ht, DiffusionScheduler.startRunning, DiffusionScheduler.addRequest, empty]
  have hsecond : t.canAddMoreRequests = true := by
    have hpool : t.poolInitialized = s.poolInitialized := rfl
    have hmax : t.maxBatchSize = s.maxBatchSize := rfl
    rw [not_or, Bool.not_eq_true] at stops
    rw [DiffusionScheduler.canAddMoreRequests_of_waiting_nil rfl, hpool, hmax, hrunning, stops.1]
    have := stops.2
    simp only [List.length_singleton, Bool.not_false, Bool.true_and, decide_eq_true_eq]
    omega
  have hrefill : (s.addRequest req).ensureRunningCapacity = (.error .indexError, t) := by
    rw [DiffusionScheduler.ensureRunningCapacity_eq, hfirst, hpop]
    simp only [if_true]
    rw [← ht, DiffusionScheduler.ensureRunningCapacity_eq, hsecond]
    rfl
  unfold decodeReport diffusionStep DiffusionScheduler.scheduleStep
  rw [show decodeState envs (s.addRequest req) 0 = s.addRequest req from rfl, hactive, hrefill]
  rfl

/-- A step that returns has stored the request, and keeps what is left of the length in 32
bits. -/
theorem storable_of_execute (hp : Decodable req.params) {env : RunnerEnv F}
    {up : DiffusionStepUpdate}
    (hexec : executeDiffusionOnce env ⟨[req.initialState.toStepRequest]⟩ = .ok [up])
    (hlength : (up.newX.length : ℤ) = req.inputTokenIds.length + req.params.genLength) :
    Storable req := by
  set r := req.initialState.toStepRequest with hr
  have hstep := (executeDiffusionOnce_single_isOk env r).mp ⟨_, hexec⟩
  obtain ⟨tokens, htokens⟩ := hstep.tokens
  have hgen := hp.gen
  have htotal : r.totalLen = req.inputTokenIds.length + req.params.genLength := rfl
  have hxlen : r.x.length = r.totalLen.toNat := by
    simp only [hr, DiffusionRuntimeState.toStepRequest, DiffusionRequest.initialState,
      List.length_append, List.length_replicate]
    omega
  have hrow := padRow_of_le r.params.maskId hstep.x_fits hxlen.le
  have hup := executeDiffusionOnce_single env hstep hrow htokens
  rw [hexec] at hup
  have hup : up = _ := List.singleton_inj.mp (Except.ok.inj hup)
  have hle : up.newX.length ≤ (MachineInt.narrow r.totalLen).toNat := by
    rw [hup, length_revealFirst env hstep.nonneg]
    exact (min_le_right _ _).trans (List.length_take_le _ _)
  have hnarrow := MachineInt.fits_narrow r.totalLen
  have hnonneg := hstep.length
  exact {
    short := by
      have := hnarrow.2
      omega
    prompt_fits := fun t ht => hstep.x_fits t (List.mem_append_left _ ht)
    maskId_fits := hstep.maskId_fits
    quotas_fit := Decodable.quotas_fit_of_requestTokens (r := r) hp htokens }

theorem condition_of_blockDecoding (empty : s.waiting = [] ∧ s.running = [])
    (hp : Decodable req.params) (h : BlockDecoding envs s req) : DecodingCondition s req := by
  obtain ⟨seq, hstates, hlengths, -, -, -, last, tail, -, hreports, -⟩ := h
  have room : 1 ≤ s.maxBatchSize := by
    by_contra hfull
    have hnever := (decodeReport_of_full req envs empty (by omega) last).2
    rw [hreports last, if_pos rfl] at hnever
    cases hnever
  have stops : s.poolInitialized = true ∨ s.maxBatchSize = 1 := by
    by_contra hstops
    have hraises := decodeReport_of_raises req envs empty room hstops
    rw [hreports 0] at hraises
    cases hraises
  have halone : Alone (s.addRequest req) req req.initialState := Alone.start empty room stops
  refine ⟨?_, room, stops⟩
  cases hexec : executeDiffusionOnce (envs 0) ⟨[req.initialState.toStepRequest]⟩ with
  | error e =>
    have hreport : decodeReport envs (s.addRequest req) 0 = .error e := by
      unfold decodeReport diffusionStep
      rw [show decodeState envs (s.addRequest req) 0 = s.addRequest req from rfl,
        halone.hasActiveRequests, halone.scheduleStep]
      simp [hexec]
    rw [hreports 0] at hreport
    cases hreport
  | ok updates =>
    obtain ⟨up, rfl, hid⟩ := executeDiffusionOnce_eq_ok hexec
    -- the sequence after the first iteration is the one that the step returned
    have hstate : (decodeState envs (s.addRequest req) 1).states req.reqId =
        some (req.initialState.advance up.newX) := by
      rcases diffusionStep_alone halone hexec hid with ⟨-, -, hnext⟩ | ⟨-, -, hnext⟩
      · exact hnext.state
      · exact hnext.state
    have hseq : (seq 1).x = up.newX := by
      rw [← Option.some.inj (hstate.symm.trans (hstates 1)), DiffusionRuntimeState.advance_x]
    refine storable_of_execute hp hexec ?_
    rw [← hseq]
    exact (hlengths 1).1

end Condition

/-- A request with decodable parameters, alone on a scheduler, is decoded block by block for any
answers of the model, if and only if the condition holds. -/
theorem block_decoding_iff (s : DiffusionScheduler) (req : DiffusionRequest)
    (envs : ℕ → RunnerEnv F) (empty : s.waiting = [] ∧ s.running = [])
    (hp : Decodable req.params)
    (answers : ∀ n ctx, Answers req.params.maskId ((envs n).model ctx)) :
    BlockDecoding envs s req ↔ DecodingCondition s req :=
  ⟨condition_of_blockDecoding empty hp, blockDecoding_of_condition empty hp answers⟩

theorem answers_constantEnv {token : Int64} {maskId : ℤ} (h : token.toInt ≠ maskId)
    (ctx : ForwardContext) : Answers maskId ((constantEnv token).model ctx) where
  proper := by
    intro v hv
    rw [List.eq_of_mem_replicate hv]
    exact h
  finite := by
    intro c hc
    rw [List.eq_of_mem_replicate hc]
    exact WithBot.coe_ne_bot

/-- Three tokens in three blocks, after a prompt that holds a mask itself. -/
theorem block_decoding_three_blocks :
    BlockDecoding (fun _ => constantEnv 7) ({ } : DiffusionScheduler)
      ⟨"r", [1, 126336], { steps := 3, genLength := 3, blockLength := 1 }⟩ :=
  (block_decoding_iff ({ } : DiffusionScheduler)
    ⟨"r", [1, 126336], { steps := 3, genLength := 3, blockLength := 1 }⟩
    (fun _ => constantEnv 7) ⟨rfl, rfl⟩ ⟨by decide, by decide, by decide, by decide, rfl⟩
    fun _ => answers_constantEnv (by decide)).mpr
      ⟨⟨by decide, by decide, by decide, by decide⟩, le_rfl, .inr rfl⟩

/-- A scheduler without a runner raises on its only request, and with an initialised pool the first
step raises when the sequence has `2 ^ 31` tokens or more. -/
theorem block_decoding_fails :
    (Decodable { steps := 1, genLength := 1, blockLength := 1 } ∧
      ¬ BlockDecoding (fun _ => constantEnv 7) ({ maxBatchSize := 999 } : DiffusionScheduler)
        ⟨"r", [1], { steps := 1, genLength := 1, blockLength := 1 }⟩) ∧
    Decodable { steps := 1, genLength := 2 ^ 31, blockLength := 2 ^ 31 } ∧
      ¬ BlockDecoding (fun _ => constantEnv 7)
        ({ maxBatchSize := 999, modelRunner := some ⟨some ⟨true⟩⟩ } : DiffusionScheduler)
        ⟨"r", [1], { steps := 1, genLength := 2 ^ 31, blockLength := 2 ^ 31 }⟩ := by
  have hone : Decodable { steps := 1, genLength := 1, blockLength := 1 } :=
    ⟨by decide, by decide, by decide, by decide, rfl⟩
  have hlong : Decodable { steps := 1, genLength := 2 ^ 31, blockLength := 2 ^ 31 } :=
    ⟨by decide, by decide, by decide, by decide, rfl⟩
  refine ⟨⟨hone, ?_⟩, hlong, ?_⟩
  · intro h
    exact absurd (condition_of_blockDecoding ⟨rfl, rfl⟩ hone h).stops (by decide)
  · intro h
    exact absurd (condition_of_blockDecoding ⟨rfl, rfl⟩ hlong h).short (by decide)

end Diffusion
