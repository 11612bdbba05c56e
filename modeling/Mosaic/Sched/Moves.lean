import Mosaic.Sched.Update
import Mathlib.Logic.Relation

/-!
# Moves of a scheduling call

A call that returns is a sequence of moves, first of the running requests and then of the waiting
ones. Invariants are proved of the moves. What an update does with a request is a move, too.
-/

namespace Sched

open Fallible Function Except Prod

open Relation (ReflTransGen)

variable {env : Kv.HashEnv} {ext : External} {st st' : ScheduleState} {r : Request}

/-! ### Requests under their ids -/

/-- Requests are stored under their ids. -/
def Scheduler.Labelled (s : Scheduler) : Prop :=
  ∀ id r, s.requests id = some r → r.requestId = id

theorem Scheduler.Labelled.setRequest {s : Scheduler} (h : s.Labelled) (r : Request) :
    (s.setRequest r).Labelled := by
  intro id r' hr'
  by_cases hid : id = r.requestId
  · subst hid
    obtain rfl : r = r' := by simpa [Scheduler.setRequest] using hr'
    rfl
  · apply h
    simpa [Scheduler.setRequest, hid] using hr'

/-! ### Running requests -/

/-- The allocation of slots for a running request. -/
def ScheduleState.runningSlots (env : Kv.HashEnv) (st : ScheduleState) (r : Request) (n : ℤ) :
    Except Kv.KvError (Kv.KVCacheManager × Option (List (List ℕ))) :=
  st.scheduler.kvCacheManager.allocateSlotsInt env r.toKv n 0
    st.scheduler.kvCacheManager.createEmptyBlockList st.scheduler.config.numLookaheadTokens false

/-- There are no slots for `r`, and a victim is preempted. -/
inductive Preempts (env : Kv.HashEnv) (r : Request) (n : ℤ) (st : ScheduleState) :
    String → ScheduleState → Prop where
  | mk {v : Request} {kv kv' : Kv.KVCacheManager} {running : List String}
      {waiting : RequestQueue} (slots : st.runningSlots env r n = .ok (kv, none))
      (victim : st.scheduler.popVictim = .ok (v.requestId, running))
      (known : st.scheduler.requests v.requestId = some v)
      (freed : kv.free v.requestId = .ok kv')
      (queued : st.scheduler.waiting.prependRequest v.preempted = .ok waiting) :
      Preempts env r n st v.requestId (st.afterPreemption v running waiting kv')

/-- Other requests are preempted for `r`. -/
def PreemptsOthers (env : Kv.HashEnv) (r : Request) (n : ℤ) :
    ScheduleState → ScheduleState → Prop :=
  ReflTransGen fun st st' => ∃ victim, victim ≠ r.requestId ∧ Preempts env r n st victim st'

theorem preempts_of_eq_ok {n : ℤ} {kv : Kv.KVCacheManager} {victim : String}
    (hs : st.scheduler.Labelled) (slots : st.runningSlots env r n = .ok (kv, none))
    (hok : (st.setKv kv).preemptOne = .ok (victim, st')) : Preempts env r n st victim st' := by
  obtain ⟨⟨victim₁, _⟩, hvictim, hok⟩ := bind_eq_ok.mp hok
  obtain ⟨v, hv, hok⟩ := bind_eq_ok.mp hok
  obtain ⟨_, hfree, hok⟩ := bind_eq_ok.mp hok
  obtain ⟨_, hwait, hok⟩ := bind_eq_ok.mp hok
  obtain ⟨rfl, rfl⟩ := mk.inj (ok.inj hok)
  have hknown : st.scheduler.requests victim₁ = some v := Scheduler.request_eq_ok.mp hv
  obtain rfl := hs victim₁ v hknown
  exact .mk slots hvictim hknown (liftKv_eq_ok.mp hfree) hwait

theorem Preempts.labelled {n : ℤ} {victim : String} (h : Preempts env r n st victim st')
    (hs : st.scheduler.Labelled) : st'.scheduler.Labelled := by
  cases h with
  | mk _ _ _ _ _ => exact Scheduler.Labelled.setRequest (s := st.scheduler) hs _

theorem PreemptsOthers.labelled {n : ℤ} (h : PreemptsOthers env r n st st')
    (hs : st.scheduler.Labelled) : st'.scheduler.Labelled := by
  induction h with
  | refl => exact hs
  | tail _ hlast ih =>
    obtain ⟨_, -, hlast⟩ := hlast
    exact hlast.labelled ih

theorem allocateOrPreempt_eq_ok {n : ℤ} {fuel : ℕ} {result : Option (List (List ℕ))}
    (hs : st.scheduler.Labelled)
    (hok : ScheduleState.allocateOrPreempt env r n fuel st = .ok (st', result)) :
    ∃ st₁, PreemptsOthers env r n st st₁ ∧
      ((∃ kv newBlocks, result = some newBlocks ∧
          st₁.runningSlots env r n = .ok (kv, some newBlocks) ∧ st' = st₁.setKv kv) ∨
        (result = none ∧ Preempts env r n st₁ r.requestId st')) := by
  induction fuel generalizing st with
  | zero => cases hok
  | succ fuel ih =>
    obtain ⟨⟨kv, newBlocks⟩, hslots, hok⟩ := bind_eq_ok.mp hok
    rw [liftKv_eq_ok] at hslots
    cases newBlocks with
    | some newBlocks =>
      cases hok
      exact ⟨st, .refl, .inl ⟨kv, newBlocks, rfl, hslots, rfl⟩⟩
    | none =>
      obtain ⟨⟨victim, st₁⟩, hpreempt, hok⟩ := bind_eq_ok.mp hok
      dsimp only at hok
      split at hok
      · rename_i hself
        cases hok
        exact ⟨st, .refl, .inr ⟨rfl, hself ▸ preempts_of_eq_ok hs hslots hpreempt⟩⟩
      · rename_i hother
        have hpreempts := preempts_of_eq_ok hs hslots hpreempt
        obtain ⟨st₂, hothers, hlast⟩ := ih (hpreempts.labelled hs) hok
        exact ⟨st₂, .head ⟨victim, hother, hpreempts⟩ hothers, hlast⟩

/-- The request at the index of the loop, while there are tokens left. -/
structure Current (st : ScheduleState) (r : Request) : Prop where
  budget : 0 < st.tokenBudget
  index : st.scheduler.running[st.reqIndex]? = some r.requestId
  known : st.scheduler.requests r.requestId = some r

/-- A round of the loop over the running requests: nothing is scheduled for the current request,
or it is scheduled after others were preempted, or it is itself preempted in the end. -/
inductive RunningMove (env : Kv.HashEnv) (st : ScheduleState) : ScheduleState → Prop where
  | pass {r : Request} {inputs : List ℕ} {newEncoderBudget : ℤ} (current : Current st r)
      (plan : st.planRunning r = .ok (inputs, 0, newEncoderBudget)) :
      RunningMove env st { st with reqIndex := st.reqIndex + 1 }
  | schedule {st₁ st' : ScheduleState} {r : Request} {inputs : List ℕ} {n newEncoderBudget : ℤ}
      {kv : Kv.KVCacheManager} {newBlocks : List (List ℕ)} (current : Current st r)
      (plan : st.planRunning r = .ok (inputs, n, newEncoderBudget)) (nonzero : n ≠ 0)
      (others : PreemptsOthers env r n st st₁)
      (slots : st₁.runningSlots env r n = .ok (kv, some newBlocks))
      (scheduled : (st₁.setKv kv).scheduleRunning r newBlocks inputs n newEncoderBudget =
        .ok st') :
      RunningMove env st st'
  | giveUp {st₁ st' : ScheduleState} {r : Request} {inputs : List ℕ} {n newEncoderBudget : ℤ}
      (current : Current st r) (plan : st.planRunning r = .ok (inputs, n, newEncoderBudget))
      (nonzero : n ≠ 0) (others : PreemptsOthers env r n st st₁)
      (itself : Preempts env r n st₁ r.requestId st') :
      RunningMove env st st'

abbrev RunningMoves (env : Kv.HashEnv) : ScheduleState → ScheduleState → Prop :=
  ReflTransGen (RunningMove env)

theorem scheduleRunning_eq_ok {newBlocks : List (List ℕ)} {inputs : List ℕ}
    {n newEncoderBudget : ℤ}
    (hok : st.scheduleRunning r newBlocks inputs n newEncoderBudget = .ok st') :
    ∃ encoder, ScheduleState.allocateEncoderInputs st.scheduler.encoderCacheManager r inputs =
        .ok encoder ∧
      st' = st.scheduledRunning r newBlocks inputs n newEncoderBudget encoder := by
  obtain ⟨encoder, henc, hok⟩ := bind_eq_ok.mp hok
  exact ⟨encoder, henc, (ok.inj hok).symm⟩

@[simp] theorem trimSpec_requestId (r : Request) (n : ℤ) :
    (ScheduleState.trimSpec r n).requestId = r.requestId := by
  unfold ScheduleState.trimSpec
  split <;> rfl

theorem RunningMove.labelled (h : RunningMove env st st') (hs : st.scheduler.Labelled) :
    st'.scheduler.Labelled := by
  cases h with
  | pass _ _ => exact hs
  | schedule _ _ _ others _ scheduled =>
    obtain ⟨_, -, rfl⟩ := scheduleRunning_eq_ok scheduled
    exact (others.labelled hs).setRequest _
  | giveUp _ _ _ others itself => exact itself.labelled (others.labelled hs)

section

variable {goOn : Bool} (hs : st.scheduler.Labelled) (current : Current st r)
  (hok : st.runningStep env r.requestId = .ok (st', goOn))
include hs current hok

/-- A round goes on unless the current request is itself preempted. -/
theorem runningStep_cases : (goOn = true ∧ ∃ inputs newEncoderBudget,
      st.planRunning r = .ok (inputs, 0, newEncoderBudget) ∧
      st' = { st with reqIndex := st.reqIndex + 1 }) ∨
    ∃ inputs n newEncoderBudget st₁, st.planRunning r = .ok (inputs, n, newEncoderBudget) ∧
      n ≠ 0 ∧ PreemptsOthers env r n st st₁ ∧
      ((goOn = true ∧ ∃ kv newBlocks, st₁.runningSlots env r n = .ok (kv, some newBlocks) ∧
          (st₁.setKv kv).scheduleRunning r newBlocks inputs n newEncoderBudget = .ok st') ∨
        (goOn = false ∧ Preempts env r n st₁ r.requestId st')) := by
  obtain ⟨_, hr, hrest⟩ := bind_eq_ok.mp hok
  cases current.known.symm.trans (Scheduler.request_eq_ok.mp hr)
  obtain ⟨⟨inputs, n, newEncoderBudget⟩, hplan, hok⟩ := bind_eq_ok.mp hrest
  dsimp only at hok
  split at hok
  · rename_i hzero
    cases hok
    exact .inl ⟨rfl, inputs, newEncoderBudget, hzero ▸ hplan, rfl⟩
  · rename_i hnonzero
    obtain ⟨⟨_, newBlocks⟩, halloc, hok⟩ := bind_eq_ok.mp hok
    obtain ⟨st₁, hothers, hlast⟩ := allocateOrPreempt_eq_ok hs halloc
    refine .inr ⟨inputs, n, newEncoderBudget, st₁, hplan, hnonzero, hothers, ?_⟩
    obtain ⟨kv, newBlocks, rfl, hslots, rfl⟩ | ⟨rfl, hself⟩ := hlast
    · obtain ⟨_, hsched, hok⟩ := bind_eq_ok.mp hok
      cases hok
      exact .inl ⟨rfl, kv, newBlocks, hslots, hsched⟩
    · cases hok
      exact .inr ⟨rfl, hself⟩

theorem runningStep_move : RunningMove env st st' := by
  obtain ⟨-, inputs, budget, hplan, rfl⟩ | ⟨inputs, _, budget, _, hplan, hnonzero, hothers,
    ⟨-, _, _, hslots, hsched⟩ | ⟨-, hself⟩⟩ := runningStep_cases hs current hok
  · exact .pass current hplan
  · exact .schedule current hplan hnonzero hothers hslots hsched
  · exact .giveUp current hplan hnonzero hothers hself

end

/-- A round that returns is for a request that is known. -/
theorem runningStep_eq_ok {id : String} {goOn : Bool} (hs : st.scheduler.Labelled)
    (budget : 0 < st.tokenBudget) (index : st.scheduler.running[st.reqIndex]? = some id)
    (hok : st.runningStep env id = .ok (st', goOn)) :
    ∃ r, r.requestId = id ∧ Current st r ∧ RunningMove env st st' := by
  obtain ⟨r, hr, -⟩ := bind_eq_ok.mp hok
  have hknown := Scheduler.request_eq_ok.mp hr
  obtain rfl := hs id r hknown
  have hcurrent : Current st r := ⟨budget, index, hknown⟩
  exact ⟨r, rfl, hcurrent, runningStep_move hs hcurrent hok⟩

theorem runningMoves_of_eq_ok {fuel : ℕ} (hs : st.scheduler.Labelled)
    (hok : ScheduleState.runningLoop env fuel st = .ok st') : RunningMoves env st st' := by
  induction fuel generalizing st with
  | zero =>
    cases hok
    exact .refl
  | succ fuel ih =>
    unfold ScheduleState.runningLoop at hok
    split at hok
    · cases hok
      exact .refl
    · rename_i hbudget
      split at hok
      · cases hok
        exact .refl
      · rename_i id hid
        obtain ⟨⟨_, _⟩, hstep, hok⟩ := bind_eq_ok.mp hok
        obtain ⟨-, -, -, hmove⟩ := runningStep_eq_ok hs (not_le.mp hbudget) hid hstep
        dsimp only at hok
        split at hok
        · exact .head hmove (ih (hmove.labelled hs) hok)
        · cases hok
          exact .single hmove

/-- The requests that the loop has gone over, and whether it goes on. -/
inductive Rounds (env : Kv.HashEnv) (s : Scheduler) :
    List String → ScheduleState → Bool → Prop where
  | start : Rounds env s [] s.startSchedule true
  | round {ids : List String} {st st' : ScheduleState} {r : Request} {goOn : Bool}
      (before : Rounds env s ids st true) (current : Current st r)
      (step : st.runningStep env r.requestId = .ok (st', goOn)) :
      Rounds env s (ids ++ [r.requestId]) st' goOn

section Rounds

variable {s : Scheduler} {ids : List String} {goOn : Bool}

theorem Rounds.labelled_moves (h : Rounds env s ids st goOn) (hs : s.Labelled) :
    st.scheduler.Labelled ∧ RunningMoves env s.startSchedule st := by
  induction h with
  | start => exact ⟨hs, .refl⟩
  | round before current step ih =>
    obtain ⟨hlabelled, hmoves⟩ := ih
    have hmove := runningStep_move hlabelled current step
    exact ⟨hmove.labelled hlabelled, hmoves.tail hmove⟩

theorem rounds_of_runningLoop {fuel : ℕ} (hs : s.Labelled) (h : Rounds env s ids st true)
    (hok : st.runningLoop env fuel = .ok st') :
    ∃ ids' goOn, Rounds env s ids' st' goOn ∧ (goOn = false ∨ st'.tokenBudget ≤ 0 ∨
      st'.scheduler.running[st'.reqIndex]? = none ∨ ids'.length = ids.length + fuel) := by
  induction fuel generalizing ids st with
  | zero =>
    cases hok
    exact ⟨ids, true, h, .inr (.inr (.inr rfl))⟩
  | succ fuel ih =>
    unfold ScheduleState.runningLoop at hok
    split at hok
    · rename_i hbudget
      cases hok
      exact ⟨ids, true, h, .inr (.inl hbudget)⟩
    · rename_i hbudget
      split at hok
      · rename_i hnone
        cases hok
        exact ⟨ids, true, h, .inr (.inr (.inl hnone))⟩
      · rename_i id hid
        obtain ⟨⟨_, goOn⟩, hstep, hrest⟩ := bind_eq_ok.mp hok
        obtain ⟨_, rfl, hcurrent, -⟩ :=
          runningStep_eq_ok (h.labelled_moves hs).1 (not_le.mp hbudget) hid hstep
        have hround := Rounds.round h hcurrent hstep
        dsimp only at hrest
        split at hrest
        · rename_i hgoOn
          subst hgoOn
          obtain ⟨ids', goOn', hrounds, hend⟩ := ih hround hrest
          refine ⟨ids', goOn', hrounds, hend.imp_right (.imp_right (.imp_right fun heq => ?_))⟩
          rw [heq, List.length_append, List.length_singleton]
          omega
        · rename_i hstop
          cases hrest
          exact ⟨_, goOn, hround, .inl (by simpa using hstop)⟩

end Rounds

/-! ### Waiting requests -/

/-- The first waiting request, while there are tokens and places left. -/
structure Front (st : ScheduleState) (r : Request) : Prop where
  budget : 0 < st.tokenBudget
  room : st.scheduler.running.length ≠ st.scheduler.config.maxNumRunningReqs
  first : st.scheduler.waiting.peekRequest = .ok r.requestId
  known : st.scheduler.requests r.requestId = some r

/-- The allocation of slots for a waiting request. -/
def ScheduleState.waitingSlots (env : Kv.HashEnv) (st : ScheduleState) (r : Request)
    (found : ScheduleState.ComputedTokens) (n : ℤ) :
    Except Kv.KvError (Kv.KVCacheManager × Option (List (List ℕ))) :=
  found.kv.allocateSlotsInt env r.toKv (n + found.numExternalComputedTokens)
    found.numNewLocalComputedTokens found.newComputedBlocks (st.effectiveLookaheadTokens r)
    found.loadKvAsync

/-- Why a request is put aside. -/
inductive Skipped (env : Kv.HashEnv) (ext : External) (st : ScheduleState) (r : Request) :
    Prop where
  | remote (status : r.status = .waitingForRemoteKvs)
      (pending : r.requestId ∉ st.scheduler.finishedRecvingKvReqIds)
  | grammar (status : r.status = .waitingForFsm) (pending : ext.grammarReady r.requestId = false)
  | lora (full : st.loraGate r = false)
  | tooLong (chunked : st.scheduler.config.chunkedPrefillEnabled = false)
      (found : ScheduleState.ComputedTokens)
      (long : st.tokenBudget <
        st.scheduler.config.clipLongPrefill (r.numTokens - found.numComputedTokens))

/-- What is done with the first waiting request. -/
inductive WaitingMove (env : Kv.HashEnv) (ext : External) (st : ScheduleState) :
    ScheduleState → Prop where
  /-- Its blocks were loaded. -/
  | remoteReady {r r' : Request} {s : Scheduler} (front : Front st r)
      (status : r.status = .waitingForRemoteKvs)
      (received : r.requestId ∈ st.scheduler.finishedRecvingKvReqIds)
      (ready : ScheduleState.remoteReady env st.scheduler r = .ok (s, r')) :
      WaitingMove env ext st (st.setScheduler s)
  | grammarReady {r : Request} (front : Front st r) (status : r.status = .waitingForFsm) :
      WaitingMove env ext st
        (st.setScheduler (st.scheduler.setRequest { r with status := .waiting }))
  /-- Its tokens were looked up in the cache. -/
  | look {r : Request} {found : ScheduleState.ComputedTokens} (front : Front st r)
      (looked : ScheduleState.findComputedTokens env ext st.scheduler r = .ok found) :
      WaitingMove env ext st (st.setKv found.kv)
  | skip {r : Request} {waiting skipped : RequestQueue} (front : Front st r)
      (reason : Skipped env ext st r)
      (popped : st.scheduler.waiting.popRequest = .ok (r.requestId, waiting))
      (aside : st.skippedWaitingRequests.prependRequest r = .ok skipped) :
      WaitingMove env ext st (st.putAside waiting skipped)
  /-- There are no slots for it. -/
  | noSlots {r : Request} {found : ScheduleState.ComputedTokens} {kv : Kv.KVCacheManager}
      {inputs : List ℕ} {n newEncoderBudget : ℤ} (front : Front st r)
      (looked : ScheduleState.findComputedTokens env ext st.scheduler r = .ok found)
      (plan : (st.setKv found.kv).planWaiting r found =
        .ok (.schedule inputs n newEncoderBudget))
      (slots : st.waitingSlots env r found n = .ok (kv, none)) :
      WaitingMove env ext st (st.setKv kv)
  | startRemoteLoad {r : Request} {found : ScheduleState.ComputedTokens}
      {kv : Kv.KVCacheManager} {newBlocks : List (List ℕ)} {waiting skipped : RequestQueue}
      {inputs : List ℕ} {n newEncoderBudget : ℤ} (front : Front st r)
      (looked : ScheduleState.findComputedTokens env ext st.scheduler r = .ok found)
      (plan : (st.setKv found.kv).planWaiting r found =
        .ok (.schedule inputs n newEncoderBudget))
      (slots : st.waitingSlots env r found n = .ok (kv, some newBlocks))
      (async : found.loadKvAsync = true)
      (popped : st.scheduler.waiting.popRequest = .ok (r.requestId, waiting))
      (aside : st.skippedWaitingRequests.prependRequest r = .ok skipped) :
      WaitingMove env ext st
        (((st.setKv kv).setScheduler ((st.setKv kv).scheduler.setRequest
          { r with status := .waitingForRemoteKvs })).putAside waiting skipped)
  | admits {r : Request} {found : ScheduleState.ComputedTokens} {kv : Kv.KVCacheManager}
      {newBlocks : List (List ℕ)} {waiting : RequestQueue} {encoder : EncoderCacheManager}
      {inputs : List ℕ} {n newEncoderBudget : ℤ} (front : Front st r)
      (status : r.status = .waiting ∨ r.status = .preempted) (lora : st.loraGate r = true)
      (looked : ScheduleState.findComputedTokens env ext st.scheduler r = .ok found)
      (plan : (st.setKv found.kv).planWaiting r found =
        .ok (.schedule inputs n newEncoderBudget))
      (slots : st.waitingSlots env r found n = .ok (kv, some newBlocks))
      (sync : found.loadKvAsync = false)
      (popped : st.scheduler.waiting.popRequest = .ok (r.requestId, waiting))
      (encoded : ScheduleState.allocateEncoderInputs st.scheduler.encoderCacheManager r inputs =
        .ok encoder) :
      WaitingMove env ext st
        ((st.setKv kv).admitted r found inputs n newEncoderBudget waiting encoder)

/-- The states in which the loop over the waiting requests looks at the first one. -/
inductive Looking (env : Kv.HashEnv) (ext : External) (s : Scheduler) : ScheduleState → Prop where
  | start {st₁ st₂ : ScheduleState}
      (loop : s.startSchedule.runningLoop env s.running.length = .ok st₁)
      (loras : st₁.recordLoras = .ok st₂) (noneLeft : st₂.preemptedReqs = []) :
      Looking env ext s st₂
  | round {st st' : ScheduleState} (before : Looking env ext s st) (budget : 0 < st.tokenBudget)
      (room : st.scheduler.running.length ≠ st.scheduler.config.maxNumRunningReqs)
      (step : st.waitingStep env ext = .ok (st', true)) : Looking env ext s st'

/-- The first waiting request passes all gates in a round, and the state when it has done so. -/
inductive Considered (env : Kv.HashEnv) (ext : External) (s : Scheduler) :
    ScheduleState → Request → Prop where
  | passed {st : ScheduleState} {r₀ r₁ r : Request} {s₁ s₂ : Scheduler}
      (looking : Looking env ext s st) (front : Front st r₀)
      (remote : ScheduleState.remoteGate env st.scheduler r₀ = .ok (s₁, r₁, true))
      (fsm : ScheduleState.fsmGate ext s₁ r₁ = (s₂, r, true))
      (lora : (st.setScheduler s₂).loraGate r = true) :
      Considered env ext s (st.setScheduler s₂) r

/-- A move of a call, which admits only requests that have passed the gates. -/
structure CallMove (env : Kv.HashEnv) (ext : External) (s : Scheduler) (st st' : ScheduleState) :
    Prop where
  move : WaitingMove env ext st st'
  considered : st'.scheduler.running ≠ st.scheduler.running →
    ∀ r, Front st r → Considered env ext s st r

abbrev WaitingMoves (env : Kv.HashEnv) (ext : External) (s : Scheduler) :
    ScheduleState → ScheduleState → Prop :=
  ReflTransGen (CallMove env ext s)

section Waiting

variable {s₀ : Scheduler} {goOn : Bool}

theorem Front.unique {r' : Request} (front : Front st r) (front' : Front st r') : r' = r := by
  have hid : r.requestId = r'.requestId := ok.inj (front.first.symm.trans front'.first)
  have hknown := front'.known
  rw [← hid, front.known] at hknown
  exact (Option.some.inj hknown).symm

/-- A move that admits no request. -/
theorem WaitingMove.call (h : WaitingMove env ext st st')
    (running : st'.scheduler.running = st.scheduler.running) : CallMove env ext s₀ st st' :=
  ⟨h, fun hne => absurd running hne⟩

theorem popRequest_eq_ok {id : String} {waiting : RequestQueue} (front : Front st r)
    (hpop : st.scheduler.waiting.popRequest = .ok (id, waiting)) :
    st.scheduler.waiting.popRequest = .ok (r.requestId, waiting) := by
  have hfirst := (RequestQueue.perm_popRequest hpop).1
  rw [front.first] at hfirst
  rw [hpop, ok.inj hfirst]

theorem skip_eq_ok (front : Front st r) (reason : Skipped env ext st r)
    (hok : st.skip r = .ok st') : CallMove env ext s₀ st st' := by
  obtain ⟨⟨_, _⟩, hpop, hok⟩ := bind_eq_ok.mp hok
  obtain ⟨_, haside, hok⟩ := bind_eq_ok.mp hok
  cases hok
  exact (WaitingMove.skip front reason (popRequest_eq_ok front hpop) haside).call rfl

theorem tryAdmit_eq_ok {found : ScheduleState.ComputedTokens} {inputs : List ℕ}
    {n newEncoderBudget : ℤ} (front : Front st r) (lora : st.loraGate r = true)
    (looked : ScheduleState.findComputedTokens env ext st.scheduler r = .ok found)
    (plan : (st.setKv found.kv).planWaiting r found = .ok (.schedule inputs n newEncoderBudget))
    (hok : st.tryAdmit env r found inputs n newEncoderBudget = .ok (st', goOn)) :
    WaitingMove env ext st st' := by
  obtain ⟨⟨kv, newBlocks⟩, hslots, hok⟩ := bind_eq_ok.mp hok
  rw [liftKv_eq_ok] at hslots
  cases newBlocks with
  | none =>
    cases hok
    exact .noSlots front looked plan hslots
  | some newBlocks =>
    dsimp only at hok
    split at hok
    · rename_i hasync
      obtain ⟨st₁, hstart, hok⟩ := bind_eq_ok.mp hok
      cases hok
      obtain ⟨⟨id, waiting⟩, hpop, hstart⟩ := bind_eq_ok.mp hstart
      obtain ⟨_, haside, hstart⟩ := bind_eq_ok.mp hstart
      cases hstart
      exact .startRemoteLoad front looked plan hslots hasync (popRequest_eq_ok front hpop) haside
    · rename_i hsync
      obtain ⟨st₁, hadmitted, hok⟩ := bind_eq_ok.mp hok
      cases hok
      obtain ⟨⟨id, waiting⟩, hpop, hadmitted⟩ := bind_eq_ok.mp hadmitted
      dsimp only at hadmitted
      split at hadmitted
      · cases hadmitted
      · rename_i hstatus
        obtain ⟨_, henc, hadmitted⟩ := bind_eq_ok.mp hadmitted
        cases hadmitted
        rw [not_and_or, not_not, not_not] at hstatus
        exact .admits front hstatus lora looked plan hslots (by simpa using hsync)
          (popRequest_eq_ok front hpop) henc

theorem Front.setKv (front : Front st r) (kv : Kv.KVCacheManager) : Front (st.setKv kv) r :=
  ⟨front.budget, front.room, front.first, front.known⟩

theorem planWaiting_eq_skip {found : ScheduleState.ComputedTokens}
    (hok : st.planWaiting r found = .ok .skip) :
    st.scheduler.config.chunkedPrefillEnabled = false ∧ st.tokenBudget <
      st.scheduler.config.clipLongPrefill (r.numTokens - found.numComputedTokens) := by
  unfold ScheduleState.planWaiting at hok
  dsimp only at hok
  split at hok
  · split at hok
    · cases hok
    · cases hok
  · split at hok
    · rename_i htooLong
      exact htooLong
    · split at hok
      · cases hok
      · split at hok
        · split at hok
          · cases hok
          · split at hok
            · cases hok
            · cases hok
        · cases hok

theorem considerWaiting_eq_ok (front : Front st r) (lora : st.loraGate r = true)
    (considered : Considered env ext s₀ st r)
    (hok : st.considerWaiting env ext r = .ok (st', goOn)) : WaitingMoves env ext s₀ st st' := by
  obtain ⟨found, hlooked, hok⟩ := bind_eq_ok.mp hok
  obtain ⟨plan, hplan, hok⟩ := bind_eq_ok.mp hok
  cases plan with
  | skip =>
    obtain ⟨_, hskip, hok⟩ := bind_eq_ok.mp hok
    cases hok
    obtain ⟨hchunked, hlong⟩ := planWaiting_eq_skip hplan
    exact .head ((WaitingMove.look front hlooked).call rfl)
      (.single (skip_eq_ok (front.setKv _) (.tooLong hchunked found hlong) hskip))
  | stop =>
    cases hok
    exact .single ((WaitingMove.look front hlooked).call rfl)
  | schedule inputs n newEncoderBudget =>
    refine .single ⟨tryAdmit_eq_ok front lora hlooked hplan hok, fun _ r' front' => ?_⟩
    rw [front.unique front']
    exact considered

/-- The request that passes the gate for grammars, after it was told so. -/
theorem fsmGate_cases (env : Kv.HashEnv) (ext : External) (s₀ : Scheduler) (front : Front st r) :
    ((ScheduleState.fsmGate ext st.scheduler r).2.2 = true ∧
      WaitingMoves env ext s₀ st (st.setScheduler (ScheduleState.fsmGate ext st.scheduler r).1) ∧
      Front (st.setScheduler (ScheduleState.fsmGate ext st.scheduler r).1)
        (ScheduleState.fsmGate ext st.scheduler r).2.1) ∨
    (ScheduleState.fsmGate ext st.scheduler r = (st.scheduler, r, false) ∧
      r.status = .waitingForFsm ∧ ext.grammarReady r.requestId = false) := by
  unfold ScheduleState.fsmGate
  split
  · exact .inl ⟨rfl, .refl, front⟩
  · rename_i hstatus
    rw [not_not] at hstatus
    split
    · refine .inl ⟨rfl, .single ((WaitingMove.grammarReady front hstatus).call rfl), ?_⟩
      exact ⟨front.budget, front.room, front.first, by simp [ScheduleState.setScheduler,
        Scheduler.setRequest]⟩
    · rename_i hpending
      exact .inr ⟨rfl, hstatus, by simpa using hpending⟩

theorem passGates_eq_ok (front : Front st r)
    (considered : ∀ s r', ScheduleState.fsmGate ext st.scheduler r = (s, r', true) →
      (st.setScheduler s).loraGate r' = true → Considered env ext s₀ (st.setScheduler s) r')
    (hok : st.passGates env ext r = .ok (st', goOn)) : WaitingMoves env ext s₀ st st' := by
  unfold ScheduleState.passGates at hok
  obtain ⟨hopen, hmoves, hfront⟩ | ⟨hclosed, hstatus, hpending⟩ :=
    fsmGate_cases env ext s₀ front
  · generalize ScheduleState.fsmGate ext st.scheduler r = gate
      at hok hopen hmoves hfront considered
    obtain ⟨_, _, _⟩ := gate
    dsimp only at hok hopen hmoves hfront
    subst hopen
    split at hok
    · rename_i hlora
      rw [Bool.true_and] at hlora
      exact hmoves.trans
        (considerWaiting_eq_ok hfront hlora (considered _ _ rfl hlora) hok)
    · rename_i hlora
      obtain ⟨st₁, hskip, hok⟩ := bind_eq_ok.mp hok
      cases hok
      exact hmoves.tail (skip_eq_ok hfront (.lora (by simpa using hlora)) hskip)
  · rw [hclosed] at hok
    obtain ⟨st₁, hskip, hok⟩ := bind_eq_ok.mp hok
    cases hok
    exact .single (skip_eq_ok front (.grammar hstatus hpending) hskip)

theorem remoteReady_eq_ok {s s' : Scheduler} {r r' : Request}
    (hok : ScheduleState.remoteReady env s r = .ok (s', r')) :
    ∃ kv, s.kvCacheManager.numKvCacheGroups = 1 ∧
      s.kvCacheManager.cacheRequestBlocks env r.toKv (ScheduleState.numLoadedTokens s r) =
        .ok kv ∧
      r' = { r with
        numComputedTokens := ScheduleState.numLoadedTokens s r, status := .waiting } ∧
      s' = { s.setRequest r' with
        kvCacheManager := kv
        finishedRecvingKvReqIds := s.finishedRecvingKvReqIds.erase r.requestId } := by
  unfold ScheduleState.remoteReady at hok
  split at hok
  · cases hok
  · rename_i hgroups
    obtain ⟨kv, hkv, hok⟩ := bind_eq_ok.mp hok
    cases hok
    exact ⟨kv, not_not.mp hgroups, liftKv_eq_ok.mp hkv, rfl, rfl⟩

/-- The gate for remote blocks leaves a request alone, or opens when its blocks were loaded, or
stays closed. -/
theorem remoteGate_eq_ok (ext : External) (s₀ : Scheduler) {s : Scheduler} {r' : Request}
    {isOpen : Bool} (front : Front st r)
    (hok : ScheduleState.remoteGate env st.scheduler r = .ok (s, r', isOpen)) :
    (isOpen = true ∧ WaitingMoves env ext s₀ st (st.setScheduler s) ∧
      Front (st.setScheduler s) r') ∨
    (isOpen = false ∧ s = st.scheduler ∧ r' = r ∧ r.status = .waitingForRemoteKvs ∧
      r.requestId ∉ st.scheduler.finishedRecvingKvReqIds) := by
  unfold ScheduleState.remoteGate at hok
  split at hok
  · obtain ⟨rfl, hrest⟩ := mk.inj (ok.inj hok)
    obtain ⟨rfl, rfl⟩ := mk.inj hrest
    exact .inl ⟨rfl, .refl, front⟩
  · rename_i hstatus
    rw [not_not] at hstatus
    split at hok
    · cases hok
    · split at hok
      · rename_i hpending
        obtain ⟨rfl, hrest⟩ := mk.inj (ok.inj hok)
        obtain ⟨rfl, rfl⟩ := mk.inj hrest
        exact .inr ⟨rfl, rfl, rfl, hstatus, hpending⟩
      · rename_i hreceived
        rw [not_not] at hreceived
        obtain ⟨⟨_, _⟩, hready, hok⟩ := bind_eq_ok.mp hok
        obtain ⟨rfl, hrest⟩ := mk.inj (ok.inj hok)
        obtain ⟨rfl, rfl⟩ := mk.inj hrest
        have hmove : WaitingMove env ext st _ := .remoteReady front hstatus hreceived hready
        obtain ⟨_, -, -, rfl, rfl⟩ := remoteReady_eq_ok hready
        refine .inl ⟨rfl, .single (hmove.call rfl), ?_⟩
        exact ⟨front.budget, front.room, front.first, by simp [ScheduleState.setScheduler,
          Scheduler.setRequest]⟩

theorem waitingStep_eq_ok (hs : st.scheduler.Labelled) (looking : Looking env ext s₀ st)
    (budget : 0 < st.tokenBudget)
    (room : st.scheduler.running.length ≠ st.scheduler.config.maxNumRunningReqs)
    (hok : st.waitingStep env ext = .ok (st', goOn)) : WaitingMoves env ext s₀ st st' := by
  obtain ⟨id, hfirst, hrest⟩ := bind_eq_ok.mp hok
  obtain ⟨r, hr, hrest⟩ := bind_eq_ok.mp hrest
  have hknown := Scheduler.request_eq_ok.mp hr
  have hfront : Front st r := ⟨budget, room, hs id r hknown ▸ hfirst, hs id r hknown ▸ hknown⟩
  obtain ⟨⟨_, _, _⟩, hgate, hok⟩ := bind_eq_ok.mp hrest
  obtain ⟨rfl, hmoves, hfront'⟩ | ⟨rfl, rfl, rfl, hstatus, hpending⟩ :=
    remoteGate_eq_ok ext s₀ hfront hgate
  · refine hmoves.trans (passGates_eq_ok hfront' (fun s r' hfsm hlora => ?_) hok)
    change Considered env ext s₀ (st.setScheduler s) r'
    exact .passed looking hfront hgate hfsm hlora
  · obtain ⟨_, hskip, hok⟩ := bind_eq_ok.mp hok
    cases hok
    exact .single (skip_eq_ok hfront (.remote hstatus hpending) hskip)

theorem WaitingMove.labelled (h : WaitingMove env ext st st') (hs : st.scheduler.Labelled) :
    st'.scheduler.Labelled := by
  cases h with
  | remoteReady _ _ _ ready =>
    obtain ⟨_, -, -, rfl, rfl⟩ := remoteReady_eq_ok ready
    exact hs.setRequest _
  | grammarReady _ _ => exact hs.setRequest _
  | look _ _ => exact hs
  | skip _ _ _ _ => exact hs
  | noSlots _ _ _ _ => exact hs
  | startRemoteLoad _ _ _ _ _ _ _ => exact hs.setRequest _
  | admits _ _ _ _ _ _ _ _ _ => exact hs.setRequest _

theorem WaitingMoves.labelled (h : WaitingMoves env ext s₀ st st') (hs : st.scheduler.Labelled) :
    st'.scheduler.Labelled := by
  induction h with
  | refl => exact hs
  | tail _ hlast ih => exact hlast.move.labelled ih

theorem waitingMoves_of_eq_ok {fuel : ℕ} (hs : st.scheduler.Labelled)
    (looking : Looking env ext s₀ st)
    (hok : ScheduleState.waitingLoop env ext fuel st = .ok st') :
    WaitingMoves env ext s₀ st st' := by
  induction fuel generalizing st with
  | zero =>
    cases hok
    exact .refl
  | succ fuel ih =>
    unfold ScheduleState.waitingLoop at hok
    split at hok
    · cases hok
      exact .refl
    · rename_i hempty
      rw [not_or, not_le] at hempty
      split at hok
      · cases hok
        exact .refl
      · rename_i hroom
        obtain ⟨⟨_, _⟩, hstep, hok⟩ := bind_eq_ok.mp hok
        have hmoves := waitingStep_eq_ok hs looking hempty.2 hroom hstep
        dsimp only at hok
        split at hok
        · rename_i hgoOn
          subst hgoOn
          exact hmoves.trans
            (ih (hmoves.labelled hs) (.round looking hempty.2 hroom hstep) hok)
        · cases hok
          exact hmoves

end Waiting

/-! ### Calls -/

/-- The phases of a call that returns. -/
structure Phases (env : Kv.HashEnv) (ext : External) (s : Scheduler)
    (st₁ st₂ st₃ st : ScheduleState) : Prop where
  runningLoop : s.startSchedule.runningLoop env s.running.length = .ok st₁
  running : RunningMoves env s.startSchedule st₁
  loras : st₁.recordLoras = .ok st₂
  waitingLoop : st₂.admitWaiting env ext = .ok st₃
  waiting : st₃ = st₂ ∨ (st₂.preemptedReqs = [] ∧ WaitingMoves env ext s st₂ st₃)
  putBack : st₃.putBack = .ok st
  constraints : st.constraintsHold = true

theorem RunningMoves.labelled (h : RunningMoves env st st') (hs : st.scheduler.Labelled) :
    st'.scheduler.Labelled := by
  induction h with
  | refl => exact hs
  | tail _ hlast ih => exact hlast.labelled ih

theorem recordLoras_eq_ok (hok : st.recordLoras = .ok st') :
    ∃ loras, st' = { st with scheduledLoras := loras } ∧
      ∀ maxLoras, st.scheduler.config.maxLoras = some maxLoras → loras.card ≤ maxLoras ∧
        loras = ((st.scheduledRunningReqs.filterMap fun id =>
          (st.scheduler.requests id).bind Request.loraIntId).filter (0 < ·)).toFinset := by
  unfold ScheduleState.recordLoras at hok
  split at hok
  · rename_i hnone
    cases hok
    exact ⟨st.scheduledLoras, rfl, by simp [hnone]⟩
  · rename_i maxLoras hsome
    dsimp only at hok
    split at hok
    · rename_i hcard
      cases hok
      refine ⟨_, rfl, ?_⟩
      intro maxLoras' hsome'
      cases hsome.symm.trans hsome'
      exact ⟨hcard, rfl⟩
    · cases hok

theorem phases_of_eq_ok {s : Scheduler} (hs : s.Labelled)
    (hok : s.scheduleRequests env ext = .ok st) :
    ∃ st₁ st₂ st₃, Phases env ext s st₁ st₂ st₃ st := by
  obtain ⟨st₁, hrun, hok⟩ := bind_eq_ok.mp hok
  obtain ⟨st₂, hloras, hok⟩ := bind_eq_ok.mp hok
  obtain ⟨st₃, hwait, hok⟩ := bind_eq_ok.mp hok
  obtain ⟨_, hback, hok⟩ := bind_eq_ok.mp hok
  have hloop := hwait
  have hmoves := runningMoves_of_eq_ok hs hrun
  have hlabelled : st₂.scheduler.Labelled := by
    obtain ⟨_, rfl, -⟩ := recordLoras_eq_ok hloras
    exact hmoves.labelled hs
  have hlater : st₃ = st₂ ∨ (st₂.preemptedReqs = [] ∧ WaitingMoves env ext s st₂ st₃) := by
    unfold ScheduleState.admitWaiting at hwait
    split at hwait
    · exact .inl (ok.inj hwait).symm
    · rename_i hnone
      have hnone := not_not.mp hnone
      exact .inr ⟨hnone, waitingMoves_of_eq_ok hlabelled (.start hrun hloras hnone) hwait⟩
  unfold ScheduleState.checkConstraints at hok
  split at hok
  · rename_i hconstraints
    cases hok
    exact ⟨st₁, st₂, st₃, hrun, hmoves, hloras, hloop, hlater, hback, hconstraints⟩
  · cases hok

variable {s s' : Scheduler}

/-- The waiting requests that were looked at so far. -/
theorem Looking.moves (h : Looking env ext s st) (hs : s.Labelled) :
    ∃ st₁ st₂, s.startSchedule.runningLoop env s.running.length = .ok st₁ ∧
      st₁.recordLoras = .ok st₂ ∧ st₂.preemptedReqs = [] ∧ st₂.scheduler.Labelled ∧
      WaitingMoves env ext s st₂ st := by
  induction h with
  | @start st₁ st₂ loop loras noneLeft =>
    have hlabelled : st₂.scheduler.Labelled := by
      obtain ⟨_, rfl, -⟩ := recordLoras_eq_ok loras
      exact (runningMoves_of_eq_ok hs loop).labelled hs
    exact ⟨st₁, st₂, loop, loras, noneLeft, hlabelled, .refl⟩
  | round before budget room step ih =>
    obtain ⟨st₁, st₂, loop, loras, noneLeft, hlabelled, hmoves⟩ := ih
    exact ⟨st₁, st₂, loop, loras, noneLeft, hlabelled,
      hmoves.trans (waitingStep_eq_ok (hmoves.labelled hlabelled) before budget room step)⟩

theorem Considered.moves (h : Considered env ext s st r) (hs : s.Labelled) :
    Front st r ∧ ∃ st₁ st₂, s.startSchedule.runningLoop env s.running.length = .ok st₁ ∧
      st₁.recordLoras = .ok st₂ ∧ st₂.preemptedReqs = [] ∧ WaitingMoves env ext s st₂ st := by
  cases h with
  | @passed st r₀ r₁ r s₁ s₂ looking front remote fsm _ =>
    change ScheduleState.fsmGate ext (st.setScheduler s₁).scheduler r₁ = (s₂, r, true) at fsm
    obtain ⟨st₁, st₂, loop, loras, noneLeft, -, hmoves⟩ := looking.moves hs
    obtain ⟨-, hremote, hfront⟩ | ⟨hclosed, -⟩ := remoteGate_eq_ok ext s front remote
    · obtain ⟨-, hfsm, hfront'⟩ | ⟨hclosed, -⟩ := fsmGate_cases env ext s hfront
      · rw [fsm] at hfsm hfront'
        exact ⟨hfront', st₁, st₂, loop, loras, noneLeft, hmoves.trans (hremote.trans hfsm)⟩
      · cases fsm.symm.trans hclosed
    · cases hclosed

/-- The scheduler after a call is the one that the moves have led to, with the scheduled tokens
counted as computed. -/
theorem schedule_eq_ok {output : SchedulerOutput} (hok : s.schedule env ext = .ok (s', output)) :
    ∃ st s'', s.scheduleRequests env ext = .ok st ∧ st.makeOutput = .ok output ∧
      st.numScheduledTokens.foldlM Scheduler.advance st.scheduler.takeFreedIds = .ok s'' ∧
      s' = { s'' with finishedReqIds := ∅ } := by
  obtain ⟨st, hst, hok⟩ := bind_eq_ok.mp hok
  obtain ⟨_, hout, hok⟩ := bind_eq_ok.mp hok
  obtain ⟨_, hadvance, hok⟩ := bind_eq_ok.mp hok
  cases hok
  obtain ⟨s'', hadvance, hs''⟩ := bind_eq_ok.mp hadvance
  exact ⟨st, s'', hst, hout, hadvance, (ok.inj hs'').symm⟩

theorem makeOutput_eq_ok {output : SchedulerOutput} (hok : st.makeOutput = .ok output) :
    output.numScheduledTokens = st.numScheduledTokens ∧
      output.totalNumScheduledTokens = st.totalNumScheduledTokens ∧
      output.scheduledSpecDecodeTokens = st.scheduledSpecDecodeTokens ∧
      output.scheduledEncoderInputs = st.scheduledEncoderInputs ∧
      output.freeEncoderInputIds = st.scheduler.encoderCacheManager.freed := by
  obtain ⟨_, -, hok⟩ := bind_eq_ok.mp hok
  obtain ⟨_, -, hok⟩ := bind_eq_ok.mp hok
  cases hok
  exact ⟨rfl, rfl, rfl, rfl, rfl⟩

theorem advance_eq_ok {entry : String × ℤ} (hok : s.advance entry = .ok s') :
    ∃ r encoder, s.requests entry.1 = some r ∧
      s.consumeEncoderInputs
        { r with numComputedTokens := r.numComputedTokens + entry.2 } = .ok encoder ∧
      s' = { s.setRequest { r with numComputedTokens := r.numComputedTokens + entry.2 } with
        encoderCacheManager := encoder } := by
  obtain ⟨r, hr, hok⟩ := bind_eq_ok.mp hok
  obtain ⟨encoder, henc, hok⟩ := bind_eq_ok.mp hok
  exact ⟨r, encoder, Scheduler.request_eq_ok.mp hr, henc, (ok.inj hok).symm⟩

/-! ### Updates -/

/-- A request after the output for it was applied, as far as it is not finished by it. -/
structure Grown (batch : SchedulerOutput) (r : Request) (given tokens : List ℤ) (r' : Request) :
    Prop where
  changed : r' = { r.rejectTokens
      ((batch.scheduledSpecDecodeTokens.lookup r.requestId).getD []) given.length with
    outputTokenIds := r.outputTokenIds ++ tokens
    status := r'.status
    stopReason := r'.stopReason
    specTokenIds := r'.specTokenIds }

theorem Grown.requestId {batch : SchedulerOutput} {r r' : Request} {given tokens : List ℤ}
    (h : Grown batch r given tokens r') : r'.requestId = r.requestId := by
  rw [h.changed, Request.rejectTokens_eq]

/-- What an update does with one known request: it goes on, or it is finished and freed. -/
inductive UpdateMove (batch : SchedulerOutput) (out : ModelRunnerOutput) (st : UpdateState)
    (r : Request) : UpdateState → Prop where
  | goOn {given : List ℤ} {r' : Request} {st' : UpdateState}
      (sampled : out.sampledTokenIds r.requestId = some given)
      (grown : Grown batch r given given r') (status : r'.status = r.status)
      (short : given ≠ [] → r'.numTokens < st.scheduler.config.maxModelLen)
      (scheduler : st'.scheduler = st.scheduler.setRequest r')
      (running : st'.stoppedRunningReqs = st.stoppedRunningReqs)
      (preempted : st'.stoppedPreemptedReqs = st.stoppedPreemptedReqs) :
      UpdateMove batch out st r st'
  | stop {given tokens : List ℤ} {r' : Request} {s : Scheduler} {x : Option Request}
      {st' : UpdateState} (sampled : out.sampledTokenIds r.requestId = some given)
      (grown : Grown batch r given tokens r') (finished : r'.isFinished = true)
      (freed : (st.scheduler.setRequest r').freeRequest r' (out.delayFreeBlocks r.requestId) =
        .ok s)
      (left : ∀ y, x = some y → ∃ spec, y = { r' with specTokenIds := spec })
      (scheduler : st'.scheduler =
        { s with requests := update st.scheduler.requests r.requestId x })
      (running : st'.stoppedRunningReqs = if r.status = .running then
          st.stoppedRunningReqs ++ [r.requestId] else st.stoppedRunningReqs)
      (preempted : st'.stoppedPreemptedReqs = if r.status = .running then
          st.stoppedPreemptedReqs else st.stoppedPreemptedReqs ++ [r.requestId]) :
      UpdateMove batch out st r st'

theorem recordOutput_frame (st : UpdateState) (r : Request) (tokens : List ℤ) (hasPooler : Bool) :
    (st.recordOutput r tokens hasPooler).scheduler = st.scheduler ∧
      (st.recordOutput r tokens hasPooler).stoppedRunningReqs = st.stoppedRunningReqs ∧
      (st.recordOutput r tokens hasPooler).stoppedPreemptedReqs = st.stoppedPreemptedReqs := by
  unfold UpdateState.recordOutput
  split <;> exact ⟨rfl, rfl, rfl⟩

theorem recordStopped_frame (st : UpdateState) (id : String) (status : RequestStatus) :
    (st.recordStopped id status true).scheduler = st.scheduler ∧
      (st.recordStopped id status true).stoppedRunningReqs = (if status = .running then
        st.stoppedRunningReqs ++ [id] else st.stoppedRunningReqs) ∧
      (st.recordStopped id status true).stoppedPreemptedReqs = (if status = .running then
        st.stoppedPreemptedReqs else st.stoppedPreemptedReqs ++ [id]) := by
  unfold UpdateState.recordStopped
  rw [if_pos rfl]
  split <;> exact ⟨rfl, rfl, rfl⟩

/-- Draft tokens do not change what a request is. -/
theorem setSpecTokens_frame (s : Scheduler) (id : String)
    (specTokenIds : Option (String → List ℤ)) :
    ∃ f : Request → Request, (∀ r, ∃ tokens, f r = { r with specTokenIds := tokens }) ∧
      s.setSpecTokens id specTokenIds =
        { s with requests := update s.requests id ((s.requests id).map f) } := by
  cases specTokenIds with
  | none =>
    refine ⟨fun r => r, fun r => ⟨r.specTokenIds, rfl⟩, ?_⟩
    simp [Scheduler.setSpecTokens]
  | some tokens => exact ⟨_, fun r => ⟨_, rfl⟩, rfl⟩

/-- Freeing a request forgets it, or leaves it finished until its blocks were sent. -/
theorem freeRequest_frame {delayFreeBlocks : Bool}
    (hok : s.freeRequest r delayFreeBlocks = .ok s') :
    r.isFinished = true ∧ s'.waiting = s.waiting ∧ s'.running = s.running ∧
      s'.config = s.config ∧ (s'.requests = s.requests ∨
        s'.requests = update s.requests r.requestId none) := by
  obtain ⟨hfin, _, -, ⟨rfl, -, -⟩ | hfreed⟩ := Scheduler.freeRequest_eq_ok hok
  · exact ⟨hfin, rfl, rfl, rfl, .inl rfl⟩
  · obtain ⟨-, _, -, rfl⟩ := Scheduler.freeBlocks_eq_ok hfreed
    exact ⟨hfin, rfl, rfl, rfl, .inr rfl⟩

theorem updateMove_of_eq_ok {batch : SchedulerOutput} {out : ModelRunnerOutput}
    {st st' : UpdateState} (hok : UpdateState.updateKnown batch out st r = .ok st') :
    UpdateMove batch out st r st' := by
  obtain ⟨given, tokens, r₁, r₂, stopped, hasPooler, s, hgiven, hr₁, ⟨hsame⟩, hstop, hfreed,
    hst'⟩ := UpdateState.updateKnown_eq_ok hok
  have hgrown : Grown batch r given tokens r₂ := by
    constructor
    rw [hsame, hr₁, Request.rejectTokens_eq]
  have hstatus : r₁.status = r.status := by rw [hr₁, Request.rejectTokens_eq]
  obtain ⟨f, hf, hspec⟩ := setSpecTokens_frame s r.requestId out.specTokenIds
  rw [hspec] at hst'
  obtain ⟨hscheduler, hrun, hpre⟩ := recordOutput_frame
    (UpdateState.recordStopped { st with scheduler := { s with
      requests := update s.requests r.requestId ((s.requests r.requestId).map f) } }
      r.requestId r.status stopped) r₂ tokens hasPooler
  rw [← hst'] at hscheduler hrun hpre
  rcases hstop with ⟨rfl, hfin⟩ | ⟨rfl, rfl, hsame', hshort, -⟩
  · -- It stopped: `freeRequest` forgets it, or keeps it while its blocks are still sent.
    obtain ⟨hsched', hrun', hpre'⟩ := recordStopped_frame
      { st with scheduler := { s with
        requests := update s.requests r.requestId ((s.requests r.requestId).map f) } }
      r.requestId r.status
    obtain ⟨-, -, -, -, hreqs⟩ := freeRequest_frame hfreed
    refine .stop hgiven hgrown hfin hfreed (x := (s.requests r.requestId).map f) ?_ ?_
      (hrun.trans hrun') (hpre.trans hpre')
    · intro y hy
      obtain ⟨z, hz, rfl⟩ := Option.map_eq_some_iff.mp hy
      obtain ⟨spec, hfz⟩ := hf z
      have hzr : z = r₂ := by
        rcases hreqs with heq | heq <;> rw [heq] at hz <;>
          simp [Scheduler.setRequest, hgrown.requestId] at hz
        exact hz.symm
      exact ⟨spec, by rw [hfz, hzr]⟩
    · rw [hscheduler, hsched']
      dsimp only
      congr 1
      rcases hreqs with heq | heq <;> rw [heq] <;>
        simp only [Scheduler.setRequest, hgrown.requestId, update_idem]
  · -- It goes on, and only its drafts are new.
    cases hfreed
    obtain ⟨spec, hfr⟩ := hf r₂
    have hknown : (st.scheduler.setRequest r₂).requests r.requestId = some r₂ := by
      simp [Scheduler.setRequest, hgrown.requestId]
    rw [hknown, Option.map_some] at hscheduler
    have hgrown' : Grown batch r tokens tokens (f r₂) := by
      constructor
      rw [hfr, hgrown.changed]
    refine .goOn hgiven hgrown' ?_ ?_ ?_ hrun hpre
    · rw [hfr]
      exact hsame'.trans hstatus
    · rw [hfr]
      exact hshort
    · rw [hscheduler]
      simp only [Scheduler.setRequest, hfr, hgrown.requestId, update_idem]
      rfl

end Sched
