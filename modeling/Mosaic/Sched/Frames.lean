import Mosaic.Sched.Filing

/-!
# What calls leave alone

The configuration never changes. A request changes its status, its tokens and its counters, and
keeps everything else as long as it is known.
-/

namespace Sched

open Fallible Function

open Transition (Execution)

/-! ### The configuration does not change -/

section Config

variable {env : Kv.HashEnv} {ext : External} {config : SchedulerConfig} {st st' : ScheduleState}

theorem Preempts.config_eq {r : Request} {n : ℤ} {victim : String}
    (h : Preempts env r n st victim st') : st'.scheduler.config = st.scheduler.config := by
  cases h with
  | mk _ _ _ _ _ => rfl

theorem PreemptsOthers.config_eq {r : Request} {n : ℤ}
    (h : PreemptsOthers env r n st st') : st'.scheduler.config = st.scheduler.config :=
  h.preserves (P := fun u => u.scheduler.config = st.scheduler.config)
    (fun _ _ _ ht hlast => hlast.config_eq.trans ht) rfl

theorem RunningMove.config_eq (h : RunningMove env st st') :
    st'.scheduler.config = st.scheduler.config := by
  cases h with
  | pass _ _ => rfl
  | schedule _ _ _ others _ scheduled =>
    obtain ⟨_, -, rfl⟩ := scheduleRunning_eq_ok scheduled
    exact others.config_eq
  | giveUp _ _ _ others itself => exact itself.config_eq.trans others.config_eq

theorem WaitingMove.config_eq (h : WaitingMove env ext st st') :
    st'.scheduler.config = st.scheduler.config := by
  cases h with
  | remoteReady _ _ _ ready =>
    obtain ⟨_, -, -, -, rfl⟩ := remoteReady_eq_ok ready
    rfl
  | _ => rfl

theorem Phases.config_eq {s : Scheduler} {st₁ st₂ st₃ st : ScheduleState}
    (h : Phases env ext s st₁ st₂ st₃ st) : st.scheduler.config = s.config := by
  have hst₃ := h.preserves (P := fun t => t.scheduler.config = s.config) rfl
    (fun _ _ ht hmove => hmove.config_eq.trans ht) (fun _ _ ht => ht)
    fun _ _ ht hmove => hmove.config_eq.trans ht
  obtain ⟨_, rfl, -, -⟩ := putBack_eq_ok h.putBack
  exact hst₃

variable {s s' : Scheduler}

theorem schedule_config {output : SchedulerOutput} (hs : s.Labelled)
    (hok : s.schedule env ext = .ok (s', output)) : s'.config = s.config := by
  obtain ⟨_, s'', hst, -, hadvance, rfl⟩ := schedule_eq_ok hok
  obtain ⟨_, _, _, hphases⟩ := phases_of_eq_ok hs hst
  have hlast : s''.config = s.config := by
    refine foldlM_advance_preserves (P := fun t => t.config = s.config) ?_ hadvance
      hphases.config_eq
    intro t entry u ht hu
    obtain ⟨_, _, -, -, rfl⟩ := advance_eq_ok hu
    exact ht
  exact hlast

theorem updateFromOutput_config {batch : SchedulerOutput}
    {out : ModelRunnerOutput} {outputs : List (ℕ × List EngineCoreOutput)} (hs : s.Filed)
    (hok : s.updateFromOutput batch out = .ok (s', outputs)) : s'.config = s.config := by
  obtain ⟨st, _, hupds, hremove, hsending, -⟩ := updateFromOutput_eq_ok hok
  have hst : st.Filed ∧ st.scheduler.config = s.config := by
    refine foldlM_updateOne_preserves (P := fun u => u.Filed ∧ u.scheduler.config = s.config)
      hupds ⟨⟨by simpa using hs.lists, hs.policy⟩, rfl⟩ (fun u hu => hu.1.lists.labelled) ?_
    intro u r v _ ⟨hu, hcfg⟩ known hmove
    refine ⟨hmove.filed known hu, ?_⟩
    cases hmove with
    | goOn _ _ _ _ scheduler _ _ =>
      rw [scheduler]
      exact hcfg
    | stop _ _ _ freed _ scheduler _ _ =>
      rw [scheduler]
      exact (freeRequest_frame freed).2.2.2.1.trans hcfg
  obtain ⟨_, -, hok⟩ := bind_eq_ok.mp hremove
  cases hok
  refine foldlM_finishSending_preserves (P := fun t => t.config = s.config) ?_ hsending hst.2
  intro t id u ht hu
  obtain ⟨r, -, hu⟩ := bind_eq_ok.mp hu
  obtain ⟨-, _, -, rfl⟩ := Scheduler.freeBlocks_eq_ok hu
  exact ht

theorem finishRequests_config {ids : List String} {status : RequestStatus}
    {delayFreeBlocks : String → Bool}
    (hok : s.finishRequests ids status delayFreeBlocks = .ok s') : s'.config = s.config := by
  obtain ⟨-, running, waiting, -, -, hfold⟩ := finishRequests_eq_ok hok
  generalize hstart : { s with running := running, waiting := waiting } = start at hfold
  have hcfg : start.config = s.config := by rw [← hstart]
  clear hstart hok
  generalize ids.dedup.filterMap s.requests = valid at hfold
  induction valid generalizing start with
  | nil =>
    cases hfold
    exact hcfg
  | cons r rest ih =>
    obtain ⟨t, hfirst, hrest⟩ := foldlM_cons_eq_ok.mp hfold
    exact ih t ((freeRequest_frame hfirst).2.2.2.1.trans hcfg) hrest

theorem Step.config_eq {p q : Pipeline} {event : Event} (h : Step env p event q)
    (hp : p.scheduler.Filed) : q.scheduler.config = p.scheduler.config := by
  cases h with
  | added _ _ returns =>
    obtain ⟨_, -, hok⟩ := bind_eq_ok.mp returns
    cases hok
    rfl
  | finished returns => exact finishRequests_config returns
  | scheduled returns _ => exact schedule_config hp.labelled returns
  | updated returns => exact updateFromOutput_config hp returns
  | resetPrefixCache => rfl

theorem config_of_execution {encoderCacheSize : ℕ} {kvCacheManager : Kv.KVCacheManager}
    {events : List Event} {p : Pipeline}
    (run : Execution (Step env) ⟨.new config encoderCacheSize kvCacheManager, []⟩ events p) :
    p.scheduler.config = config := by
  suffices h : p.scheduler.Filed ∧ p.scheduler.config = config from h.2
  refine run.preserves (P := fun p => p.scheduler.Filed ∧ p.scheduler.config = config) ?_
    ⟨new_filed _ _ _, rfl⟩
  intro p event q ⟨hp, hcfg⟩ hstep
  exact ⟨hstep.filed hp, (hstep.config_eq hp).trans hcfg⟩

end Config

/-! ### What a request keeps -/

/-- The parts of a request that do not change. -/
def Request.identity (r : Request) : Request :=
  { r with
    outputTokenIds := []
    specTokenIds := []
    numComputedTokens := 0
    numCachedTokens := 0
    status := .waiting
    stopReason := none }

def Scheduler.identities (s : Scheduler) (id : String) : Option Request :=
  (s.requests id).map Request.identity

section Identities

variable {env : Kv.HashEnv} {ext : External} {s s' : Scheduler} {st st' : ScheduleState}
  {r : Request}

theorem setRequest_identities {r' : Request} (known : s.requests r.requestId = some r)
    (same : r'.identity = r.identity) : (s.setRequest r').identities = s.identities := by
  have hid : r'.requestId = r.requestId := by
    have hids := congrArg Request.requestId same
    exact hids
  funext id
  by_cases h : id = r.requestId
  · subst h
    simp [Scheduler.identities, Scheduler.setRequest, hid, known, same]
  · simp [Scheduler.identities, Scheduler.setRequest, hid, h]

@[simp] theorem trimSpec_identity (r : Request) (n : ℤ) :
    (ScheduleState.trimSpec r n).identity = r.identity := by
  unfold ScheduleState.trimSpec
  split <;> rfl

variable {batch : SchedulerOutput}

theorem Grown.identity {given tokens : List ℤ} {r' : Request}
    (h : Grown batch r given tokens r') : r'.identity = r.identity := by
  rw [h.changed, Request.rejectTokens_eq]
  rfl

theorem Preempts.identities {n : ℤ} {victim : String} (h : Preempts env r n st victim st') :
    st'.scheduler.identities = st.scheduler.identities := by
  cases h with
  | @mk v kv kv' running waiting _ _ known _ _ =>
    have hsame : (st.scheduler.setRequest v.preempted).identities = st.scheduler.identities :=
      setRequest_identities known rfl
    exact hsame

theorem PreemptsOthers.identities {n : ℤ} (h : PreemptsOthers env r n st st') :
    st'.scheduler.identities = st.scheduler.identities :=
  h.preserves (P := fun u => u.scheduler.identities = st.scheduler.identities)
    (fun _ _ _ ht hlast => hlast.identities.trans ht) rfl

theorem RunningMove.identities (h : RunningMove env st st') :
    st'.scheduler.identities = st.scheduler.identities := by
  cases h with
  | pass _ _ => rfl
  | @schedule st₁ _ r inputs n budget kv newBlocks current _ _ others _ scheduled =>
    obtain ⟨_, -, rfl⟩ := scheduleRunning_eq_ok scheduled
    have hsame : (st₁.scheduler.setRequest (ScheduleState.trimSpec r n)).identities =
        st₁.scheduler.identities :=
      setRequest_identities (others.known current.known) (trimSpec_identity r n)
    exact hsame.trans others.identities
  | giveUp _ _ _ others itself => exact itself.identities.trans others.identities

theorem WaitingMove.identities (h : WaitingMove env ext st st') :
    st'.scheduler.identities = st.scheduler.identities := by
  cases h with
  | @remoteReady r r' s front _ _ ready =>
    obtain ⟨_, -, -, hr', rfl⟩ := remoteReady_eq_ok ready
    exact setRequest_identities front.known (by rw [hr']; rfl)
  | @grammarReady r front _ => exact setRequest_identities front.known rfl
  | look _ _ => rfl
  | skip _ _ _ _ => rfl
  | noSlots _ _ _ _ => rfl
  | @startRemoteLoad r _ _ _ _ _ _ _ _ front _ _ _ _ _ _ =>
    have hsame : (st.scheduler.setRequest { r with status := .waitingForRemoteKvs }).identities =
        st.scheduler.identities := setRequest_identities front.known rfl
    exact hsame
  | @admits r found _ _ _ _ _ _ _ front _ _ _ _ _ _ _ _ =>
    have hsame : (st.scheduler.setRequest
        (ScheduleState.startRunning r found.numComputedTokens)).identities =
          st.scheduler.identities := setRequest_identities front.known rfl
    exact hsame

theorem advance_identities {entry : String × ℤ} (hs : s.Labelled)
    (hok : s.advance entry = .ok s') : s'.Labelled ∧ s'.identities = s.identities := by
  obtain ⟨id, n⟩ := entry
  obtain ⟨r, _, hr, -, rfl⟩ := advance_eq_ok hok
  obtain rfl : r.requestId = id := hs id r hr
  have hsame : (s.setRequest { r with numComputedTokens := r.numComputedTokens + n }).identities =
      s.identities := setRequest_identities hr rfl
  exact ⟨Scheduler.Labelled.setRequest hs _, hsame⟩

/-- Requests are forgotten, or keep what they are. -/
def Remembers (s s' : Scheduler) : Prop :=
  ∀ id x, s'.identities id = some x → s.identities id = some x

theorem Remembers.trans {s₁ s₂ s₃ : Scheduler} (h : Remembers s₁ s₂) (h' : Remembers s₂ s₃) :
    Remembers s₁ s₃ := fun id x hx => h id x (h' id x hx)

theorem remembers_update {x : Option Request}
    (known : s.identities r.requestId = some r.identity)
    (same : ∀ y, x = some y → y.identity = r.identity)
    (hreqs : s'.requests = update s.requests r.requestId x) : Remembers s s' := by
  intro id y hy
  by_cases hid : id = r.requestId
  · subst hid
    rw [Scheduler.identities, hreqs, update_self] at hy
    obtain ⟨z, hz, rfl⟩ := Option.map_eq_some_iff.mp hy
    rw [known, same z hz]
  · rw [Scheduler.identities, hreqs, update_of_ne hid] at hy
    exact hy

theorem finishRequests_remembers {ids : List String} {status : RequestStatus}
    {delayFreeBlocks : String → Bool} (hs : s.Filed)
    (hok : s.finishRequests ids status delayFreeBlocks = .ok s') : Remembers s s' := by
  obtain ⟨-, running, waiting, -, -, hfold⟩ := finishRequests_eq_ok hok
  have hnodup : ((ids.dedup.filterMap s.requests).map Request.requestId).Nodup :=
    (List.nodup_dedup ids).sublist (map_requestId_filterMap hs.labelled _)
  have hvalid : ∀ r ∈ ids.dedup.filterMap s.requests,
      ({ s with running := running, waiting := waiting } : Scheduler).identities r.requestId =
        some r.identity := by
    intro r hr
    obtain ⟨id, -, hid⟩ := List.mem_filterMap.mp hr
    rw [hs.lists.labelled id r hid]
    simp [Scheduler.identities, hid]
  generalize ids.dedup.filterMap s.requests = valid at hfold hnodup hvalid
  have hstart : Remembers s { s with running := running, waiting := waiting } :=
    fun _ _ hx => hx
  generalize ({ s with running := running, waiting := waiting } : Scheduler) = t
    at hfold hvalid hstart
  induction valid generalizing t with
  | nil =>
    cases hfold
    exact hstart
  | cons r rest ih =>
    obtain ⟨u, hfirst, hrest⟩ := foldlM_cons_eq_ok.mp hfold
    obtain ⟨hout, hnodup⟩ := List.nodup_cons.mp hnodup
    obtain ⟨-, -, -, _, hx, hreqs⟩ := finishRequest_eq_ok hfirst
    have hremembers : Remembers t u := by
      refine remembers_update (hvalid r List.mem_cons_self) ?_ hreqs
      intro y hy
      obtain ⟨rfl, -⟩ := hx y hy
      rfl
    refine ih hnodup u hrest ?_ (hstart.trans hremembers)
    intro r' hr'
    have hne : r'.requestId ≠ r.requestId := by
      intro heq
      exact hout (heq ▸ List.mem_map_of_mem hr')
    rw [Scheduler.identities, hreqs, update_of_ne hne]
    exact hvalid r' (List.mem_cons_of_mem _ hr')

theorem UpdateMove.remembers {out : ModelRunnerOutput}
    {st st' : UpdateState} (h : UpdateMove batch out st r st')
    (known : st.scheduler.requests r.requestId = some r) :
    Remembers st.scheduler st'.scheduler := by
  have hknown : st.scheduler.identities r.requestId = some r.identity := by
    simp [Scheduler.identities, known]
  cases h with
  | @goOn given r' _ _ grown _ _ scheduler _ _ =>
    refine remembers_update (x := some r') hknown ?_ ?_
    · intro y hy
      rw [← Option.some.inj hy]
      exact grown.identity
    · rw [scheduler, ← grown.requestId]
      rfl
  | @stop given tokens r' t x _ _ grown _ freed left scheduler _ _ =>
    refine remembers_update (x := x) hknown ?_ ?_
    · intro y hy
      obtain ⟨spec, rfl⟩ := left y hy
      have hsame : ({ r' with specTokenIds := spec } : Request).identity = r'.identity := rfl
      exact hsame.trans grown.identity
    · rw [scheduler]

theorem finishSending_remembers {id : String} (hs : s.Labelled)
    (hok : s.finishSending id = .ok s') : Remembers s s' := by
  obtain ⟨r, hr, hfreed⟩ := bind_eq_ok.mp hok
  rw [Scheduler.request_eq_ok] at hr
  obtain ⟨-, _, -, rfl⟩ := Scheduler.freeBlocks_eq_ok hfreed
  obtain rfl := hs id r hr
  exact remembers_update (x := none) (by simp [Scheduler.identities, hr]) (by simp) rfl

theorem updateFromOutput_remembers {out : ModelRunnerOutput}
    {outputs : List (ℕ × List EngineCoreOutput)} (hs : s.Filed)
    (hok : s.updateFromOutput batch out = .ok (s', outputs)) : Remembers s s' := by
  obtain ⟨st, _, hupds, hremove, hsending, -⟩ := updateFromOutput_eq_ok hok
  have hst : st.Filed ∧ Remembers s st.scheduler := by
    refine foldlM_updateOne_preserves
      (P := fun u => u.Filed ∧ Remembers s u.scheduler)
      hupds ⟨⟨by simpa using hs.lists, hs.policy⟩, fun _ _ hx => hx⟩
      (fun u hu => hu.1.lists.labelled) ?_
    intro u r v _ ⟨hu, hremembers⟩ known hmove
    exact ⟨hmove.filed known hu, hremembers.trans (hmove.remembers known)⟩
  have hs₁ := removeStopped_filed hremove hst.1
  obtain ⟨_, -, hok⟩ := bind_eq_ok.mp hremove
  cases hok
  have hlast : s'.Filed ∧ Remembers s s' := by
    refine foldlM_finishSending_preserves (P := fun t => t.Filed ∧ Remembers s t) ?_ hsending
      ⟨⟨hs₁.lists, hs₁.policy⟩, hst.2⟩
    intro t id u ⟨ht, hremembers⟩ hu
    exact ⟨finishSending_filed hu ht, hremembers.trans (finishSending_remembers ht.labelled hu)⟩
  exact hlast.2

end Identities

end Sched
