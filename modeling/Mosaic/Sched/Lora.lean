import Mosaic.Sched.Frames
import Mathlib.Data.Finset.Card

/-!
# The adapters in use

The adapters of the requests that are scheduled are counted, and a waiting request is admitted if
its adapter fits. A running request that gets no tokens in this call is not counted, although its
adapter stays in use.
-/

namespace Sched

open List Fallible

open Transition (Execution)

namespace Scheduler

/-- The adapter of a request. -/
def lora (s : Scheduler) (id : String) : Option ℤ := (s.requests id).bind Request.loraIntId

def adaptersOf (s : Scheduler) (ids : List String) : Finset ℤ := (ids.filterMap s.lora).toFinset

/-- The adapters in use. -/
def adapters (s : Scheduler) : Finset ℤ := s.adaptersOf s.running

variable {s s' : Scheduler} {ids ids' : List String}

@[simp] theorem mem_adaptersOf {lora : ℤ} :
    lora ∈ s.adaptersOf ids ↔ ∃ id ∈ ids, s.lora id = some lora := by
  simp [adaptersOf]

theorem adaptersOf_subset (hids : ids' ⊆ ids)
    (hlora : ∀ id ∈ ids', ∀ l, s'.lora id = some l → s.lora id = some l) :
    s'.adaptersOf ids' ⊆ s.adaptersOf ids := by
  intro l hl
  obtain ⟨id, hid, hsome⟩ := mem_adaptersOf.mp hl
  exact mem_adaptersOf.mpr ⟨id, hids hid, hlora id hid l hsome⟩

theorem lora_eq (s : Scheduler) (id : String) :
    s.lora id = (s.identities id).bind Request.loraIntId := by
  unfold lora identities
  cases s.requests id <;> rfl

theorem lora_of_identities (h : s'.identities = s.identities) : s'.lora = s.lora := by
  funext id
  rw [lora_eq, lora_eq, h]

theorem lora_of_remembers (h : Remembers s s') {id : String} {l : ℤ}
    (hl : s'.lora id = some l) : s.lora id = some l := by
  rw [lora_eq] at hl ⊢
  obtain ⟨x, hx, hl⟩ := Option.bind_eq_some_iff.mp hl
  rw [h id x hx]
  exact hl

end Scheduler

/-! ### Running requests -/

section Running

variable {env : Kv.HashEnv} {ext : External} {st st' : ScheduleState} {r : Request}

/-- The requests that run, and those that are scheduled, ran at the start. -/
structure RanBefore (s : Scheduler) (st : ScheduleState) : Prop where
  lora : st.scheduler.lora = s.lora
  running : st.scheduler.running ⊆ s.running
  scheduled : st.scheduledRunningReqs ⊆ s.running
  skipped : st.skippedWaitingRequests.ids = []
  config : st.scheduler.config = s.config

variable {s : Scheduler}

theorem Preempts.ranBefore {n : ℤ} {victim : String}
    (h : Preempts env r n st victim st') (hst : RanBefore s st) : RanBefore s st' := by
  have hlora := Scheduler.lora_of_identities h.identities
  cases h with
  | @mk v kv kv' running waiting _ popped known _ _ =>
    refine ⟨hlora.trans hst.lora, ?_, hst.scheduled, hst.skipped, hst.config⟩
    intro id hid
    exact hst.running ((popVictim_eq_ok popped).1.symm.subset (mem_cons_of_mem _ hid))

theorem RunningMove.ranBefore (h : RunningMove env st st')
    (hst : RanBefore s st) : RanBefore s st' := by
  have hlora := Scheduler.lora_of_identities h.identities
  have hothers : ∀ r n u, PreemptsOthers env r n st u → RanBefore s u := fun r n u hmoves =>
    hmoves.preserves (P := RanBefore s) (fun _ _ _ ht hlast => hlast.ranBefore ht) hst
  cases h with
  | pass _ _ => exact ⟨hst.lora, hst.running, hst.scheduled, hst.skipped, hst.config⟩
  | @schedule st₁ _ r inputs n budget kv newBlocks current _ _ others _ scheduled =>
    obtain ⟨_, -, rfl⟩ := scheduleRunning_eq_ok scheduled
    have hst₁ := hothers _ _ _ others
    refine ⟨hlora.trans hst.lora, hst₁.running, ?_, hst₁.skipped, hst₁.config⟩
    intro id hid
    rcases mem_append.mp hid with hold | hnew
    · exact hst₁.scheduled hold
    · rw [mem_singleton.mp hnew]
      exact hst.running (mem_of_getElem? current.index)
  | giveUp _ _ _ others itself => exact itself.ranBefore (hothers _ _ _ others)

theorem RunningMoves.ranBefore (h : RunningMoves env st st')
    (hst : RanBefore s st) : RanBefore s st' := by
  induction h with
  | refl => exact hst
  | tail _ hlast ih => exact hlast.ranBefore ih

theorem ranBefore_start (s : Scheduler) : RanBefore s s.startSchedule :=
  ⟨rfl, List.Subset.refl _, by simp [Scheduler.startSchedule],
    RequestQueue.ids_createRequestQueue _, rfl⟩

/-- The adapters of scheduled requests fit if those in use at the start do. -/
theorem recordLoras_isOk {maxLoras : ℕ} (hst : RanBefore s st)
    (limit : s.config.maxLoras = some maxLoras) (hfit : s.adapters.card ≤ maxLoras) :
    ∃ loras, st.recordLoras = .ok { st with scheduledLoras := loras } ∧ loras.card ≤ maxLoras := by
  have hsub : ((st.scheduledRunningReqs.filterMap fun id =>
      (st.scheduler.requests id).bind Request.loraIntId).filter (0 < ·)).toFinset ⊆
        s.adapters := by
    intro l hl
    obtain ⟨hmem, -⟩ := mem_filter.mp (mem_toFinset.mp hl)
    obtain ⟨id, hid, hlora⟩ := mem_filterMap.mp hmem
    refine Scheduler.mem_adaptersOf.mpr ⟨id, hst.scheduled hid, ?_⟩
    rw [← hst.lora]
    exact hlora
  have hcard := (Finset.card_le_card hsub).trans hfit
  refine ⟨_, ?_, hcard⟩
  unfold ScheduleState.recordLoras
  rw [hst.config, limit]
  dsimp only
  rw [if_pos hcard]

end Running

/-! ### Waiting requests -/

section Waiting

variable {env : Kv.HashEnv} {ext : External} {st st' : ScheduleState}

/-- The requests in the lists of a call. -/
def ScheduleState.listed (st : ScheduleState) : List String :=
  st.scheduler.running ++ (st.skippedWaitingRequests.ids ++ st.scheduler.waiting.ids)

/-- A move takes no new requests into the lists. -/
theorem WaitingMove.listed_subset (h : WaitingMove env ext st st') : st'.listed ⊆ st.listed := by
  unfold ScheduleState.listed
  cases h with
  | remoteReady _ _ _ ready =>
    obtain ⟨_, -, -, -, rfl⟩ := remoteReady_eq_ok ready
    exact List.Subset.refl _
  | grammarReady _ _ => exact List.Subset.refl _
  | look _ _ => exact List.Subset.refl _
  | @skip r waiting skipped _ _ popped aside =>
    have hwait : ∀ a, a ∈ st.scheduler.waiting.ids ↔ a ∈ r.requestId :: waiting.ids :=
      fun _ => (RequestQueue.perm_popRequest popped).2.1.mem_iff
    have hskipped : ∀ a, a ∈ skipped.ids ↔ a ∈ r.requestId :: st.skippedWaitingRequests.ids :=
      fun _ => (RequestQueue.perm_prependRequest aside).1.mem_iff
    intro id hid
    simp only [ScheduleState.putAside, mem_append, hwait, hskipped,
      mem_cons] at hid ⊢
    tauto
  | noSlots _ _ _ _ => exact List.Subset.refl _
  | @startRemoteLoad r _ _ _ waiting skipped _ _ _ _ _ _ _ _ popped aside =>
    have hwait : ∀ a, a ∈ st.scheduler.waiting.ids ↔ a ∈ r.requestId :: waiting.ids :=
      fun _ => (RequestQueue.perm_popRequest popped).2.1.mem_iff
    have hskipped : ∀ a, a ∈ skipped.ids ↔ a ∈ r.requestId :: st.skippedWaitingRequests.ids :=
      fun _ => (RequestQueue.perm_prependRequest aside).1.mem_iff
    intro id hid
    simp only [ScheduleState.putAside, ScheduleState.setScheduler, ScheduleState.setKv,
      Scheduler.setRequest, mem_append, hwait, hskipped, mem_cons] at hid ⊢
    tauto
  | @admits r _ _ _ waiting _ _ _ _ _ _ _ _ _ _ _ popped _ =>
    have hwait : ∀ a, a ∈ st.scheduler.waiting.ids ↔ a ∈ r.requestId :: waiting.ids :=
      fun _ => (RequestQueue.perm_popRequest popped).2.1.mem_iff
    intro id hid
    simp only [ScheduleState.admitted, ScheduleState.setKv, mem_append, hwait,
      mem_cons, not_mem_nil, or_false] at hid ⊢
    tauto

/-- The adapters in use are counted, and not too many. -/
structure Counted (maxLoras : ℕ) (st : ScheduleState) : Prop where
  limit : st.scheduler.config.maxLoras = some maxLoras
  counted : st.scheduler.adapters ⊆ st.scheduledLoras
  fit : st.scheduledLoras.card ≤ maxLoras

theorem WaitingMove.counted {maxLoras : ℕ} (h : WaitingMove env ext st st')
    (hst : Counted maxLoras st) : Counted maxLoras st' := by
  have hlora := Scheduler.lora_of_identities h.identities
  have hlimit : st'.scheduler.config.maxLoras = some maxLoras := h.config_eq ▸ hst.limit
  -- as long as the same requests run, the same adapters are in use
  have hsame : st'.scheduler.running = st.scheduler.running →
      st'.scheduledLoras = st.scheduledLoras → Counted maxLoras st' := by
    intro hrunning hloras
    refine ⟨hlimit, ?_, hloras ▸ hst.fit⟩
    rw [hloras]
    refine Finset.Subset.trans (Scheduler.adaptersOf_subset ?_ ?_) hst.counted
    · rw [hrunning]
      exact List.Subset.refl _
    · intro id _ l hl
      rw [← hlora]
      exact hl
  cases h with
  | remoteReady _ _ _ ready =>
    obtain ⟨kv, -, -, -, rfl⟩ := remoteReady_eq_ok ready
    exact hsame rfl rfl
  | grammarReady _ _ => exact hsame rfl rfl
  | look _ _ => exact hsame rfl rfl
  | skip _ _ _ _ => exact hsame rfl rfl
  | noSlots _ _ _ _ => exact hsame rfl rfl
  | startRemoteLoad _ _ _ _ _ _ _ => exact hsame rfl rfl
  | @admits r found kv _ waiting encoder inputs n budget front _ lora _ _ _ _ _ _ =>
    have hknown : st.scheduler.lora r.requestId = r.loraIntId := by
      simp [Scheduler.lora, front.known]
    have hloras : ((st.setKv kv).admitted r found inputs n budget waiting encoder).scheduledLoras =
        r.loraIntId.elim st.scheduledLoras fun l => insert l st.scheduledLoras := by
      have hlimit₀ : (st.setKv kv).scheduler.config.maxLoras = some maxLoras := hst.limit
      dsimp only [ScheduleState.admitted]
      rw [hlimit₀]
      cases r.loraIntId <;> rfl
    refine ⟨hlimit, ?_, ?_⟩
    · intro l hl
      obtain ⟨id, hid, hsome⟩ := Scheduler.mem_adaptersOf.mp hl
      rw [hlora] at hsome
      rw [hloras]
      rcases mem_append.mp hid with hold | hnew
      · have hmem : l ∈ st.scheduledLoras :=
          hst.counted (Scheduler.mem_adaptersOf.mpr ⟨id, hold, hsome⟩)
        cases r.loraIntId with
        | none => exact hmem
        | some l' => exact Finset.mem_insert_of_mem hmem
      · rw [mem_singleton.mp hnew, hknown] at hsome
        rw [hsome]
        exact Finset.mem_insert_self _ _
    · rw [hloras]
      cases hl : r.loraIntId with
      | none => exact hst.fit
      | some l =>
        -- the gate was open, so the adapter is counted or there is room for one more
        have hgate : ¬ st.scheduledLoras.card = maxLoras ∨ l ∈ st.scheduledLoras := by
          simpa [ScheduleState.loraGate, hst.limit, hl] using lora
        by_cases hmem : l ∈ st.scheduledLoras
        · rw [Option.elim_some, Finset.insert_eq_of_mem hmem]
          exact hst.fit
        · rw [Option.elim_some, Finset.card_insert_of_notMem hmem]
          exact lt_of_le_of_ne hst.fit (hgate.resolve_right hmem)

theorem WaitingMove.budget (h : WaitingMove env ext st st') : 0 < st.tokenBudget := by
  cases h with
  | remoteReady front _ _ _ => exact front.budget
  | grammarReady front _ => exact front.budget
  | look front _ => exact front.budget
  | skip front _ _ _ => exact front.budget
  | noSlots front _ _ _ => exact front.budget
  | startRemoteLoad front _ _ _ _ _ _ => exact front.budget
  | admits front _ _ _ _ _ _ _ _ => exact front.budget

theorem WaitingMoves.counted {maxLoras : ℕ} (h : WaitingMoves env ext s st st')
    (hst : Counted maxLoras st) : Counted maxLoras st' := by
  induction h with
  | refl => exact hst
  | tail _ hlast ih => exact hlast.move.counted ih

theorem WaitingMoves.listed_subset (h : WaitingMoves env ext s st st') :
    st'.listed ⊆ st.listed ∧ st'.scheduler.lora = st.scheduler.lora := by
  induction h with
  | refl => exact ⟨List.Subset.refl _, rfl⟩
  | tail _ hlast ih =>
    exact ⟨List.Subset.trans hlast.move.listed_subset ih.1,
      (Scheduler.lora_of_identities hlast.move.identities).trans ih.2⟩

end Waiting

/-! ### Calls -/

section Calls

variable {env : Kv.HashEnv} {ext : External} {s s' : Scheduler} {maxLoras : ℕ}

/-- When a call goes on to the waiting requests, it has counted every adapter in use. Otherwise
the adapters of all requests fit. -/
def Scheduler.CountsAdapters (env : Kv.HashEnv) (s : Scheduler) : Prop :=
  ∀ st₁ st maxLoras, s.config.maxLoras = some maxLoras →
    s.startSchedule.runningLoop env s.running.length = .ok st₁ → st₁.recordLoras = .ok st →
    st.preemptedReqs = [] → 0 < st.tokenBudget →
    st.scheduler.adapters ⊆ st.scheduledLoras ∨
      (st.scheduler.adaptersOf (st.scheduler.running ++ st.scheduler.waiting.ids)).card ≤ maxLoras

theorem schedule_adapters {output : SchedulerOutput} (hs : s.Filed)
    (limit : s.config.maxLoras = some maxLoras) (hfit : s.adapters.card ≤ maxLoras)
    (counts : s.CountsAdapters env) (hok : s.schedule env ext = .ok (s', output)) :
    s'.adapters.card ≤ maxLoras := by
  obtain ⟨_, s'', hst, -, hadvance, rfl⟩ := schedule_eq_ok hok
  obtain ⟨st₁, st₂, st₃, hphases⟩ := phases_of_eq_ok hs.labelled hst
  -- The running loop takes requests away at most, and with them adapters.
  have hran := hphases.running.ranBefore (ranBefore_start s)
  have hst₁ : st₁.scheduler.adapters ⊆ s.adapters :=
    Scheduler.adaptersOf_subset hran.running fun id _ l hl => hran.lora ▸ hl
  obtain ⟨loras, hloras, hcard⟩ := recordLoras_isOk hran limit hfit
  obtain rfl : { st₁ with scheduledLoras := loras } = st₂ :=
    Except.ok.inj (hloras.symm.trans hphases.loras)
  -- The waiting loop counts the adapters it admits, from what the running loop recorded.
  have hst₃ : st₃.scheduler.adapters.card ≤ maxLoras := by
    rcases hphases.waiting with rfl | ⟨hpre, hmoves⟩
    · exact (Finset.card_le_card hst₁).trans hfit
    · rcases hmoves.cases_head with rfl | ⟨_, hfirst, -⟩
      · exact (Finset.card_le_card hst₁).trans hfit
      · rcases counts _ _ _ limit hphases.runningLoop hloras hpre hfirst.move.budget with
          hcounted | hall
        · have hstart : Counted maxLoras { st₁ with scheduledLoras := loras } :=
            ⟨hran.config ▸ limit, hcounted, hcard⟩
          have hlast := hmoves.counted hstart
          exact (Finset.card_le_card hlast.counted).trans hlast.fit
        · obtain ⟨hlisted, hlora⟩ := hmoves.listed_subset
          refine (Finset.card_le_card (Scheduler.adaptersOf_subset ?_ ?_)).trans hall
          · intro id hid
            have hmem := hlisted (mem_append_left _ hid)
            simpa [ScheduleState.listed, hran.skipped] using hmem
          · intro id _ l hl
            rw [hlora] at hl
            exact hl
  -- What follows moves no request and changes no adapter.
  have hall : s''.lora = st₃.scheduler.lora ∧ s''.running = st₃.scheduler.running := by
    obtain ⟨waiting, rfl, -, -⟩ := putBack_eq_ok hphases.putBack
    have hlast : s''.Labelled ∧ s''.identities = st₃.scheduler.identities ∧
        s''.running = st₃.scheduler.running := by
      refine foldlM_advance_preserves
        (P := fun t => t.Labelled ∧ t.identities = st₃.scheduler.identities ∧
          t.running = st₃.scheduler.running) ?_ hadvance
        ⟨(hphases.filed hs).2.labelled, rfl, rfl⟩
      intro t entry u ⟨hlabelled, hsame, hrunning⟩ hu
      obtain ⟨hlabelled', hsame'⟩ := advance_identities hlabelled hu
      obtain ⟨_, _, -, -, rfl⟩ := advance_eq_ok hu
      exact ⟨hlabelled', hsame'.trans hsame, hrunning⟩
    exact ⟨Scheduler.lora_of_identities hlast.2.1, hlast.2.2⟩
  refine (Finset.card_le_card (Scheduler.adaptersOf_subset ?_ ?_)).trans hst₃
  · intro id hid
    exact hall.2 ▸ hid
  · intro id _ l hl
    rw [← hall.1]
    exact hl

theorem addRequest_adapters {r : Request} (hs : s.Filed)
    (unknown : s.requests r.requestId = none) (hok : s.addRequest r = .ok s') :
    s'.adapters ⊆ s.adapters := by
  obtain ⟨_, -, hok⟩ := bind_eq_ok.mp hok
  cases hok
  refine Scheduler.adaptersOf_subset (List.Subset.refl _) ?_
  intro id hid l hl
  obtain ⟨-, _, hr', -⟩ := (hs.lists.mem_running id).mp hid
  have hne : id ≠ r.requestId := by
    rintro rfl
    rw [unknown] at hr'
    cases hr'
  simpa [Scheduler.lora, Scheduler.setRequest, hne] using hl

theorem finishRequests_adapters {ids : List String} {status : RequestStatus}
    {delayFreeBlocks : String → Bool} (hs : s.Filed)
    (hok : s.finishRequests ids status delayFreeBlocks = .ok s') : s'.adapters ⊆ s.adapters := by
  have hremembers := finishRequests_remembers hs hok
  obtain ⟨-, running, _, hrunning, -, hfold⟩ := finishRequests_eq_ok hok
  have hsame : ∀ (valid : List Request) (t : Scheduler),
      valid.foldlM (Scheduler.finishRequest status delayFreeBlocks) t = .ok s' →
        s'.running = t.running := by
    intro valid
    induction valid with
    | nil =>
      intro t ht
      rw [Except.ok.inj ht]
    | cons r rest ih =>
      intro t ht
      obtain ⟨u, hfirst, hrest⟩ := foldlM_cons_eq_ok.mp ht
      exact (ih u hrest).trans (finishRequest_eq_ok hfirst).2.1
  refine Scheduler.adaptersOf_subset ?_ fun id _ l hl => Scheduler.lora_of_remembers hremembers hl
  rw [hsame _ _ hfold, foldlM_removeRunning_eq_ok hs.lists.nodup_running hrunning]
  exact filter_sublist.subset

theorem updateFromOutput_adapters {batch : SchedulerOutput} {out : ModelRunnerOutput}
    {outputs : List (ℕ × List EngineCoreOutput)} (hs : s.Filed)
    (hok : s.updateFromOutput batch out = .ok (s', outputs)) : s'.adapters ⊆ s.adapters := by
  have hremembers := updateFromOutput_remembers hs hok
  refine Scheduler.adaptersOf_subset ?_ fun id _ l hl => Scheduler.lora_of_remembers hremembers hl
  obtain ⟨st, _, hupds, hremove, hsending, -⟩ := updateFromOutput_eq_ok hok
  have hst : st.Filed ∧ st.scheduler.running = s.running := by
    refine foldlM_updateOne_preserves
      (P := fun u => u.Filed ∧ u.scheduler.running = s.running)
      hupds ⟨⟨by simpa using hs.lists, hs.policy⟩, rfl⟩
      (fun u hu => hu.1.lists.labelled) ?_
    intro u r v _ ⟨hu, hrunning⟩ known hmove
    refine ⟨hmove.filed known hu, ?_⟩
    cases hmove with
    | goOn _ _ _ _ scheduler _ _ =>
      rw [scheduler]
      exact hrunning
    | stop _ _ _ freed _ scheduler _ _ =>
      rw [scheduler]
      exact (freeRequest_frame freed).2.2.1.trans hrunning
  obtain ⟨_, -, hok⟩ := bind_eq_ok.mp hremove
  cases hok
  refine foldlM_finishSending_preserves (P := fun t => t.running ⊆ s.running) ?_ hsending ?_
  · intro t id u hrunning hu
    obtain ⟨r, -, hu⟩ := bind_eq_ok.mp hu
    obtain ⟨-, _, -, rfl⟩ := Scheduler.freeBlocks_eq_ok hu
    exact hrunning
  · intro id hid
    exact hst.2 ▸ mem_of_mem_filter hid

/-- A step in which no call overlooks adapters. -/
structure CountingStep (env : Kv.HashEnv) (p : Pipeline) (event : Event) (q : Pipeline) :
    Prop where
  step : Step env p event q
  counts : ∀ ext batch, event = .scheduled ext batch → p.scheduler.CountsAdapters env

theorem CountingStep.adapters_card {p q : Pipeline} {event : Event}
    (h : CountingStep env p event q) (hp : p.scheduler.Filed)
    (limit : p.scheduler.config.maxLoras = some maxLoras)
    (hfit : p.scheduler.adapters.card ≤ maxLoras) : q.scheduler.adapters.card ≤ maxLoras := by
  obtain ⟨hstep, hcounts⟩ := h
  cases hstep with
  | added _ unknown returns =>
    exact (Finset.card_le_card (addRequest_adapters hp unknown returns)).trans hfit
  | finished returns =>
    exact (Finset.card_le_card (finishRequests_adapters hp returns)).trans hfit
  | scheduled returns _ => exact schedule_adapters hp limit hfit (hcounts _ _ rfl) returns
  | updated returns =>
    exact (Finset.card_le_card (updateFromOutput_adapters hp returns)).trans hfit
  | resetPrefixCache => exact hfit

end Calls

/-- In every run in which no call overlooks adapters, the running requests use at most as many
adapters as allowed, and the assertion about the scheduled ones holds in the next call. -/
theorem adapters_fit {env : Kv.HashEnv} {config : SchedulerConfig} {encoderCacheSize maxLoras : ℕ}
    {kvCacheManager : Kv.KVCacheManager} {events : List Event} {p : Pipeline}
    (limit : config.maxLoras = some maxLoras)
    (run : Execution (CountingStep env) ⟨.new config encoderCacheSize kvCacheManager, []⟩
      events p) :
    p.scheduler.adapters.card ≤ maxLoras ∧
      ∀ st, p.scheduler.startSchedule.runningLoop env p.scheduler.running.length = .ok st →
        ∃ st', st.recordLoras = .ok st' := by
  have hinvariant : p.scheduler.Filed ∧ p.scheduler.config = config ∧
      p.scheduler.adapters.card ≤ maxLoras := by
    refine run.preserves (P := fun p => p.scheduler.Filed ∧ p.scheduler.config = config ∧
      p.scheduler.adapters.card ≤ maxLoras) ?_ ⟨new_filed _ _ _, rfl, by
        simp [Scheduler.adapters, Scheduler.adaptersOf, Scheduler.new]⟩
    intro p event q hinv hstep
    obtain ⟨hp, hconfig, hfit⟩ := hinv
    exact ⟨hstep.step.filed hp, (hstep.step.config_eq hp).trans hconfig,
      hstep.adapters_card hp (hconfig ▸ limit) hfit⟩
  obtain ⟨hfiled, hconfig, hfit⟩ := hinvariant
  refine ⟨hfit, fun st hst => ?_⟩
  have hran := (runningMoves_of_eq_ok hfiled.labelled hst).ranBefore (ranBefore_start _)
  obtain ⟨_, hloras, -⟩ := recordLoras_isOk hran (hconfig ▸ limit) hfit
  exact ⟨_, hloras⟩

/-- The adapters in use have been counted when the call goes on to the waiting requests. -/
def Scheduler.adaptersCounted (env : Kv.HashEnv) (s : Scheduler) : Bool :=
  ((s.startSchedule.runningLoop env s.running.length).toOption.bind fun st₁ =>
    st₁.recordLoras.toOption).all fun st => decide (st.scheduler.adapters ⊆ st.scheduledLoras)

theorem Scheduler.countsAdapters_of_counted {env : Kv.HashEnv} {s : Scheduler}
    (h : s.adaptersCounted env = true) : s.CountsAdapters env := by
  intro st₁ st maxLoras _ hloop hloras _ _
  unfold adaptersCounted at h
  rw [hloop] at h
  change (st₁.recordLoras.toOption).all _ = true at h
  rw [hloras] at h
  exact .inl (of_decide_eq_true h)

/-! ### Batches in flight -/

section Example

/-- One adapter at a time, in a pipeline. -/
def oneAdapter : SchedulerConfig where
  maxNumRunningReqs := 4
  maxNumScheduledTokens := 8
  maxModelLen := 8
  maxLoras := some 1
  usePp := true
  blockSize := 4

def adapted (requestId : String) (lora : ℤ) : Request where
  requestId := requestId
  promptTokenIds := [1, 2, 3]
  maxTokens := 4
  loraIntId := some lora

/-- A request with an adapter runs when one with another and one with the same adapter wait. -/
def sharedAdapterCommands : List Command :=
  [.add (adapted "a" 1), .schedule {}, .update { sampledTokenIds := fun _ => some [7] },
    .add (adapted "b" 2), .add (adapted "c" 1), .schedule {}]

def Pipeline.counting (env : Kv.HashEnv) (p : Pipeline) : Command → Bool
  | .schedule _ => p.scheduler.adaptersCounted env
  | _ => true

/-- The one with the other adapter is put aside. -/
theorem adapters_fit_shared : ∃ kv events p,
    Kv.KVCacheManager.new (Pipeline.oneGroup 12 4) 8 false false false = .ok kv ∧
    Execution (CountingStep Kv.encodedHash) ⟨.new oneAdapter 0 kv, []⟩ events p ∧
    p.scheduler.running = ["a", "c"] ∧ p.scheduler.waiting.ids = ["b"] ∧
    p.scheduler.adapters.card ≤ 1 := by
  have hvalues : (Pipeline.followsIf (Pipeline.counting Kv.encodedHash) Kv.encodedHash oneAdapter 0
      (Pipeline.oneGroup 12 4) false sharedAdapterCommands).map
        (fun p => (p.scheduler.running, p.scheduler.waiting.ids)) = some (["a", "c"], ["b"]) := by
    decide +kernel
  obtain ⟨p, hp, hvalues⟩ := Option.map_eq_some_iff.mp hvalues
  obtain ⟨hrunning, hwaiting⟩ := Prod.mk.inj hvalues
  obtain ⟨kv, events, hkv, hrun, -⟩ := Pipeline.execution_of_followsIf
    (R := CountingStep Kv.encodedHash) (P := fun _ => True) (fun _ _ => trivial)
    (fun p q command event _ _ allowed his hstep => ⟨⟨hstep, fun ext batch heq => by
      subst heq
      cases command with
      | schedule _ => exact Scheduler.countsAdapters_of_counted allowed
      | _ => cases his⟩, trivial⟩) hp
  exact ⟨kv, events, p, hkv, hrun, hrunning, hwaiting, (adapters_fit rfl hrun).1⟩

/-- The second request is admitted while the tokens of the first one are in flight. -/
def twoAdaptersCommands : List Command :=
  let out : ModelRunnerOutput := { sampledTokenIds := fun _ => some [7] }
  [.add (adapted "a" 1), .schedule {}, .add (adapted "b" 2), .schedule {}, .update out,
    .update out]

/-- Then two adapters are in use, and the assertion fails in the next call. -/
theorem two_adapters : ∃ kv events p,
    Kv.KVCacheManager.new (Pipeline.oneGroup 12 4) 8 false false false = .ok kv ∧
    oneAdapter.maxLoras = some 1 ∧
    Execution (Step Kv.encodedHash) ⟨.new oneAdapter 0 kv, []⟩ events p ∧
    p.scheduler.adapters = {1, 2} ∧
    ∃ st, p.scheduler.startSchedule.runningLoop Kv.encodedHash p.scheduler.running.length =
        .ok st ∧ st.recordLoras.toOption.isNone = true := by
  have hvalues : ((Pipeline.follows Kv.encodedHash oneAdapter 0 (Pipeline.oneGroup 12 4) false
      twoAdaptersCommands).bind fun p => (p.scheduler.startSchedule.runningLoop Kv.encodedHash
        p.scheduler.running.length).toOption.map fun st =>
          (p.scheduler.adapters, st.recordLoras.toOption.isNone)) = some ({1, 2}, true) := by
    decide +kernel
  obtain ⟨p, hp, hvalues⟩ := Option.bind_eq_some_iff.mp hvalues
  obtain ⟨st, hst, hvalues⟩ := Option.map_eq_some_iff.mp hvalues
  obtain ⟨hadapters, hnone⟩ := Prod.mk.inj hvalues
  obtain ⟨kv, events, hnew, hrun⟩ := Pipeline.execution_of_follows hp
  exact ⟨kv, events, p, hnew, rfl, hrun, hadapters, st, toOption_eq_some.mp hst, hnone⟩

end Example

end Sched
