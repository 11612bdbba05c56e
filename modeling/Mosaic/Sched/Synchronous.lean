import Mosaic.Sched.Counters

/-!
# Synchronous operation

A batch is scheduled when the output of the last one was applied. Between two calls, every request
has a token left to compute, so that a running request has a token to schedule as long as the limit
of the model does not forbid it.
-/

namespace Sched

open List Fallible Function Prod

open Transition (Execution)

/-- The runner returns a token, or an output of the pooler, for every request all of whose tokens
are computed. -/
def Answers (s : Scheduler) (batch : SchedulerOutput) (out : ModelRunnerOutput) : Prop :=
  ∀ id ∈ batch.scheduledIds, ∀ r, s.requests id = some r → r.numTokens ≤ r.numComputedTokens →
    (∀ given, out.sampledTokenIds id = some given → given ≠ []) ∨
      (r.hasPoolingParams = true ∧
        ∃ hasOutput, out.poolerOutput = some hasOutput ∧ hasOutput id = true)

/-- A step of synchronous operation without a connector. Prompts are not empty and not longer than
the model allows, and an id is not used again while a batch with it is in flight, since requests are
added between two steps of the engine only. -/
structure SynchronousStep (env : Kv.HashEnv) (p : Pipeline) (event : Event) (q : Pipeline) :
    Prop where
  step : Step env p event q
  added : ∀ r, event = .added r → 1 ≤ r.numPromptTokens ∧
    r.numPromptTokens ≤ p.scheduler.config.maxModelLen ∧
    ∀ batch ∈ p.inFlight, r.requestId ∉ batch.scheduledIds
  scheduled : ∀ ext batch, event = .scheduled ext batch → p.inFlight = []
  updated : ∀ out, event = .updated out → out.finishedSending = [] ∧
    ∀ batch ∈ p.inFlight, Answers p.scheduler batch out

/-! ### Counters between two calls -/

/-- A request that is in no batch has a token left. -/
structure Request.Idle (maxModelLen : ℕ) (r : Request) : Prop where
  status : r.status ≠ .waitingForRemoteKvs
  length : r.numTokens ≤ maxModelLen
  nonneg : 0 ≤ r.numComputedTokens
  left : r.numComputedTokens < r.numTokens

/-- A request that is in a batch with `k` draft tokens. If all of them are rejected, its computed
tokens do not fall below zero. -/
structure Request.Pending (maxModelLen k : ℕ) (r : Request) : Prop where
  status : r.status ≠ .waitingForRemoteKvs
  length : r.numTokens ≤ maxModelLen
  nonneg : 0 ≤ r.numComputedTokens
  fits : r.numComputedTokens ≤ r.numTokens + k
  spare : 0 < k → k < r.numComputedTokens

theorem Request.Idle.ready {maxModelLen : ℕ} {r : Request} (h : r.Idle maxModelLen) :
    r.Ready maxModelLen := by
  have hlength := h.length
  have hnonneg := h.nonneg
  have hleft := h.left
  exact ⟨h.status, by omega, hlength, hnonneg, hleft.le, by omega, fun heq => by omega⟩

variable {maxModelLen k : ℕ}

/-- A request that was given nothing in a call stays idle. -/
theorem Served.idle {r₀ r : Request} (h : Served maxModelLen r₀ r none k)
    (same : SameTokens r₀ r) (idle : r₀.Idle maxModelLen) : r.Idle maxModelLen := by
  have hready := h.ready same idle.ready
  refine ⟨hready.status, hready.length, hready.nonneg, ?_⟩
  have hnonneg := idle.nonneg
  have hleft := idle.left
  rw [same.numTokens]
  cases h with
  | kept _ computed _ =>
    rw [computed]
    exact hleft
  | preempted _ computed => omega

/-- A request that was given tokens in a call is in a batch, whether it was preempted or not. -/
theorem Served.pending {r₀ r : Request} {n : ℤ}
    (h : Served maxModelLen r₀ r (some n) k) (same : SameTokens r₀ r)
    (idle : r₀.Idle maxModelLen) :
    ({ r with numComputedTokens := r.numComputedTokens + n } : Request).Pending maxModelLen k := by
  have hstatus := h.status_ne idle.ready
  have htokens : ({ r with numComputedTokens := r.numComputedTokens + n } : Request).numTokens =
      r₀.numTokens := same.numTokens
  cases h with
  | @given start _ _ positive nonneg left fits whole _ _ status =>
    have hcomputed : r.numComputedTokens = start ∨ r.numComputedTokens = 0 :=
      status.imp And.right And.right
    refine ⟨hstatus, ?_, ?_, ?_, fun hk => ?_⟩
    · rw [htokens]
      exact idle.length
    · dsimp only
      omega
    · rw [htokens]
      dsimp only
      omega
    · have hall := whole hk
      dsimp only
      omega

/-- A request that goes on after the output was applied has a token left. -/
theorem GoesOn.idle {batch : SchedulerOutput} {out : ModelRunnerOutput}
    {r r' : Request} {given : List ℤ} (h : GoesOn batch out maxModelLen r given r')
    (hk : ((batch.scheduledSpecDecodeTokens.lookup r.requestId).getD []).length = k)
    (pending : r.Pending maxModelLen k)
    (answered : r.numTokens ≤ r.numComputedTokens →
      (∀ tokens, out.sampledTokenIds r.requestId = some tokens → tokens ≠ []) ∨
        (r.hasPoolingParams = true ∧ ∃ hasOutput, out.poolerOutput = some hasOutput ∧
          hasOutput r.requestId = true)) : r'.Idle maxModelLen := by
  have hcomputed := h.grown.numComputedTokens hk
  have htokens := h.grown.numTokens
  have hlength := pending.length
  have hnonneg := pending.nonneg
  have hfits := pending.fits
  have hspare := pending.spare
  -- a request whose tokens were all computed was given one
  have hgiven : r.numTokens ≤ r.numComputedTokens → 0 < given.length := by
    intro hall
    rcases answered hall with hsampled | ⟨hpooling, hasOutput, hout, htrue⟩
    · exact length_pos_of_ne_nil (hsampled given h.sampled)
    · have hfalse := h.pooled hpooling hasOutput hout
      rw [htrue] at hfalse
      cases hfalse
  refine ⟨?_, ?_, ?_, ?_⟩
  · rw [h.status]
    exact pending.status
  · by_cases hnil : given = []
    · rw [htokens, hnil]
      exact hlength
    · exact (h.short hnil).le
  · rw [hcomputed]
    split <;> omega
  · rw [hcomputed, htokens]
    split <;> omega

/-- The counters of the requests in synchronous operation. -/
structure Tallied (p : Pipeline) : Prop where
  filed : p.scheduler.Filed
  connector : p.scheduler.config.hasConnector = false
  wellFormed : p.scheduler.kvCacheManager.coordinator.WellFormed p.scheduler.kvCacheManager.spec
    p.scheduler.kvCacheManager.numKvCacheGroups
  depth : p.inFlight.length ≤ 1
  nodup : ∀ batch ∈ p.inFlight, batch.scheduledIds.Nodup
  idle : ∀ id r, p.scheduler.requests id = some r →
    (∀ batch ∈ p.inFlight, id ∉ batch.scheduledIds) → r.Idle p.scheduler.config.maxModelLen
  pending : ∀ batch ∈ p.inFlight, ∀ id ∈ batch.scheduledIds, ∀ r,
    p.scheduler.requests id = some r → r.Pending p.scheduler.config.maxModelLen
      ((batch.scheduledSpecDecodeTokens.lookup id).getD []).length

namespace Tallied

variable {env : Kv.HashEnv} {ext : External} {p q : Pipeline} {s' : Scheduler}
  {batch : SchedulerOutput}

/-- Between two calls, every request is idle. -/
theorem servable (h : Tallied p) (hnone : p.inFlight = []) : p.scheduler.Servable where
  connector := h.connector
  wellFormed := h.wellFormed
  ready id r hr := by
    refine (h.idle id r hr ?_).ready
    rw [hnone]
    exact nofun

/-- Requests are forgotten, or change in a way that does not matter. -/
theorem shrink (h : Tallied p) (hfiled : s'.Filed) (config : s'.config = p.scheduler.config)
    (shape : Kv.SameShape p.scheduler.kvCacheManager s'.kvCacheManager)
    (requests : ∀ id r, s'.requests id = some r → p.scheduler.requests id = some r) :
    Tallied { p with scheduler := s' } where
  filed := hfiled
  connector := by
    rw [config]
    exact h.connector
  wellFormed := shape.wellFormed h.wellFormed
  depth := h.depth
  nodup := h.nodup
  idle id r hr hid := by
    rw [config]
    exact h.idle id r (requests id r hr) hid
  pending batch hbatch id hid r hr := by
    rw [config]
    exact h.pending batch hbatch id hid r (requests id r hr)

theorem finished {ids : List String} {status : RequestStatus} {delayFreeBlocks : String → Bool}
    (h : Tallied p) (hok : p.scheduler.finishRequests ids status delayFreeBlocks = .ok s') :
    Tallied { p with scheduler := s' } := by
  have hall := finishRequests_induction (P := fun t =>
    Kv.SameShape p.scheduler.kvCacheManager t.kvCacheManager ∧
      ∀ id r, t.requests id = some r → p.scheduler.requests id = some r) h.connector hok
    (fun _ _ => ⟨.refl _, fun _ _ hr => hr⟩) ?_
  · exact h.shrink (finishRequests_filed hok h.filed) (finishRequests_config hok) hall.1 hall.2
  · rintro t _ id ⟨hshape, ht⟩ hforgets
    refine ⟨hshape.trans hforgets.table.shape, fun a r hr => ht a r ?_⟩
    rw [hforgets.requests, update_apply] at hr
    split at hr
    · cases hr
    · exact hr

theorem added {r : Request} (h : Tallied p) (fresh : r.Fresh)
    (unknown : p.scheduler.requests r.requestId = none) (hpos : 1 ≤ r.numPromptTokens)
    (hlength : r.numPromptTokens ≤ p.scheduler.config.maxModelLen)
    (hnew : ∀ batch ∈ p.inFlight, r.requestId ∉ batch.scheduledIds)
    (hok : p.scheduler.addRequest r = .ok s') : Tallied { p with scheduler := s' } := by
  have hfiled := addRequest_filed hok unknown fresh h.filed
  obtain ⟨_, -, hok⟩ := bind_eq_ok.mp hok
  cases hok
  have htokens : r.numTokens = r.numPromptTokens := by
    rw [Request.numTokens_eq, Request.numOutputTokens, fresh.outputTokenIds, length_nil, add_zero]
  refine ⟨hfiled, h.connector, h.wellFormed, h.depth, h.nodup, fun id x hx hid => ?_,
    fun batch hbatch id hid x hx => ?_⟩
  · by_cases heq : id = r.requestId
    · subst heq
      obtain rfl : r = x := by simpa [Scheduler.setRequest] using hx
      refine ⟨?_, htokens.symm ▸ hlength, fresh.numComputedTokens.ge, ?_⟩
      · rw [fresh.status]
        split <;> exact fun h => by cases h
      · rw [fresh.numComputedTokens]
        omega
    · refine h.idle id x ?_ hid
      simpa [Scheduler.setRequest, heq] using hx
  · have heq : id ≠ r.requestId := fun heq => hnew batch hbatch (heq ▸ hid)
    refine h.pending batch hbatch id hid x ?_
    simpa [Scheduler.setRequest, heq] using hx

/-- What is given tokens by a call is in its batch. -/
theorem scheduled {executed : Bool} (h : Tallied p) (hnone : p.inFlight = [])
    (hok : p.scheduler.schedule env ext = .ok (s', batch))
    (dropped : executed = false → batch.totalNumScheduledTokens ≤ 0) :
    Tallied ⟨s', if executed then p.inFlight ++ [batch] else p.inFlight⟩ := by
  have hcall := schedule_served h.filed (h.servable hnone) hok
  have hcfg := schedule_config h.filed.labelled hok
  rw [hnone]
  -- a batch that is dropped is empty
  have hflight : ∀ b ∈ (if executed then [] ++ [batch] else [] : List SchedulerOutput),
      b = batch := by
    intro b hb
    split at hb
    · exact mem_singleton.mp hb
    · cases hb
  have hlisted : executed = false → batch.numScheduledTokens = [] := by
    intro hdrop
    have htotal := dropped hdrop
    rw [hcall.total] at htotal
    by_contra hsome
    have hpositive : ∀ (d : List (String × ℤ)), (∀ entry ∈ d, 1 ≤ entry.2) → d ≠ [] →
        0 < (d.map Prod.snd).sum := by
      intro d hd hd'
      refine sum_pos _ (fun n hn => ?_) (by simpa using hd')
      obtain ⟨entry, hentry, rfl⟩ := mem_map.mp hn
      have hone := hd entry hentry
      omega
    have hsum := hpositive _ (fun entry hentry => hcall.positive hentry) hsome
    omega
  have hidle : ∀ id r', s'.requests id = some r' → id ∉ batch.scheduledIds →
      r'.Idle s'.config.maxModelLen := by
    intro id r' hr' hid
    obtain ⟨r₀, r, hr₀, hsame, hserved, rfl⟩ := hcall.served id r' hr'
    rw [hcfg]
    rw [lookup_eq_none_of_notMem hid] at hserved ⊢
    have hr₀' := h.idle id r₀ hr₀ (by simp [hnone])
    have hr := hserved.idle hsame hr₀'
    rw [Option.getD_none, add_zero]
    exact hr
  refine ⟨schedule_filed hok h.filed, ?_, hcall.shape.wellFormed h.wellFormed, ?_, ?_,
    fun id r' hr' hid => ?_, fun b hb id hid r' hr' => ?_⟩
  · dsimp only
    rw [hcfg]
    exact h.connector
  · dsimp only
    split <;> simp
  · intro b hb
    rw [hflight b hb]
    exact hcall.nodup
  · refine hidle id r' hr' ?_
    cases executed with
    | true => exact hid batch (by simp)
    | false =>
      unfold SchedulerOutput.scheduledIds
      rw [hlisted rfl]
      exact not_mem_nil
  · obtain rfl := hflight b hb
    obtain ⟨r₀, r, hr₀, hsame, hserved, rfl⟩ := hcall.served id r' hr'
    obtain ⟨entry, hentry, rfl⟩ := mem_map.mp hid
    rw [lookup_of_mem hcall.nodup hentry] at hserved ⊢
    rw [hcfg]
    exact hserved.pending hsame (h.idle _ r₀ hr₀ (by simp [hnone]))

theorem updated {s : Scheduler} {out : ModelRunnerOutput}
    {outputs : List (ℕ × List EngineCoreOutput)} {rest : List SchedulerOutput}
    (h : Tallied ⟨s, batch :: rest⟩) (sending : out.finishedSending = [])
    (answers : Answers s batch out)
    (hok : s.updateFromOutput batch out = .ok (s', outputs)) : Tallied ⟨s', rest⟩ := by
  have hlast : rest = [] := by
    have hdepth := h.depth
    rw [length_cons] at hdepth
    exact eq_nil_of_length_eq_zero (by omega)
  subst hlast
  have hconfig := updateFromOutput_config h.filed hok
  have hshape := updateFromOutput_induction
    (P := fun _ t => Kv.SameShape s.kvCacheManager t.kvCacheManager) h.filed.labelled h.connector
    sending hok (.refl _) (fun _ _ _ ht _ => ht) (fun _ _ _ _ _ ht _ _ => ht)
    (fun _ _ _ _ ht hforgets => ht.trans hforgets.table.shape) (fun _ _ _ _ ht => ht)
  refine ⟨updateFromOutput_filed hok h.filed, ?_, hshape.wellFormed h.wellFormed, Nat.zero_le _,
    nofun, fun id r' hr' _ => ?_, nofun⟩
  · dsimp only
    rw [hconfig]
    exact h.connector
  · dsimp only
    rw [hconfig]
    rcases updateFromOutput_requests h.filed.labelled h.connector sending
      (h.nodup batch mem_cons_self) hok hr' with ⟨hid, hold⟩ | ⟨hid, r, given, hr, hgoesOn⟩
    · exact h.idle id r' hold (by simpa using hid)
    · obtain rfl := h.filed.labelled id r hr
      exact hgoesOn.idle rfl (h.pending batch mem_cons_self _ hid r hr)
        (answers _ hid r hr)

end Tallied

section Runs

variable {env : Kv.HashEnv} {config : SchedulerConfig} {encoderCacheSize maxModelLen : ℕ}
  {cfg : Kv.KVCacheConfig} {enableCaching useEagle enableKvCacheEvents : Bool}
  {kv : Kv.KVCacheManager} {events : List Event} {p q : Pipeline} {event : Event}

theorem tallied_new (hnew : Kv.KVCacheManager.new cfg maxModelLen enableCaching useEagle
      enableKvCacheEvents = .ok kv) (connector : config.hasConnector = false) :
    Tallied ⟨.new config encoderCacheSize kv, []⟩ where
  filed := new_filed _ _ _
  connector := connector
  wellFormed := (Kv.KVCacheManager.new_eq_ok hnew).2.1
  depth := Nat.zero_le _
  nodup _ hbatch := nomatch hbatch
  idle id r hr := by
    have hnone : (none : Option Request) = some r := hr
    cases hnone
  pending _ hbatch := nomatch hbatch

theorem SynchronousStep.tallied (h : SynchronousStep env p event q) (hp : Tallied p) :
    Tallied q := by
  have hadded := h.added
  have hscheduled := h.scheduled
  have hupdated := h.updated
  cases h.step with
  | @added _ r s fresh unknown returns =>
    obtain ⟨hpos, hlength, hnew⟩ := hadded r rfl
    exact hp.added fresh unknown hpos hlength hnew returns
  | finished returns => exact hp.finished returns
  | @scheduled _ ext s batch _ returns dropped =>
    exact hp.scheduled (hscheduled ext batch rfl) returns dropped
  | @updated _ _ batch _ out _ returns =>
    obtain ⟨hsending, hanswers⟩ := hupdated out rfl
    exact hp.updated hsending (hanswers batch mem_cons_self) returns
  | resetPrefixCache =>
    exact hp.shrink ⟨hp.filed.lists, hp.filed.policy⟩ rfl ⟨rfl, rfl, rfl, rfl, rfl, rfl, rfl⟩
      fun _ _ hr => hr

end Runs

/-! ### Requests of the greatest length -/

/-- No request with as many tokens as the model takes is admitted with a part of them: one that
passes the gates and has slots is given all tokens that are not computed. -/
def Scheduler.AdmitsWhole (env : Kv.HashEnv) (ext : External) (s : Scheduler) : Prop :=
  ∀ st r found inputs n newEncoderBudget kv newBlocks, Considered env ext s st r →
    (r.status = .waiting ∨ r.status = .preempted) →
    ScheduleState.findComputedTokens env ext st.scheduler r = .ok found →
    found.loadKvAsync = false →
    (st.setKv found.kv).planWaiting r found = .ok (.schedule inputs n newEncoderBudget) →
    st.waitingSlots env r found n = .ok (kv, some newBlocks) →
    r.numTokens = st.scheduler.config.maxModelLen → found.numComputedTokens + n = r.numTokens

/-- The running requests of the greatest length are given all their tokens in this call. -/
def ScheduleState.Whole (st : ScheduleState) : Prop :=
  ∀ id r, st.scheduler.requests id = some r → r.status = .running →
    r.numTokens = st.scheduler.config.maxModelLen →
    ∃ n, st.numScheduledTokens.lookup id = some n ∧ r.numComputedTokens + n = r.numTokens

section Whole

variable {env : Kv.HashEnv} {ext : External} {s s' : Scheduler} {st st' : ScheduleState}
  {r : Request}

/-- One request changes. -/
theorem ScheduleState.Whole.change (h : st.Whole) (r' : Request)
    (config : st'.scheduler.config = st.scheduler.config)
    (requests : st'.scheduler.requests =
      update st.scheduler.requests r.requestId (some r'))
    (counts : ∀ id ≠ r.requestId,
      st'.numScheduledTokens.lookup id = st.numScheduledTokens.lookup id)
    (whole : r'.status = .running → r'.numTokens = st.scheduler.config.maxModelLen →
      ∃ n, st'.numScheduledTokens.lookup r.requestId = some n ∧
        r'.numComputedTokens + n = r'.numTokens) : st'.Whole := by
  intro id x hx hruns hlength
  rw [config] at hlength
  rw [requests] at hx
  by_cases hid : id = r.requestId
  · subst hid
    rw [update_self] at hx
    cases hx
    exact whole hruns hlength
  · rw [update_of_ne hid] at hx
    rw [counts id hid]
    exact h id x hx hruns hlength

theorem Preempts.whole {n : ℤ} {victim : String} (h : Preempts env r n st victim st')
    (hst : st.Whole) : st'.Whole := by
  cases h with
  | @mk v kv kv' running waiting _ _ _ _ _ =>
    exact hst.change (r := v) v.preempted rfl rfl (fun _ _ => rfl) nofun

theorem PreemptsOthers.whole {n : ℤ} (h : PreemptsOthers env r n st st') (hst : st.Whole) :
    st'.Whole :=
  h.preserves (P := ScheduleState.Whole) (fun _ _ _ ht hlast => hlast.whole ht) hst

/-- The current request is not of the greatest length, since it was given no tokens so far. -/
theorem RunningMove.whole (h : RunningMove env st st') (hfiled : st.Filed) (hvisited : Visited st)
    (hst : st.Whole) : st'.Whole := by
  cases h with
  | pass _ _ => exact hst
  | @schedule st₁ _ r inputs n budget kv newBlocks current _ _ others _ scheduled =>
    obtain ⟨_, -, rfl⟩ := scheduleRunning_eq_ok scheduled
    have hnew := hvisited.current_notMem current
    have hnew₁ : r.requestId ∉ st₁.numScheduledTokens.map Prod.fst := by
      rw [others.thinned.numScheduledTokens]
      exact hnew
    refine (others.whole hst).change (r := r) (ScheduleState.trimSpec r n) rfl ?_
      (fun id hid => lookup_setKey_of_ne hnew₁ hid) fun _ hlength => ?_
    · dsimp only [ScheduleState.scheduledRunning, ScheduleState.setKv, Scheduler.setRequest]
      rw [trimSpec_requestId]
    · have htokens : (ScheduleState.trimSpec r n).numTokens = r.numTokens := by
        unfold ScheduleState.trimSpec
        split <;> rfl
      rw [htokens, others.config_eq] at hlength
      obtain ⟨_, hm, -⟩ := hst _ r current.known (current.runs hfiled) hlength
      rw [lookup_eq_none_of_notMem hnew] at hm
      cases hm
  | giveUp _ _ _ others itself => exact itself.whole (others.whole hst)

theorem CallMove.whole (h : CallMove env ext s st st')
    (admits : s.AdmitsWhole env ext) (hfiled : st.Filed) (hpre : st.preemptedReqs = [])
    (once : ScheduledOnce st) (hst : st.Whole) : st'.Whole := by
  obtain ⟨hmove, hconsidered⟩ := h
  cases hmove with
  | @remoteReady r r' _ _ _ _ ready =>
    obtain ⟨kv, -, -, rfl, rfl⟩ := remoteReady_eq_ok ready
    exact hst.change (r := r) _ rfl rfl (fun _ _ => rfl) nofun
  | @grammarReady r _ _ => exact hst.change (r := r) _ rfl rfl (fun _ _ => rfl) nofun
  | look _ _ => exact hst
  | skip _ _ _ _ => exact hst
  | noSlots _ _ _ _ => exact hst
  | @startRemoteLoad r _ _ _ _ _ _ _ _ _ _ _ _ _ _ _ =>
    exact hst.change (r := r) _ rfl rfl (fun _ _ => rfl) nofun
  | @admits r found kv _ waiting encoder inputs n budget front status _ looked plan slots sync _
      _ =>
    have hpassed := hconsidered (by simp [ScheduleState.admitted, ScheduleState.setKv]) r front
    have hnew := once.front_notMem hfiled hpre front
    refine hst.change (r := r) (ScheduleState.startRunning r found.numComputedTokens) rfl rfl
      (fun id hid => lookup_setKey_of_ne hnew hid) fun _ hlength => ⟨n, lookup_setKey_self hnew, ?_⟩
    exact admits st r found inputs n budget kv _ hpassed status looked sync plan slots hlength

theorem MidCall.whole (h : MidCall env ext s st) (hs : s.Filed) (admits : s.AdmitsWhole env ext)
    (start : s.startSchedule.Whole) : st.Whole := by
  refine (h.preserves (P := ScheduleState.Whole) hs start ?_ (fun _ _ ht => ht) ?_).2.2
  · exact fun _ _ _ _ ht hvisited hwhole hmove => hmove.whole ht hvisited hwhole
  · exact fun _ _ _ ht hnone honce hwhole hmove => hmove.whole admits ht hnone honce hwhole

/-- After a call, a running request of the greatest length is in the batch, and all its tokens
count as computed. -/
theorem schedule_whole {output : SchedulerOutput} (hs : s.Filed)
    (admits : s.AdmitsWhole env ext) (start : s.startSchedule.Whole)
    (hok : s.schedule env ext = .ok (s', output)) {id : String} {r' : Request}
    (hr' : s'.requests id = some r') (runs : r'.status = .running)
    (hlength : r'.numTokens = s.config.maxModelLen) :
    id ∈ output.scheduledIds ∧ r'.numTokens ≤ r'.numComputedTokens := by
  obtain ⟨st, _, hst, houtput, hadvance, rfl⟩ := schedule_eq_ok hok
  obtain ⟨_, _, _, hphases⟩ := phases_of_eq_ok hs.labelled hst
  have hlabelled : st.scheduler.takeFreedIds.Labelled := (hphases.filed hs).2.labelled
  have hcfg := hphases.config_eq
  obtain ⟨_, _, _, hmid, -, rfl⟩ := hphases.midCall hs.labelled
  have honce := (hmid.preserves (P := fun _ => True) hs trivial (fun _ _ _ _ _ _ _ _ => trivial)
    (fun _ _ _ => trivial) fun _ _ _ _ _ _ _ _ => trivial).2.1
  obtain ⟨hcounts, -⟩ := makeOutput_eq_ok houtput
  obtain ⟨r, hr, rfl⟩ := advances_requests hlabelled honce.nodup hadvance hr'
  obtain ⟨_, hn, hall⟩ :=
    hmid.whole hs admits start id r hr runs (hlength.trans (by rw [← hcfg]))
  constructor
  · unfold SchedulerOutput.scheduledIds
    rw [hcounts]
    exact mem_fst_of_lookup hn
  · rw [hn, Option.getD_some, hall]
    exact le_rfl

end Whole

/-- A step of synchronous operation that does not split a prompt of the greatest length. -/
structure WholeStep (env : Kv.HashEnv) (p : Pipeline) (event : Event) (q : Pipeline) : Prop
    extends SynchronousStep env p event q where
  whole : ∀ ext batch, event = .scheduled ext batch → p.scheduler.AdmitsWhole env ext

/-- The running requests of the greatest length are in flight with all their tokens. -/
structure Unsplit (p : Pipeline) : Prop extends Tallied p where
  unsplit : ∀ id r, p.scheduler.requests id = some r → r.status = .running →
    r.numTokens = p.scheduler.config.maxModelLen →
    r.numTokens ≤ r.numComputedTokens ∧ ∃ batch ∈ p.inFlight, id ∈ batch.scheduledIds

section Unsplit

variable {env : Kv.HashEnv} {config : SchedulerConfig} {encoderCacheSize maxModelLen : ℕ}
  {cfg : Kv.KVCacheConfig} {enableCaching useEagle enableKvCacheEvents : Bool}
  {kv : Kv.KVCacheManager} {events : List Event} {p q : Pipeline} {event : Event}

theorem WholeStep.unsplit (h : WholeStep env p event q) (hp : Unsplit p) : Unsplit q := by
  refine ⟨h.tallied hp.toTallied, ?_⟩
  have hcfg := h.step.config_eq hp.filed
  have hadded := h.added
  have hscheduled := h.scheduled
  have hupdated := h.updated
  have hwhole := h.whole
  intro id r' hr' runs hlength
  rw [hcfg] at hlength
  cases h.step with
  | @added _ r s fresh unknown returns =>
    obtain ⟨_, -, hok⟩ := bind_eq_ok.mp returns
    cases hok
    by_cases heq : id = r.requestId
    · subst heq
      obtain rfl : r = r' := by simpa [Scheduler.setRequest] using hr'
      rw [fresh.status] at runs
      split at runs <;> cases runs
    · refine hp.unsplit id r' ?_ runs hlength
      simpa [Scheduler.setRequest, heq] using hr'
  | finished returns =>
    have hkept := finishRequests_induction (P := fun t => ∀ id r, t.requests id = some r →
      p.scheduler.requests id = some r) hp.connector returns (fun _ _ _ _ hr => hr) ?_
    · exact hp.unsplit id r' (hkept id r' hr') runs hlength
    · intro t u a ht hforgets b r hr
      rw [hforgets.requests, update_apply] at hr
      split at hr
      · cases hr
      · exact ht b r hr
  | @scheduled _ ext s batch executed returns dropped =>
    have hnone := hscheduled ext batch rfl
    have hstart : p.scheduler.startSchedule.Whole := by
      intro a r hr hruns hlong
      obtain ⟨-, b, hb, -⟩ := hp.unsplit a r hr hruns hlong
      rw [hnone] at hb
      cases hb
    obtain ⟨hmem, hall⟩ :=
      schedule_whole hp.filed (hwhole ext batch rfl) hstart returns hr' runs hlength
    refine ⟨hall, batch, ?_, hmem⟩
    cases executed with
    | true => exact mem_append_right _ (mem_singleton_self _)
    | false =>
      -- a batch with this request is not dropped
      have hcall := schedule_served hp.filed (hp.servable hnone) returns
      obtain ⟨entry, hentry, -⟩ := mem_map.mp hmem
      have hpositive := single_le_sum (l := batch.numScheduledTokens.map Prod.snd)
        (fun n hn => by
          obtain ⟨_, he, rfl⟩ := mem_map.mp hn
          have hone := hcall.positive he
          omega) entry.2 (mem_map_of_mem hentry)
      have hone := hcall.positive hentry
      have htotal := dropped rfl
      rw [hcall.total] at htotal
      omega
  | @updated s _ batch rest out _ returns =>
    obtain ⟨hsending, hanswers⟩ := hupdated out rfl
    rcases updateFromOutput_requests hp.filed.labelled hp.connector hsending
      (hp.nodup batch mem_cons_self) returns hr' with
      ⟨hid, hold⟩ | ⟨hid, r, given, hr, hgoesOn⟩
    · obtain ⟨hall, b, hb, hmem⟩ := hp.unsplit id r' hold runs hlength
      refine ⟨hall, b, ?_, hmem⟩
      rcases mem_cons.mp hb with rfl | hlater
      · exact absurd hmem hid
      · exact hlater
    · -- a request of the greatest length that is given a token, or is done, stops
      obtain rfl := hp.filed.labelled id r hr
      have htokens := hgoesOn.grown.numTokens
      have hshort := hgoesOn.short
      by_cases hnil : given = []
      · rw [hnil, length_nil, add_zero] at htokens
        obtain ⟨hall, -⟩ :=
          hp.unsplit _ r hr (hgoesOn.status.symm.trans runs) (htokens.symm.trans hlength)
        rcases hanswers batch mem_cons_self _ hid r hr hall with
          hsampled | ⟨hpooling, hasOutput, hout, htrue⟩
        · exact absurd hnil (hsampled given hgoesOn.sampled)
        · have hfalse := hgoesOn.pooled hpooling hasOutput hout
          rw [htrue] at hfalse
          cases hfalse
      · have hlt := hshort hnil
        have hlong : r'.numTokens = s.config.maxModelLen := hlength
        omega
  | resetPrefixCache => exact hp.unsplit id r' hr' runs hlength

/-- In synchronous operation, as long as no prompt of the greatest length is split, every running
request has a token to schedule when the next call starts. -/
theorem offered_of_execution (hnew : Kv.KVCacheManager.new cfg maxModelLen enableCaching useEagle
      enableKvCacheEvents = .ok kv) (connector : config.hasConnector = false)
    (run : Execution (WholeStep env) ⟨.new config encoderCacheSize kv, []⟩ events p)
    (idle : p.inFlight = []) {id : String} (runs : id ∈ p.scheduler.running) {tokenBudget : ℤ}
    (budget : 1 ≤ tokenBudget) : ∃ r, p.scheduler.requests id = some r ∧
      1 ≤ p.scheduler.config.numNewTokens r tokenBudget := by
  have hp : Unsplit p := by
    refine run.preserves (fun _ _ _ hp hstep => hstep.unsplit hp)
      ⟨tallied_new hnew connector, fun id r hr => ?_⟩
    have hnone : (none : Option Request) = some r := hr
    cases hnone
  obtain ⟨-, r, hr, hruns⟩ := (hp.filed.lists.mem_running id).mp runs
  have hidle := hp.idle id r hr (by simp [idle])
  have hlength := hidle.length
  have hleft := hidle.left
  have hshort : r.numTokens ≠ p.scheduler.config.maxModelLen := by
    intro heq
    obtain ⟨-, _, hbatch, -⟩ := hp.unsplit id r hr hruns heq
    rw [idle] at hbatch
    cases hbatch
  refine ⟨r, hr, ?_⟩
  unfold SchedulerConfig.numNewTokens SchedulerConfig.clipLongPrefill Request.numTokensWithSpec
  split <;> omega

/-- In synchronous operation each request of a batch is given at least one token, behind those that
are computed, and none beyond its tokens and draft tokens. -/
theorem served_of_execution {ext : External} {s' : Scheduler} {output : SchedulerOutput}
    (hnew : Kv.KVCacheManager.new cfg maxModelLen enableCaching useEagle enableKvCacheEvents =
      .ok kv) (connector : config.hasConnector = false)
    (run : Execution (SynchronousStep env) ⟨.new config encoderCacheSize kv, []⟩ events p)
    (idle : p.inFlight = []) (returns : p.scheduler.schedule env ext = .ok (s', output)) :
    (∀ id r, p.scheduler.requests id = some r → r.Idle p.scheduler.config.maxModelLen) ∧
      ServedCall p.scheduler s' output := by
  have hp : Tallied p :=
    run.preserves (fun _ _ _ hp hstep => hstep.tallied hp) (tallied_new hnew connector)
  exact ⟨fun id r hr => hp.idle id r hr (by simp [idle]),
    schedule_served hp.filed (hp.servable idle) returns⟩

/-- Shorter requests meet the condition. -/
theorem Scheduler.admitsWhole_of_short {ext : External} {s : Scheduler} (hs : s.Filed)
    (servable : s.Servable)
    (short : ∀ id r, s.requests id = some r → r.numTokens < s.config.maxModelLen) :
    s.AdmitsWhole env ext := by
  intro st r found inputs n budget kv newBlocks considered _ _ _ _ _ hlength
  obtain ⟨hmid, front⟩ := considered.midCall hs.labelled
  obtain ⟨-, hserving⟩ := hmid.serving hs servable
  obtain ⟨r₀, hr₀, hsame, -⟩ := hserving.served _ r front.known
  have hlt := short _ r₀ hr₀
  rw [hserving.config, hsame.numTokens] at hlength
  omega

/-- All requests are shorter than the model allows. -/
def Short (p : Pipeline) : Prop :=
  ∀ id r, p.scheduler.requests id = some r → r.numTokens < p.scheduler.config.maxModelLen

/-- Requests stay short if their prompts are. -/
theorem SynchronousStep.short (h : SynchronousStep env p event q) (hp : Tallied p)
    (hshort : Short p)
    (prompts : ∀ r, event = .added r → r.numPromptTokens < p.scheduler.config.maxModelLen) :
    Short q := by
  have hcfg := h.step.config_eq hp.filed
  have hscheduled := h.scheduled
  have hupdated := h.updated
  intro id r' hr'
  rw [hcfg]
  cases h.step with
  | @added _ r s fresh _ returns =>
    obtain ⟨_, -, hok⟩ := bind_eq_ok.mp returns
    cases hok
    by_cases heq : id = r.requestId
    · subst heq
      obtain rfl : r = r' := by simpa [Scheduler.setRequest] using hr'
      have hprompt := prompts r rfl
      rw [r.numTokens_eq, Request.numOutputTokens, fresh.outputTokenIds]
      exact hprompt
    · refine hshort id r' ?_
      simpa [Scheduler.setRequest, heq] using hr'
  | finished returns =>
    have hkept := finishRequests_induction (P := fun t => ∀ id r, t.requests id = some r →
      p.scheduler.requests id = some r) hp.connector returns (fun _ _ _ _ hr => hr) ?_
    · exact hshort id r' (hkept id r' hr')
    · intro t u a ht hforgets b r hr
      rw [hforgets.requests, update_apply] at hr
      split at hr
      · cases hr
      · exact ht b r hr
  | @scheduled _ ext s batch _ returns _ =>
    have hcall := schedule_served hp.filed (hp.servable (hscheduled ext batch rfl)) returns
    -- A call of the scheduler advances requests and appends no token.
    obtain ⟨r₀, r, hr₀, hsame, -, rfl⟩ := hcall.served id r' hr'
    have htokens : r.numTokens = r₀.numTokens := hsame.numTokens
    exact htokens.trans_lt (hshort id r₀ hr₀)
  | @updated s _ batch rest out _ returns =>
    rcases updateFromOutput_requests hp.filed.labelled hp.connector (hupdated out rfl).1
      (hp.nodup batch mem_cons_self) returns hr' with ⟨-, hold⟩ | ⟨-, r, given, hr, hgoesOn⟩
    · exact hshort id r' hold
    · -- A request that goes on was not stopped by the test on its length.
      by_cases hnil : given = []
      · have htokens := hgoesOn.grown.numTokens
        rw [hnil, length_nil, add_zero] at htokens
        rw [htokens]
        exact hshort id r hr
      · exact hgoesOn.short hnil
  | resetPrefixCache => exact hshort id r' hr'

theorem SynchronousStep.whole_of_short (h : SynchronousStep env p event q) (hp : Tallied p)
    (hshort : Short p) : WholeStep env p event q where
  toSynchronousStep := h
  whole ext batch heq :=
    Scheduler.admitsWhole_of_short hp.filed (hp.servable (h.scheduled ext batch heq)) hshort

/-! ### Runs that are computed -/

/-- Nothing is in flight when requests are added or scheduled, and prompts are short. -/
def Pipeline.synchronous (p : Pipeline) : Command → Bool
  | .add r => p.inFlight.isEmpty && decide (1 ≤ r.numPromptTokens) &&
      decide (r.numPromptTokens < p.scheduler.config.maxModelLen)
  | .schedule _ => p.inFlight.isEmpty
  | _ => true

theorem wholeStep_of_synchronous {command : Command} (hp : Tallied p ∧ Short p)
    (allowed : p.synchronous command = true) (his : command.Is event) (hstep : Step env p event q)
    (answers : ∀ out, command = .update out → out.finishedSending = [] ∧
      ∀ id given, out.sampledTokenIds id = some given → given ≠ []) :
    WholeStep env p event q ∧ Tallied q ∧ Short q := by
  have h : SynchronousStep env p event q ∧
      ∀ r, event = .added r → r.numPromptTokens < p.scheduler.config.maxModelLen := by
    cases command with
    | add r =>
      obtain rfl := his
      simp only [Pipeline.synchronous, Bool.and_eq_true, List.isEmpty_iff,
        decide_eq_true_eq] at allowed
      obtain ⟨⟨hnone, hpos⟩, hlength⟩ := allowed
      refine ⟨⟨hstep, fun r' heq => ?_, fun _ _ h => (by cases h), fun _ h => (by cases h)⟩,
        fun r' heq => ?_⟩
      · obtain rfl := Event.added.inj heq
        rw [hnone]
        exact ⟨hpos, hlength.le, nofun⟩
      · obtain rfl := Event.added.inj heq
        exact hlength
    | finish ids status =>
      obtain rfl := his
      exact ⟨⟨hstep, fun _ h => (by cases h), fun _ _ h => (by cases h), fun _ h => (by cases h)⟩,
        fun _ h => (by cases h)⟩
    | schedule ext =>
      obtain ⟨batch, rfl⟩ := his
      exact ⟨⟨hstep, fun _ h => (by cases h), fun _ _ _ => List.isEmpty_iff.mp allowed,
        fun _ h => (by cases h)⟩, fun _ h => (by cases h)⟩
    | update out =>
      obtain rfl := his
      refine ⟨⟨hstep, fun _ h => (by cases h), fun _ _ h => (by cases h), fun out' heq => ?_⟩,
        fun _ h => (by cases h)⟩
      obtain rfl := Event.updated.inj heq
      obtain ⟨hsending, htokens⟩ := answers _ rfl
      exact ⟨hsending, fun _ _ _ _ _ _ _ => .inl (htokens _)⟩
  exact ⟨h.1.whole_of_short hp.1 hp.2, h.1.tallied hp.1, h.1.short hp.1 hp.2 h.2⟩

end Unsplit

/-! ### A prompt of the greatest length -/

section Example

variable {env : Kv.HashEnv} {ext : External} {p : Pipeline} {s s' : Scheduler} {r : Request}
  {batch : SchedulerOutput} {out : ModelRunnerOutput}
  {outputs : List (ℕ × List EngineCoreOutput)}

theorem synchronousStep_added (fresh : r.Fresh)
    (unknown : p.scheduler.requests r.requestId = none) (hpos : 1 ≤ r.numPromptTokens)
    (hlength : r.numPromptTokens ≤ p.scheduler.config.maxModelLen) (hnone : p.inFlight = [])
    (returns : p.scheduler.addRequest r = .ok s) :
    SynchronousStep env p (.added r) { p with scheduler := s } where
  step := .added fresh unknown returns
  added x hx := by
    obtain rfl := Event.added.inj hx
    rw [hnone]
    exact ⟨hpos, hlength, nofun⟩
  scheduled _ _ h := by cases h
  updated _ h := by cases h

theorem synchronousStep_scheduled (returns : s.schedule env ext = .ok (s', batch)) :
    SynchronousStep env ⟨s, []⟩ (.scheduled ext batch) ⟨s', [batch]⟩ where
  step := by
    have hstep : Step env ⟨s, []⟩ (.scheduled ext batch)
        ⟨s', if true then [] ++ [batch] else []⟩ := .scheduled returns (by simp)
    exact hstep
  added _ h := by cases h
  scheduled _ _ _ := rfl
  updated _ h := by cases h

theorem synchronousStep_updated (sending : out.finishedSending = [])
    (answers : Answers s batch out) (returns : s.updateFromOutput batch out = .ok (s', outputs)) :
    SynchronousStep env ⟨s, [batch]⟩ (.updated out) ⟨s', []⟩ where
  step := .updated returns
  added _ h := by cases h
  scheduled _ _ h := by cases h
  updated o ho := by
    obtain rfl := Event.updated.inj ho
    refine ⟨sending, fun b hb => ?_⟩
    obtain rfl := mem_singleton.mp hb
    exact answers

/-- Seven tokens a step, of eight that the model takes. -/
def sevenTokens : SchedulerConfig where
  maxNumRunningReqs := 2
  maxNumScheduledTokens := 7
  maxModelLen := 8
  blockSize := 4

/-- A request with a prompt of `n` tokens. -/
def prompted (n : ℕ) : Request where
  requestId := "r"
  promptTokenIds := List.replicate n 1
  maxTokens := 4

/-- The request is added and scheduled, and the runner answers with some tokens. -/
def firstStep (n : ℕ) (tokens : List ℤ) : Except SchedulerError
    (Kv.KVCacheManager × Scheduler × Scheduler × SchedulerOutput × Scheduler) := do
  let kv ← liftKv (Kv.KVCacheManager.new (Pipeline.oneGroup 4 4) 8 false false false)
  let s ← (Scheduler.new sevenTokens 0 kv).addRequest (prompted n)
  let (s₁, batch) ← s.schedule Kv.encodedHash {}
  let (s₂, _) ← s₁.updateFromOutput batch { sampledTokenIds := fun _ => some tokens }
  return (kv, s, s₁, batch, s₂)

theorem firstStep_eq_ok {n : ℕ} {tokens : List ℤ} {kv : Kv.KVCacheManager} {s s₁ s₂ : Scheduler}
    {batch : SchedulerOutput} (hok : firstStep n tokens = .ok (kv, s, s₁, batch, s₂)) :
    Kv.KVCacheManager.new (Pipeline.oneGroup 4 4) 8 false false false = .ok kv ∧
      (Scheduler.new sevenTokens 0 kv).addRequest (prompted n) = .ok s ∧
      s.schedule Kv.encodedHash {} = .ok (s₁, batch) ∧
      ∃ outputs, s₁.updateFromOutput batch { sampledTokenIds := fun _ => some tokens } =
        .ok (s₂, outputs) := by
  obtain ⟨_, hkv, hok⟩ := bind_eq_ok.mp hok
  obtain ⟨_, hs, hok⟩ := bind_eq_ok.mp hok
  obtain ⟨⟨_, _⟩, hs₁, hok⟩ := bind_eq_ok.mp hok
  obtain ⟨⟨_, outputs⟩, hs₂, hok⟩ := bind_eq_ok.mp hok
  have hsame := Except.ok.inj hok
  obtain ⟨rfl, rfl, rfl, rfl, rfl⟩ := hsame
  exact ⟨liftKv_eq_ok.mp hkv, hs, hs₁, outputs, hs₂⟩

/-- The first request runs when two others are added, for one of which there is room. -/
def threePrompts : List Command :=
  let out : ModelRunnerOutput := { sampledTokenIds := fun _ => some [5] }
  [.add { prompted 3 with requestId := "a" }, .schedule {}, .update out,
    .add { prompted 6 with requestId := "b" }, .add { prompted 3 with requestId := "c" }]

/-- What commands lead to in synchronous operation. -/
theorem synchronous_execution {commands : List Command} {p : Pipeline}
    (answers : ∀ out, .update out ∈ commands → out.finishedSending = [] ∧
      ∀ id given, out.sampledTokenIds id = some given → given ≠ [])
    (h : Pipeline.followsIf Pipeline.synchronous Kv.encodedHash sevenTokens 0
      (Pipeline.oneGroup 12 4) false commands = some p) :
    ∃ kv events, Kv.KVCacheManager.new (Pipeline.oneGroup 12 4) 8 false false false = .ok kv ∧
      Execution (WholeStep Kv.encodedHash) ⟨.new sevenTokens 0 kv, []⟩ events p := by
  obtain ⟨kv, events, hkv, run, -⟩ := Pipeline.execution_of_followsIf
    (R := WholeStep Kv.encodedHash) (P := fun p => Tallied p ∧ Short p)
    (fun kv hkv => ⟨tallied_new hkv rfl, fun id r hr => by
      have hnone : (none : Option Request) = some r := hr
      cases hnone⟩)
    (fun p q command event hmem hp allowed his hstep =>
      wholeStep_of_synchronous hp allowed his hstep fun out heq => answers out (heq ▸ hmem)) h
  exact ⟨kv, events, hkv, run⟩

/-- When the first call has been answered and the others are scheduled as well, both requests that
run have a token to schedule next. -/
theorem offered_of_execution_two : ∃ kv events p,
    Kv.KVCacheManager.new (Pipeline.oneGroup 12 4) 8 false false false = .ok kv ∧
    Execution (WholeStep Kv.encodedHash) ⟨.new sevenTokens 0 kv, []⟩ events p ∧
    p.scheduler.running = ["a", "b"] ∧ p.scheduler.waiting.ids = ["c"] ∧
    ∀ id ∈ ["a", "b"], ∃ r, p.scheduler.requests id = some r ∧
      1 ≤ p.scheduler.config.numNewTokens r 1 := by
  have hvalues : (Pipeline.followsIf Pipeline.synchronous Kv.encodedHash sevenTokens 0
      (Pipeline.oneGroup 12 4) false
      (threePrompts ++ [.schedule {}, .update { sampledTokenIds := fun _ => some [5] }])).map
        (fun p => (p.inFlight.length, p.scheduler.running, p.scheduler.waiting.ids)) =
      some (0, ["a", "b"], ["c"]) := by
    decide +kernel
  obtain ⟨p, hp, hvalues⟩ := Option.map_eq_some_iff.mp hvalues
  obtain ⟨hnone, hrest⟩ := mk.inj hvalues
  obtain ⟨hrunning, hwaiting⟩ := mk.inj hrest
  obtain ⟨kv, events, hkv, run⟩ := synchronous_execution (by
    simp [threePrompts]) hp
  refine ⟨kv, events, p, hkv, run, hrunning, hwaiting, fun id hid => ?_⟩
  exact offered_of_execution hkv rfl run (length_eq_zero_iff.mp hnone) (hrunning ▸ hid) (le_refl 1)

/-- While one request runs and two wait, one of these is admitted. -/
theorem served_of_execution_three : ∃ kv events p s' output,
    Kv.KVCacheManager.new (Pipeline.oneGroup 12 4) 8 false false false = .ok kv ∧
    Execution (SynchronousStep Kv.encodedHash) ⟨.new sevenTokens 0 kv, []⟩ events p ∧
    p.scheduler.schedule Kv.encodedHash {} = .ok (s', output) ∧
    p.scheduler.running = ["a"] ∧ output.numScheduledTokens = [("a", 1), ("b", 6)] ∧
    ServedCall p.scheduler s' output := by
  have hvalues : ((Pipeline.followsIf Pipeline.synchronous Kv.encodedHash sevenTokens 0
      (Pipeline.oneGroup 12 4) false threePrompts).bind fun p =>
        (p.scheduler.schedule Kv.encodedHash {}).toOption.map fun x =>
          (p.inFlight.length, p.scheduler.running, x.2.numScheduledTokens)) =
      some (0, ["a"], [("a", 1), ("b", 6)]) := by
    decide +kernel
  obtain ⟨p, hp, hvalues⟩ := Option.bind_eq_some_iff.mp hvalues
  obtain ⟨⟨s', output⟩, hs, hvalues⟩ := Option.map_eq_some_iff.mp hvalues
  obtain ⟨hnone, hrest⟩ := mk.inj hvalues
  obtain ⟨hrunning, hcounts⟩ := mk.inj hrest
  obtain ⟨kv, events, hkv, run⟩ := synchronous_execution (by
    simp [threePrompts]) hp
  have hsync : Execution (SynchronousStep Kv.encodedHash) ⟨.new sevenTokens 0 kv, []⟩ events p :=
    run.mono fun h => h.toSynchronousStep
  have hs := toOption_eq_some.mp hs
  exact ⟨kv, events, p, s', output, hkv, hsync, hs, hrunning, hcounts,
    (served_of_execution hkv rfl hsync (length_eq_zero_iff.mp hnone) hs).2⟩

/-- A prompt of eight tokens is split, and its last token is never scheduled. -/
theorem stuck_prompt : ∃ kv events p r,
    Kv.KVCacheManager.new (Pipeline.oneGroup 4 4) 8 false false false = .ok kv ∧
    Execution (SynchronousStep Kv.encodedHash) ⟨.new sevenTokens 0 kv, []⟩ events p ∧
    p.inFlight = [] ∧ "r" ∈ p.scheduler.running ∧ p.scheduler.requests "r" = some r ∧
    r.mmPositions = [] ∧ ∀ tokenBudget, p.scheduler.config.numNewTokens r tokenBudget < 1 := by
  have hbatch : (firstStep 8 []).toOption.map (fun x => (x.2.2.2.1.scheduledIds,
      (x.2.2.1.requests "r").map fun r => (r.numTokens, r.numComputedTokens))) =
        some (["r"], some (8, 7)) := by
    decide +kernel
  have hlast : (firstStep 8 []).toOption.map (fun x => (x.2.2.2.2.running,
      x.2.2.2.2.config.maxModelLen, (x.2.2.2.2.requests "r").map fun r =>
        (r.numComputedTokens, r.mmPositions))) = some (["r"], 8, some (7, [])) := by
    decide +kernel
  obtain ⟨⟨kv, s, s₁, batch, s₂⟩, hfirst, hvalues⟩ := Option.map_eq_some_iff.mp hbatch
  obtain ⟨hids, hcounts⟩ := mk.inj hvalues
  rw [hfirst, Option.map_some] at hlast
  obtain ⟨hrunning, hlast⟩ := mk.inj (Option.some.inj hlast)
  obtain ⟨hlength, hlast⟩ := mk.inj hlast
  obtain ⟨hkv, hs, hs₁, _, hs₂⟩ := firstStep_eq_ok (toOption_eq_some.mp hfirst)
  have hadded : SynchronousStep Kv.encodedHash ⟨.new sevenTokens 0 kv, []⟩ (.added (prompted 8))
      ⟨s, []⟩ := by
    refine synchronousStep_added ⟨rfl, rfl, rfl, rfl, rfl⟩ rfl ?_ ?_ rfl hs
    · decide
    · change 8 ≤ 8
      decide
  have hupdated : SynchronousStep Kv.encodedHash ⟨s₁, [batch]⟩
      (.updated { sampledTokenIds := fun _ => some [] }) ⟨s₂, []⟩ := by
    refine synchronousStep_updated rfl (fun id hid r hr hall => ?_) hs₂
    -- the last token of the prompt is not computed
    rw [hids, mem_singleton] at hid
    subst hid
    rw [hr, Option.map_some] at hcounts
    obtain ⟨htokens, hcomputed⟩ := mk.inj (Option.some.inj hcounts)
    omega
  have hrun := ((Execution.single hadded).extend (synchronousStep_scheduled hs₁)).extend hupdated
  obtain ⟨r, hr, hvalues⟩ := Option.map_eq_some_iff.mp hlast
  obtain ⟨hcomputed, hitems⟩ := mk.inj hvalues
  refine ⟨kv, _, _, r, hkv, hrun, rfl, ?_, hr, hitems, fun tokenBudget => ?_⟩
  · dsimp only
    rw [hrunning]
    exact mem_singleton_self _
  · unfold SchedulerConfig.numNewTokens
    rw [hlength, hcomputed]
    omega

end Example

end Sched
