import Mosaic.Sched.EncoderRuns
import Mosaic.Sched.Blocks

/-!
# The counters of the requests

A request that is given tokens in a call has that many left, where the tokens that were found in
the cache, and draft tokens, are counted in. The computed tokens of a request are advanced by what
it was given, and reset when it is preempted.
-/

namespace Sched

open List Fallible Function

/-! ### Entries of dictionaries -/

section Lookup

variable {α : Type} {d : List (String × α)} {key id : String} {value : α}

theorem lookup_eq_none_of_notMem (h : key ∉ d.map Prod.fst) : d.lookup key = none := by
  rw [lookup_eq_none_iff]
  intro entry hentry
  rw [bne_iff_ne]
  exact fun heq => h (heq ▸ mem_map_of_mem hentry)

theorem lookup_setKey_self (new : key ∉ d.map Prod.fst) :
    (setKey d key value).lookup key = some value := by
  rw [setKey_of_notMem value new, lookup_append, lookup_eq_none_of_notMem new]
  simp

theorem lookup_setKey_of_ne (new : key ∉ d.map Prod.fst) (hid : id ≠ key) :
    (setKey d key value).lookup id = d.lookup id := by
  have hother : (id == key) = false := by simpa using hid
  rw [setKey_of_notMem value new, lookup_append]
  simp [lookup_cons, hother]

theorem lookup_of_mem {entry : String × α} (hnodup : (d.map Prod.fst).Nodup) (h : entry ∈ d) :
    d.lookup entry.1 = some entry.2 := by
  induction d with
  | nil => cases h
  | cons first rest ih =>
    rw [map_cons, nodup_cons] at hnodup
    rcases mem_cons.mp h with rfl | hlater
    · rw [lookup_cons, beq_self_eq_true]
    · have hne : (entry.1 == first.1) = false := by
        rw [beq_eq_false_iff_ne]
        exact fun heq => hnodup.1 (heq ▸ mem_map_of_mem hlater)
      rw [lookup_cons, hne]
      exact ih hnodup.2 hlater

theorem mem_fst_of_lookup (h : d.lookup key = some value) : key ∈ d.map Prod.fst := by
  by_contra hnew
  rw [lookup_eq_none_of_notMem hnew] at h
  cases h

end Lookup

/-! ### What a request is offered -/

/-- The computed tokens of a request are among its tokens. A waiting request has tokens left, and
so has one with draft tokens. -/
structure Request.Ready (maxModelLen : ℕ) (r : Request) : Prop where
  status : r.status ≠ .waitingForRemoteKvs
  tokens : 1 ≤ r.numTokens
  length : r.numTokens ≤ maxModelLen
  nonneg : 0 ≤ r.numComputedTokens
  computed : r.numComputedTokens ≤ r.numTokens
  behind : r.numComputedTokens < maxModelLen
  left : r.numComputedTokens = r.numTokens → r.status = .running ∧ r.specTokenIds = []

section Offers

variable {env : Kv.HashEnv} {ext : External} {st st' : ScheduleState} {r : Request}
  {inputs : List ℕ} {n newEncoderBudget : ℤ}

theorem clipLongPrefill_bounds (config : SchedulerConfig) {n : ℤ} (hn : 0 ≤ n) :
    0 ≤ config.clipLongPrefill n ∧ config.clipLongPrefill n ≤ n := by
  unfold SchedulerConfig.clipLongPrefill
  split <;> omega

/-- A running request is given at most the tokens that it has left, without the last one that the
model can take. -/
theorem planRunning_bounds (ready : r.Ready st.scheduler.config.maxModelLen)
    (budget : 0 < st.tokenBudget) (plan : st.planRunning r = .ok (inputs, n, newEncoderBudget)) :
    0 ≤ n ∧ n ≤ st.tokenBudget ∧ r.numComputedTokens + n ≤ r.numTokensWithSpec ∧
      r.numComputedTokens + n < st.scheduler.config.maxModelLen := by
  have hnonneg := ready.nonneg
  have hcomp := ready.computed
  have hbehind := ready.behind
  rw [planRunning_eq] at plan
  have hleft : (0 : ℤ) ≤ r.numTokensWithSpec - r.numComputedTokens := by
    unfold Request.numTokensWithSpec
    omega
  obtain ⟨hclip, hclip'⟩ := clipLongPrefill_bounds st.scheduler.config hleft
  have hoffer : 0 ≤ st.scheduler.config.numNewTokens r st.tokenBudget := by
    unfold SchedulerConfig.numNewTokens
    omega
  obtain ⟨hn, hn'⟩ := Scheduler.tryScheduleEncoderInputs_bounds hoffer plan
  unfold SchedulerConfig.numNewTokens at hn'
  omega

/-- A waiting request that is admitted is given a token, and at most what it was offered. -/
theorem planWaiting_bounds {found : ScheduleState.ComputedTokens} (sync : found.loadKvAsync = false)
    (plan : st.planWaiting r found = .ok (.schedule inputs n newEncoderBudget)) :
    1 ≤ n ∧ n ≤ st.waitingOffer r found := by
  unfold ScheduleState.planWaiting at plan
  rw [if_neg (by simp [sync])] at plan
  dsimp only at plan
  split at plan
  · cases plan
  · split at plan
    · cases plan
    · rename_i hpos
      rw [not_le] at hpos
      unfold ScheduleState.waitingOffer
      split at plan
      · split at plan
        · cases plan
        · rename_i htry
          obtain ⟨hn, hn'⟩ := Scheduler.tryScheduleEncoderInputs_bounds hpos.le htry
          split at plan
          · cases plan
          · rename_i hsome
            obtain ⟨-, rfl, -⟩ := ScheduleState.WaitingPlan.schedule.inj (Except.ok.inj plan)
            omega
      · obtain ⟨-, rfl, -⟩ := ScheduleState.WaitingPlan.schedule.inj (Except.ok.inj plan)
        omega

/-- Without a connector, what is found leaves a token to compute. -/
theorem findComputedTokens_bounds {s : Scheduler} {found : ScheduleState.ComputedTokens}
    (connector : s.config.hasConnector = false)
    (wellFormed : s.kvCacheManager.coordinator.WellFormed s.kvCacheManager.spec
      s.kvCacheManager.numKvCacheGroups)
    (nonneg : 0 ≤ r.numComputedTokens) (left : r.numComputedTokens < r.numTokens)
    (hok : ScheduleState.findComputedTokens env ext s r = .ok found) :
    found.loadKvAsync = false ∧ found.numExternalComputedTokens = 0 ∧
      0 ≤ found.numComputedTokens ∧ found.numComputedTokens < r.numTokens ∧
      found.numComputedTokens = r.numComputedTokens + found.numNewLocalComputedTokens := by
  unfold ScheduleState.findComputedTokens at hok
  split at hok
  · rename_i hzero
    obtain ⟨⟨_, _, _⟩, hkv, hok⟩ := bind_eq_ok.mp hok
    rw [liftKv_eq_ok] at hkv
    obtain ⟨-, -, hhit⟩ := Kv.getComputedBlocks_tables hkv
    have hlocal := hhit wellFormed
    rw [Request.toKv_numTokens] at hlocal
    rw [connector] at hok
    cases hok
    dsimp only
    refine ⟨rfl, rfl, ?_, ?_, ?_⟩ <;> omega
  · cases hok
    exact ⟨rfl, rfl, nonneg, left, by simp⟩

end Offers

/-! ### Calls -/

/-- A call changes how far a request is computed, its status and its draft tokens. -/
structure SameTokens (r₀ r : Request) : Prop where
  same : r = { r₀ with
    specTokenIds := r.specTokenIds
    numComputedTokens := r.numComputedTokens
    numCachedTokens := r.numCachedTokens
    status := r.status }

namespace SameTokens

variable {r₀ r r' : Request}

theorem refl (r : Request) : SameTokens r r := ⟨rfl⟩

theorem trans (h : SameTokens r₀ r) (h' : SameTokens r r') : SameTokens r₀ r' := by
  constructor
  rw [h'.same, h.same]

theorem numTokens (h : SameTokens r₀ r) : r.numTokens = r₀.numTokens := by
  rw [h.same]
  rfl

end SameTokens

/-- What a call does with one request: it leaves the request alone, or preempts it, or gives it
`n` tokens behind the first `start` ones, `k` of which are draft tokens. What was given to a
request is not taken back if the request is preempted after that. -/
inductive Served (maxModelLen : ℕ) (r₀ r : Request) : Option ℤ → ℕ → Prop where
  | kept (status : r.status = r₀.status ∨ (r₀.status = .waitingForFsm ∧ r.status = .waiting))
      (computed : r.numComputedTokens = r₀.numComputedTokens)
      (spec : r.specTokenIds = r₀.specTokenIds) : Served maxModelLen r₀ r none 0
  | preempted (status : r.status = .preempted) (computed : r.numComputedTokens = 0) :
      Served maxModelLen r₀ r none 0
  | given {start n : ℤ} {k : ℕ} (positive : 1 ≤ n) (nonneg : 0 ≤ start)
      (left : start < r₀.numTokens) (fits : start + n ≤ r₀.numTokens + k)
      (whole : 0 < k → start + n = r₀.numTokens + k) (below : start + n ≤ maxModelLen)
      (resumed : r₀.status = .running → start = r₀.numComputedTokens)
      (status : (r.status = .running ∧ r.numComputedTokens = start) ∨
        (r.status = .preempted ∧ r.numComputedTokens = 0)) : Served maxModelLen r₀ r (some n) k

namespace Served

variable {maxModelLen k : ℕ} {r₀ r : Request} {count : Option ℤ}

theorem status_ne (h : Served maxModelLen r₀ r count k) (ready : r₀.Ready maxModelLen) :
    r.status ≠ .waitingForRemoteKvs := by
  intro hremote
  cases h with
  | kept status _ _ =>
    rcases status with hsame | ⟨-, hwaits⟩
    · exact ready.status (hsame.symm.trans hremote)
    · cases hwaits.symm.trans hremote
  | preempted status _ => cases status.symm.trans hremote
  | given _ _ _ _ _ _ _ status =>
    rcases status with ⟨hstatus, -⟩ | ⟨hstatus, -⟩ <;> cases hstatus.symm.trans hremote

/-- A request that was given nothing can still be given tokens. -/
theorem ready (h : Served maxModelLen r₀ r none k) (same : SameTokens r₀ r)
    (ready : r₀.Ready maxModelLen) : r.Ready maxModelLen := by
  have htoks := ready.tokens
  have hlen := ready.length
  have hne := h.status_ne ready
  cases h with
  | kept status computed spec =>
    refine ⟨hne, ?_, ?_, ?_, ?_, ?_, fun heq => ?_⟩
    · rw [same.numTokens]
      exact htoks
    · rw [same.numTokens]
      exact hlen
    · rw [computed]
      exact ready.nonneg
    · rw [computed, same.numTokens]
      exact ready.computed
    · rw [computed]
      exact ready.behind
    · rw [computed, same.numTokens] at heq
      obtain ⟨hruns, hnone⟩ := ready.left heq
      refine ⟨?_, spec.trans hnone⟩
      rcases status with hsame | ⟨hfsm, -⟩
      · exact hsame.trans hruns
      · cases hfsm.symm.trans hruns
  | preempted status computed =>
    refine ⟨hne, ?_, ?_, ?_, ?_, ?_, fun heq => ?_⟩
    · rw [same.numTokens]
      exact htoks
    · rw [same.numTokens]
      exact hlen
    · rw [computed]
    · rw [computed]
      exact Int.natCast_nonneg _
    · rw [computed]
      omega
    · rw [computed, same.numTokens] at heq
      omega

/-- A running request that was given nothing in this call runs since before. -/
theorem of_running (h : Served maxModelLen r₀ r none k) (runs : r.status = .running) :
    r₀.status = .running ∧ r.numComputedTokens = r₀.numComputedTokens ∧
      r.specTokenIds = r₀.specTokenIds := by
  cases h with
  | kept status computed spec =>
    refine ⟨?_, computed, spec⟩
    rcases status with hsame | ⟨-, hwaits⟩
    · exact hsame.symm.trans runs
    · cases hwaits.symm.trans runs
  | preempted status _ => cases status.symm.trans runs

/-- A request is preempted. -/
theorem preempt (h : Served maxModelLen r₀ r count k) :
    Served maxModelLen r₀ r.preempted count k := by
  cases h with
  | kept _ _ _ => exact .preempted rfl rfl
  | preempted _ _ => exact .preempted rfl rfl
  | given positive nonneg left fits whole below resumed _ =>
    exact .given positive nonneg left fits whole below resumed (.inr ⟨rfl, rfl⟩)

end Served

/-- What a call has done so far with the requests of `s`. -/
structure Serving (s : Scheduler) (st : ScheduleState) : Prop where
  config : st.scheduler.config = s.config
  shape : Kv.SameShape s.kvCacheManager st.scheduler.kvCacheManager
  budget : 0 ≤ st.tokenBudget
  served : ∀ id r, st.scheduler.requests id = some r → ∃ r₀, s.requests id = some r₀ ∧
    SameTokens r₀ r ∧ Served s.config.maxModelLen r₀ r (st.numScheduledTokens.lookup id)
      ((st.scheduledSpecDecodeTokens.lookup id).getD []).length ∧
    (r₀.status = .running → r.status = .running ∨ id ∈ st.preemptedReqs)

/-- The requests of a call that can be given tokens. -/
structure Scheduler.Servable (s : Scheduler) : Prop where
  connector : s.config.hasConnector = false
  wellFormed : s.kvCacheManager.coordinator.WellFormed s.kvCacheManager.spec
    s.kvCacheManager.numKvCacheGroups
  ready : ∀ id r, s.requests id = some r → r.Ready s.config.maxModelLen

section Calls

variable {env : Kv.HashEnv} {ext : External} {s s' : Scheduler} {st st' : ScheduleState}
  {r : Request}

theorem serving_start (s : Scheduler) : Serving s s.startSchedule where
  config := rfl
  shape := .refl _
  budget := Int.natCast_nonneg _
  served _ r hr := ⟨r, hr, .refl r, .kept (.inl rfl) rfl rfl, .inl⟩

/-- The cache manager changes, and no request. -/
theorem Serving.keep (h : Serving s st) (config : st'.scheduler.config = st.scheduler.config)
    (shape : Kv.SameShape st.scheduler.kvCacheManager st'.scheduler.kvCacheManager)
    (budget : st'.tokenBudget = st.tokenBudget)
    (requests : st'.scheduler.requests = st.scheduler.requests)
    (preempted : st'.preemptedReqs = st.preemptedReqs)
    (counts : st'.numScheduledTokens = st.numScheduledTokens)
    (spec : st'.scheduledSpecDecodeTokens = st.scheduledSpecDecodeTokens) : Serving s st' where
  config := config.trans h.config
  shape := h.shape.trans shape
  budget := budget ▸ h.budget
  served := by
    rw [requests, preempted, counts, spec]
    exact h.served

/-- One request changes. -/
theorem Serving.change (h : Serving s st) (r' : Request)
    (config : st'.scheduler.config = st.scheduler.config)
    (shape : Kv.SameShape st.scheduler.kvCacheManager st'.scheduler.kvCacheManager)
    (budget : 0 ≤ st'.tokenBudget)
    (requests : st'.scheduler.requests =
      update st.scheduler.requests r.requestId (some r'))
    (preempted : st.preemptedReqs ⊆ st'.preemptedReqs)
    (counts : ∀ id ≠ r.requestId,
      st'.numScheduledTokens.lookup id = st.numScheduledTokens.lookup id)
    (spec : ∀ id ≠ r.requestId,
      st'.scheduledSpecDecodeTokens.lookup id = st.scheduledSpecDecodeTokens.lookup id)
    (served : ∃ r₀, s.requests r.requestId = some r₀ ∧ SameTokens r₀ r' ∧
      Served s.config.maxModelLen r₀ r' (st'.numScheduledTokens.lookup r.requestId)
        ((st'.scheduledSpecDecodeTokens.lookup r.requestId).getD []).length ∧
      (r₀.status = .running → r'.status = .running ∨ r.requestId ∈ st'.preemptedReqs)) :
    Serving s st' where
  config := config.trans h.config
  shape := h.shape.trans shape
  budget := budget
  served := by
    intro id x hx
    rw [requests] at hx
    by_cases hid : id = r.requestId
    · subst hid
      rw [update_self] at hx
      cases hx
      exact served
    · rw [update_of_ne hid] at hx
      rw [counts id hid, spec id hid]
      obtain ⟨r₀, hr₀, hsame, hserved, hruns⟩ := h.served id x hx
      exact ⟨r₀, hr₀, hsame, hserved, fun hrun => (hruns hrun).imp_right (preempted ·)⟩

theorem Preempts.serving {n : ℤ} {victim : String} (h : Preempts env r n st victim st')
    (hst : Serving s st) : Serving s st' := by
  obtain ⟨-, -, hshape⟩ := h.tables
  cases h with
  | @mk v kv kv' running waiting _ _ known _ _ =>
    obtain ⟨v₀, hv₀, hsame, hserved, -⟩ := hst.served _ v known
    exact hst.change (r := v) v.preempted rfl hshape hst.budget rfl (subset_append_left _ _)
      (fun _ _ => rfl) (fun _ _ => rfl) ⟨v₀, hv₀, hsame.trans ⟨rfl⟩, hserved.preempt,
        fun _ => .inr (mem_append_right _ (mem_singleton_self _))⟩

theorem PreemptsOthers.serving {n : ℤ} (h : PreemptsOthers env r n st st')
    (hst : Serving s st) : Serving s st' :=
  h.preserves (P := Serving s) (fun _ _ _ ht hlast => hlast.serving ht) hst

/-- The draft tokens that are recorded for a request are those among its new tokens. -/
theorem scheduledRunning_spec (st : ScheduleState) {n : ℤ} (newBlocks : List (List ℕ))
    (inputs : List ℕ) (budget : ℤ) (encoder : EncoderCacheManager)
    (new : r.requestId ∉ st.scheduledSpecDecodeTokens.map Prod.fst)
    (fits : r.numComputedTokens + n ≤ r.numTokensWithSpec) :
    ∃ k, (((st.scheduledRunning r newBlocks inputs n budget
        encoder).scheduledSpecDecodeTokens.lookup r.requestId).getD []).length = k ∧
      r.numComputedTokens + n ≤ r.numTokens + k ∧
      (0 < k → r.numComputedTokens + n = r.numTokens + k) := by
  unfold Request.numTokensWithSpec at fits
  dsimp only [ScheduleState.scheduledRunning]
  split
  · rename_i hspec
    rw [lookup_setKey_self new, Option.getD_some]
    unfold ScheduleState.trimSpec
    rw [if_pos hspec]
    have hcount := hspec.2
    unfold ScheduleState.numScheduledSpecTokens at hcount
    have hlen : (r.specTokenIds.take
        (ScheduleState.numScheduledSpecTokens r n).toNat).length =
          (n + r.numComputedTokens - r.numTokens).toNat := by
      rw [List.length_take]
      unfold ScheduleState.numScheduledSpecTokens
      omega
    refine ⟨_, rfl, ?_, fun _ => ?_⟩
    · dsimp only
      rw [hlen]
      omega
    · dsimp only
      rw [hlen]
      omega
  · rename_i hnone
    rw [lookup_eq_none_of_notMem new]
    refine ⟨0, rfl, ?_, nofun⟩
    rw [not_and_or, not_not, not_lt] at hnone
    rcases hnone with hnil | hcount
    · rw [hnil] at fits
      simpa using fits
    · unfold ScheduleState.numScheduledSpecTokens at hcount
      omega

theorem RunningMove.serving (h : RunningMove env st st') (servable : s.Servable)
    (hfiled : st.Filed) (hvisited : Visited st) (hst : Serving s st) : Serving s st' := by
  cases h with
  | pass _ _ => exact hst.keep rfl (.refl _) rfl rfl rfl rfl rfl
  | @schedule st₁ _ r inputs n budget kv newBlocks current plan nonzero others slots scheduled =>
    obtain ⟨encoder, -, rfl⟩ := scheduleRunning_eq_ok scheduled
    have hst₁ := others.serving hst
    have hthinned := others.thinned
    have hnew := hvisited.current_notMem current
    have hnew₁ : r.requestId ∉ st₁.numScheduledTokens.map Prod.fst := by
      rw [hthinned.numScheduledTokens]
      exact hnew
    have hspec₁ : r.requestId ∉ st₁.scheduledSpecDecodeTokens.map Prod.fst := by
      rw [hthinned.spec]
      exact fun hmem => hnew (hvisited.spec hmem)
    -- what is known of the request before the move
    obtain ⟨r₀, hr₀, hsame, hserved, -⟩ := hst.served _ r current.known
    rw [lookup_eq_none_of_notMem hnew] at hserved
    have hready := hserved.ready hsame (servable.ready _ r₀ hr₀)
    have hready' : r.Ready st.scheduler.config.maxModelLen := hst.config ▸ hready
    obtain ⟨hruns, hcomp, -⟩ := hserved.of_running (current.runs hfiled)
    obtain ⟨hn, hbudget, hfits, hbelow⟩ := planRunning_bounds hready' current.budget plan
    have hpos : 1 ≤ n := by omega
    obtain ⟨hshape, -⟩ := runningSlots_eq_ok slots
    obtain ⟨_, hk, hcover, hwhole⟩ := scheduledRunning_spec (st₁.setKv kv) newBlocks inputs
      budget encoder hspec₁ hfits
    have hleft : r.numComputedTokens < r.numTokens := by
      -- a request without tokens left has no draft tokens either
      have hle := hready.computed
      rcases hle.lt_or_eq with hlt | heq
      · exact hlt
      · have hnil := (hready.left heq).2
        unfold Request.numTokensWithSpec at hfits
        rw [hnil, length_nil] at hfits
        omega
    refine hst₁.change (r := r) (ScheduleState.trimSpec r n) rfl hshape.shape ?_ ?_
      (List.Subset.refl _) (fun id hid => ?_) (fun id hid => ?_) ?_
    · dsimp only [ScheduleState.scheduledRunning, ScheduleState.setKv]
      rw [hthinned.budget]
      omega
    · dsimp only [ScheduleState.scheduledRunning, ScheduleState.setKv, Scheduler.setRequest]
      rw [trimSpec_requestId]
    · exact lookup_setKey_of_ne hnew₁ hid
    · dsimp only [ScheduleState.scheduledRunning, ScheduleState.setKv]
      split
      · exact lookup_setKey_of_ne hspec₁ hid
      · rfl
    · have htrim : SameTokens r (ScheduleState.trimSpec r n) := by
        unfold ScheduleState.trimSpec
        split <;> exact ⟨rfl⟩
      have hcounter : (ScheduleState.trimSpec r n).numComputedTokens = r.numComputedTokens := by
        unfold ScheduleState.trimSpec
        split <;> rfl
      have hruns' := (trimSpec_status r n).trans (current.runs hfiled)
      refine ⟨r₀, hr₀, hsame.trans htrim, ?_, fun _ => .inl hruns'⟩
      have hcount : ((st₁.setKv kv).scheduledRunning r newBlocks inputs n budget
          encoder).numScheduledTokens.lookup r.requestId = some n := lookup_setKey_self hnew₁
      rw [hcount, hk]
      rw [hsame.numTokens] at hleft hcover hwhole
      rw [hst.config] at hbelow
      exact .given hpos hready.nonneg hleft hcover hwhole hbelow.le (fun _ => hcomp)
        (.inl ⟨hruns', hcounter⟩)
  | giveUp _ _ _ others itself => exact itself.serving (others.serving hst)

theorem Front.not_running (front : Front st r) (hfiled : st.Filed) : r.status ≠ .running := by
  intro hruns
  have hwaits := front.waits hfiled
  rw [hruns] at hwaits
  cases hwaits

theorem WaitingMove.serving (h : WaitingMove env ext st st') (servable : s.Servable)
    (hfiled : st.Filed) (hpre : st.preemptedReqs = []) (once : ScheduledOnce st)
    (hst : Serving s st) : Serving s st' := by
  have hconn : st.scheduler.config.hasConnector = false := by
    rw [hst.config]
    exact servable.connector
  have hwf := hst.shape.wellFormed servable.wellFormed
  -- what is known of the first request
  have hfront : ∀ r, Front st r → ∃ r₀, s.requests r.requestId = some r₀ ∧ SameTokens r₀ r ∧
      Served s.config.maxModelLen r₀ r none 0 ∧ r₀.status ≠ .running ∧
      r.Ready s.config.maxModelLen ∧ r.numComputedTokens < r.numTokens := by
    intro r front
    obtain ⟨r₀, hr₀, hsame, hserved, hruns⟩ := hst.served _ r front.known
    rw [hpre] at hruns
    have hnew := once.front_notMem hfiled hpre front
    have hspec : r.requestId ∉ st.scheduledSpecDecodeTokens.map Prod.fst :=
      fun hmem => hnew (once.spec hmem)
    rw [lookup_eq_none_of_notMem hnew, lookup_eq_none_of_notMem hspec] at hserved
    have hready := hserved.ready hsame (servable.ready _ r₀ hr₀)
    have hwaits : r₀.status ≠ .running := fun hrun =>
      (hruns hrun).elim (front.not_running hfiled) not_mem_nil
    refine ⟨r₀, hr₀, hsame, hserved, hwaits, hready, ?_⟩
    rcases hready.computed.lt_or_eq with hlt | heq
    · exact hlt
    · exact absurd (hready.left heq).1 (front.not_running hfiled)
  cases h with
  | @remoteReady r _ _ front status _ _ =>
    obtain ⟨-, -, -, -, -, hready, -⟩ := hfront r front
    exact absurd status hready.status
  | @grammarReady r front status =>
    obtain ⟨r₀, hr₀, hsame, hserved, hwaits, -, -⟩ := hfront r front
    refine hst.change (r := r) { r with status := .waiting } rfl (.refl _) hst.budget rfl
      (List.Subset.refl _) (fun _ _ => rfl) (fun _ _ => rfl)
      ⟨r₀, hr₀, hsame.trans ⟨rfl⟩, ?_, fun hrun => absurd hrun hwaits⟩
    have hnew := once.front_notMem hfiled hpre front
    have hspec : r.requestId ∉ st.scheduledSpecDecodeTokens.map Prod.fst :=
      fun hmem => hnew (once.spec hmem)
    dsimp only [ScheduleState.setScheduler]
    rw [lookup_eq_none_of_notMem hnew, lookup_eq_none_of_notMem hspec]
    cases hserved with
    | kept hstatus computed spec =>
      refine .kept (.inr ⟨?_, rfl⟩) computed spec
      rcases hstatus with heq | ⟨-, hwait⟩
      · exact heq.symm.trans status
      · cases status.symm.trans hwait
    | preempted hstatus _ => cases status.symm.trans hstatus
  | look _ looked =>
    exact hst.keep rfl (findComputedTokens_tables looked).1 rfl rfl rfl rfl rfl
  | skip _ _ _ _ => exact hst.keep rfl (.refl _) rfl rfl rfl rfl rfl
  | noSlots _ looked _ slots =>
    exact hst.keep rfl (waitingSlots_eq_ok looked slots).1.shape rfl rfl rfl rfl rfl
  | @startRemoteLoad r _ _ _ _ _ _ _ _ front looked _ _ async _ _ =>
    obtain ⟨-, -, -, -, -, hready, hleft⟩ := hfront r front
    obtain ⟨hsync, -⟩ := findComputedTokens_bounds hconn hwf hready.nonneg hleft looked
    rw [hsync] at async
    cases async
  | @admits r found kv _ waiting encoder inputs n budget front _ _ looked plan slots sync _ _ =>
    obtain ⟨r₀, hr₀, hsame, hserved, hwaits, hready, hleft⟩ := hfront r front
    obtain ⟨-, -, hfound, hfound', -⟩ :=
      findComputedTokens_bounds hconn hwf hready.nonneg hleft looked
    obtain ⟨hpos, hoffer⟩ := planWaiting_bounds sync plan
    have hnew := once.front_notMem hfiled hpre front
    have hspec : r.requestId ∉ st.scheduledSpecDecodeTokens.map Prod.fst :=
      fun hmem => hnew (once.spec hmem)
    have hlong : (0 : ℤ) ≤ r.numTokens - found.numComputedTokens := by omega
    obtain ⟨-, hclip⟩ := clipLongPrefill_bounds st.scheduler.config hlong
    have hoffer' : n ≤ r.numTokens - found.numComputedTokens ∧ n ≤ st.tokenBudget := by
      unfold ScheduleState.waitingOffer at hoffer
      dsimp only [ScheduleState.setKv] at hoffer
      omega
    refine hst.change (r := r) (ScheduleState.startRunning r found.numComputedTokens) rfl
      (waitingSlots_eq_ok looked slots).1.shape ?_ rfl (List.Subset.refl _)
      (fun id hid => lookup_setKey_of_ne hnew hid) (fun _ _ => rfl)
      ⟨r₀, hr₀, hsame.trans ⟨rfl⟩, ?_, fun hrun => absurd hrun hwaits⟩
    · dsimp only [ScheduleState.admitted, ScheduleState.setKv]
      omega
    · have hcount : ((st.setKv kv).admitted r found inputs n budget waiting
          encoder).numScheduledTokens.lookup r.requestId = some n := lookup_setKey_self hnew
      have hdrafts : ((st.setKv kv).admitted r found inputs n budget waiting
          encoder).scheduledSpecDecodeTokens.lookup r.requestId = none :=
        lookup_eq_none_of_notMem hspec
      have hlen := hready.length
      rw [hcount, hdrafts]
      rw [hsame.numTokens] at hfound' hoffer' hlen
      refine .given hpos hfound hfound' ?_ nofun ?_ (fun h => absurd h hwaits)
        (.inl ⟨rfl, rfl⟩)
      · simp only [Option.getD_none, length_nil]
        omega
      · omega

theorem MidCall.serving (h : MidCall env ext s st) (hs : s.Filed) (servable : s.Servable) :
    ScheduledOnce st ∧ Serving s st := by
  refine (h.preserves (P := Serving s) hs (serving_start s) ?_ ?_ ?_).2
  · exact fun _ _ _ _ ht hvisited hserving hmove => hmove.serving servable ht hvisited hserving
  · exact fun _ _ hserving => hserving.keep rfl (.refl _) rfl rfl rfl rfl rfl
  · exact fun _ _ _ ht hnone honce hserving hmove =>
      hmove.move.serving servable ht hnone honce hserving

/-- The scheduled tokens are added to the computed ones. -/
theorem advances_requests {entries : List (String × ℤ)} (hs : s.Labelled)
    (hnodup : (entries.map Prod.fst).Nodup)
    (hok : entries.foldlM Scheduler.advance s = .ok s') {id : String} {r' : Request}
    (hr' : s'.requests id = some r') : ∃ r, s.requests id = some r ∧
      r' = { r with numComputedTokens := r.numComputedTokens + (entries.lookup id).getD 0 } := by
  induction entries generalizing s with
  | nil =>
    cases hok
    refine ⟨r', hr', ?_⟩
    rw [lookup_nil, Option.getD_none, add_zero]
  | cons entry rest ih =>
    obtain ⟨key, n⟩ := entry
    obtain ⟨_, hfirst, hrest⟩ := foldlM_cons_eq_ok.mp hok
    rw [map_cons, nodup_cons] at hnodup
    obtain ⟨r₁, hr₁, hsame⟩ := ih (advance_identities hs hfirst).1 hnodup.2 hrest
    obtain ⟨r, _, known, -, rfl⟩ := advance_eq_ok hfirst
    obtain rfl := hs key r known
    dsimp only [Scheduler.setRequest] at hr₁
    by_cases hid : id = r.requestId
    · -- the ids are distinct, so that the rest does not count for this request
      subst hid
      rw [update_self] at hr₁
      cases hr₁
      rw [lookup_eq_none_of_notMem hnodup.1, Option.getD_none, add_zero] at hsame
      have hhead : List.lookup r.requestId ((r.requestId, n) :: rest) = some n := by
        rw [lookup_cons, beq_self_eq_true]
      rw [hhead]
      exact ⟨r, known, hsame⟩
    · rw [update_of_ne hid] at hr₁
      have hother : (id == r.requestId) = false := by simpa using hid
      refine ⟨r₁, hr₁, ?_⟩
      rw [hsame, lookup_cons, hother]

/-- Tokens are counted for known requests only. -/
theorem advances_known {entries : List (String × ℤ)}
    (hok : entries.foldlM Scheduler.advance s = .ok s') {id : String}
    (hid : id ∈ entries.map Prod.fst) : ∃ r, s'.requests id = some r := by
  have hkeeps : ∀ t entry u, (∃ r, Scheduler.requests t id = some r) →
      t.advance entry = .ok u → ∃ r, u.requests id = some r := by
    intro t entry u ⟨r, hr⟩ hu
    obtain ⟨_, _, -, -, rfl⟩ := advance_eq_ok hu
    dsimp only [Scheduler.setRequest]
    rw [update_apply]
    split
    · exact ⟨_, rfl⟩
    · exact ⟨r, hr⟩
  induction entries generalizing s with
  | nil => cases hid
  | cons entry rest ih =>
    obtain ⟨s₁, hfirst, hrest⟩ := foldlM_cons_eq_ok.mp hok
    rcases mem_cons.mp hid with rfl | hlater
    · refine foldlM_advance_preserves hkeeps hrest (hkeeps s entry s₁ ?_ hfirst)
      obtain ⟨r, -, known, -, -⟩ := advance_eq_ok hfirst
      exact ⟨r, known⟩
    · exact ih hrest hlater

/-- What a call does with the requests, from what it lists for them in its output. -/
structure ServedCall (s s' : Scheduler) (output : SchedulerOutput) : Prop where
  shape : Kv.SameShape s.kvCacheManager s'.kvCacheManager
  nodup : output.scheduledIds.Nodup
  known : ∀ id ∈ output.scheduledIds, ∃ r, s'.requests id = some r
  total : output.totalNumScheduledTokens = (output.numScheduledTokens.map Prod.snd).sum
  served : ∀ id r', s'.requests id = some r' → ∃ r₀ r, s.requests id = some r₀ ∧
    SameTokens r₀ r ∧ Served s.config.maxModelLen r₀ r (output.numScheduledTokens.lookup id)
      ((output.scheduledSpecDecodeTokens.lookup id).getD []).length ∧
    r' = { r with numComputedTokens :=
      r.numComputedTokens + (output.numScheduledTokens.lookup id).getD 0 }

/-- At least one token is given to every request of a batch. -/
theorem ServedCall.positive {output : SchedulerOutput} (h : ServedCall s s' output)
    {entry : String × ℤ} (hentry : entry ∈ output.numScheduledTokens) : 1 ≤ entry.2 := by
  have hmem : entry.1 ∈ output.scheduledIds := mem_map_of_mem hentry
  obtain ⟨r', hr'⟩ := h.known _ hmem
  obtain ⟨_, _, -, -, hserved, -⟩ := h.served _ r' hr'
  rw [lookup_of_mem h.nodup hentry] at hserved
  cases hserved with
  | given positive _ _ _ _ _ _ _ => exact positive

theorem schedule_served {output : SchedulerOutput} (hs : s.Filed) (servable : s.Servable)
    (hok : s.schedule env ext = .ok (s', output)) : ServedCall s s' output := by
  obtain ⟨st, _, hst, hout, hadvance, rfl⟩ := schedule_eq_ok hok
  obtain ⟨_, _, _, hphases⟩ := phases_of_eq_ok hs.labelled hst
  have hlabelled : st.scheduler.takeFreedIds.Labelled := (hphases.filed hs).2.labelled
  obtain ⟨-, hkv⟩ := advances_frame hadvance
  obtain ⟨_, _, _, hmid, -, rfl⟩ := hphases.midCall hs.labelled
  obtain ⟨honce, hserving⟩ := hmid.serving hs servable
  obtain ⟨hcounts, htotal, hspec, -, -⟩ := makeOutput_eq_ok hout
  refine ⟨?_, ?_, ?_, ?_, fun id r' hr' => ?_⟩
  · dsimp only
    rw [hkv]
    exact hserving.shape
  · unfold SchedulerOutput.scheduledIds
    rw [hcounts]
    exact honce.nodup
  · unfold SchedulerOutput.scheduledIds
    rw [hcounts]
    exact fun id hid => advances_known hadvance hid
  · rw [htotal, hcounts]
    rfl
  · obtain ⟨r, hr, hsame⟩ := advances_requests hlabelled honce.nodup hadvance hr'
    obtain ⟨r₀, hr₀, htoks, hserved, -⟩ := hserving.served id r hr
    rw [hcounts, hspec]
    exact ⟨r₀, r, hr₀, htoks, hserved, hsame⟩

end Calls

/-! ### Requests are forgotten -/

/-- A request is forgotten, and its blocks are freed. -/
structure Forgets (s s' : Scheduler) (id : String) : Prop where
  requests : s'.requests = update s.requests id none
  table : Kv.OnlyTable s.kvCacheManager s'.kvCacheManager id
  freed : ∀ g < s.kvCacheManager.numKvCacheGroups, s'.kvCacheManager.tables (g, id) = []
  config : s'.config = s.config

section Forgotten

variable {s s' : Scheduler} {r : Request}

/-- Without a connector, nobody waits for the blocks of a finished request. -/
theorem freeRequest_forgets {delayFreeBlocks : Bool} (connector : s.config.hasConnector = false)
    (hok : s.freeRequest r delayFreeBlocks = .ok s') : Forgets s s' r.requestId := by
  obtain ⟨-, _, -, ⟨-, hconn, -⟩ | hfreed⟩ := Scheduler.freeRequest_eq_ok hok
  · rw [connector] at hconn
    cases hconn
  · obtain ⟨-, _, hkv, rfl⟩ := Scheduler.freeBlocks_eq_ok hfreed
    obtain ⟨htable, hempty⟩ := Kv.onlyTable_free hkv
    exact ⟨rfl, ⟨⟨htable.shape.1, htable.shape.2, htable.shape.3, htable.shape.4, htable.shape.5,
      htable.shape.6, htable.shape.7⟩, htable.others⟩, hempty, rfl⟩

/-- The requests that are finished from outside are forgotten one after the other. -/
theorem finishRequests_induction {P : Scheduler → Prop} {ids : List String}
    {status : RequestStatus} {delayFreeBlocks : String → Bool}
    (connector : s.config.hasConnector = false)
    (hok : s.finishRequests ids status delayFreeBlocks = .ok s')
    (lists : ∀ running waiting, P { s with running := running, waiting := waiting })
    (forgets : ∀ t u id, P t → Forgets t u id → P u) : P s' := by
  obtain ⟨-, running, waiting, -, -, hfold⟩ := finishRequests_eq_ok hok
  have hloop : ∀ (reqs : List Request) (t t' : Scheduler), t.config.hasConnector = false →
      reqs.foldlM (Scheduler.finishRequest status delayFreeBlocks) t = .ok t' → P t → P t' := by
    intro reqs
    induction reqs with
    | nil =>
      intro t t' _ hreqs ht
      cases hreqs
      exact ht
    | cons r rest ih =>
      intro t t' hconn hreqs ht
      obtain ⟨t₁, hfirst, hrest⟩ := foldlM_cons_eq_ok.mp hreqs
      have hforgets := freeRequest_forgets (s := t.setRequest { r with status := status })
        hconn hfirst
      have hforgets' : Forgets t t₁ r.requestId := by
        refine ⟨?_, hforgets.table, hforgets.freed, hforgets.config⟩
        rw [hforgets.requests]
        simp [Scheduler.setRequest]
      exact ih t₁ t' (hforgets'.config ▸ hconn) hrest (forgets t t₁ _ ht hforgets')
  have hstart : ({ s with running := running, waiting := waiting } : Scheduler
    ).config.hasConnector = false := connector
  exact hloop _ _ _ hstart hfold (lists running waiting)

end Forgotten

/-! ### Updates -/

/-- A request goes on after the output for it was applied. -/
structure GoesOn (batch : SchedulerOutput) (out : ModelRunnerOutput) (maxModelLen : ℕ)
    (r : Request) (given : List ℤ) (r' : Request) : Prop where
  sampled : out.sampledTokenIds r.requestId = some given
  grown : Grown batch r given given r'
  status : r'.status = r.status
  short : given ≠ [] → r'.numTokens < maxModelLen
  pooled : r.hasPoolingParams = true → ∀ hasOutput, out.poolerOutput = some hasOutput →
    hasOutput r.requestId = false

section Updates

variable {batch : SchedulerOutput} {out : ModelRunnerOutput} {st st' : UpdateState}
  {s s' : Scheduler} {r : Request}

variable {r' : Request}

theorem Grown.numTokens {given tokens : List ℤ} (h : Grown batch r given tokens r') :
    r'.numTokens = r.numTokens + tokens.length := by
  rw [h.changed, Request.rejectTokens_eq]
  simp [Request.numTokens_eq, Request.numPromptTokens, Request.numOutputTokens, add_assoc]

/-- With draft tokens in the batch, those that were rejected are taken back. -/
theorem Grown.numComputedTokens {given tokens : List ℤ} {k : ℕ} (h : Grown batch r given tokens r')
    (hk : ((batch.scheduledSpecDecodeTokens.lookup r.requestId).getD []).length = k) :
    r'.numComputedTokens =
      if k = 0 then r.numComputedTokens else r.numComputedTokens - (k + 1 - given.length) := by
  rw [h.changed]
  unfold Request.rejectTokens
  by_cases hnil : (batch.scheduledSpecDecodeTokens.lookup r.requestId).getD [] = []
  · rw [hnil, length_nil] at hk
    rw [if_pos hnil, if_pos hk.symm]
  · have hne : k ≠ 0 := by
      rw [← hk]
      simpa using hnil
    rw [if_neg hnil, if_neg hne, hk]

/-- A known request goes on, or is forgotten. -/
theorem updateKnown_cases (connector : st.scheduler.config.hasConnector = false)
    (hok : UpdateState.updateKnown batch out st r = .ok st') :
    (∃ given r', GoesOn batch out st.scheduler.config.maxModelLen r given r' ∧
      st'.scheduler = st.scheduler.setRequest r') ∨
    Forgets st.scheduler st'.scheduler r.requestId := by
  obtain ⟨given, tokens, _, r₂, stopped, hasPooler, s, hgiven, hr₁, ⟨hsame⟩, hstop, hfreed,
    hst'⟩ := UpdateState.updateKnown_eq_ok hok
  have hlabel : r₂.requestId = r.requestId := by
    rw [hsame, hr₁, Request.rejectTokens_eq]
  obtain ⟨hsched, -, -⟩ := recordOutput_frame (UpdateState.recordStopped
    { st with scheduler := s.setSpecTokens r.requestId out.specTokenIds } r.requestId r.status
      stopped) r₂ tokens hasPooler
  rw [← hst'] at hsched
  obtain ⟨f, hf, hspec⟩ := setSpecTokens_frame s r.requestId out.specTokenIds
  rcases hstop with ⟨rfl, -⟩ | ⟨rfl, rfl, hstatus, hshort, hpooled⟩
  · -- It stopped, and its blocks are freed.
    refine .inr ?_
    obtain ⟨hrecorded, -, -⟩ := recordStopped_frame
      { st with scheduler := s.setSpecTokens r.requestId out.specTokenIds } r.requestId r.status
    rw [hrecorded, hspec] at hsched
    have hforgets := freeRequest_forgets (s := st.scheduler.setRequest r₂) connector hfreed
    rw [hlabel] at hforgets
    have hrequests : s.requests = update st.scheduler.requests r.requestId none := by
      rw [hforgets.requests]
      simp [Scheduler.setRequest, hlabel]
    rw [hsched]
    refine ⟨?_, hforgets.table, hforgets.freed, hforgets.config⟩
    simp [hrequests]
  · -- It goes on with the tokens it was given, without the rejected drafts.
    refine .inl ⟨tokens, f r₂, ?_, ?_⟩
    · obtain ⟨spec, hfr⟩ := hf r₂
      have hreject := Request.rejectTokens_eq r
        ((batch.scheduledSpecDecodeTokens.lookup r.requestId).getD []) tokens.length
      rw [← hr₁] at hreject
      refine ⟨hgiven, ⟨?_⟩, ?_, ?_, ?_⟩
      · rw [hfr, hsame, ← hr₁, hreject]
      · rw [hfr]
        exact hstatus.trans (by rw [hreject])
      · rw [hfr]
        exact hshort
      · intro hpooling
        rw [hreject] at hpooled
        exact hpooled hpooling
    · cases hfreed
      rw [hsched]
      change Scheduler.setSpecTokens _ _ _ = _
      rw [hspec]
      have hknown : (st.scheduler.setRequest r₂).requests r.requestId = some r₂ := by
        simp [Scheduler.setRequest, hlabel]
      obtain ⟨spec, hfr⟩ := hf r₂
      have hlabel' : (f r₂).requestId = r.requestId := by
        rw [hfr]
        exact hlabel
      rw [hknown, Option.map_some]
      simp only [Scheduler.setRequest, hlabel, hlabel', update_idem]

/-- An entry of a batch is for a request that is gone, or that goes on or is forgotten. -/
theorem updateOne_cases {entry : String × ℤ} (connector : st.scheduler.config.hasConnector = false)
    (hs : st.scheduler.Labelled) (hok : UpdateState.updateOne batch out st entry = .ok st') :
    (st.scheduler.requests entry.1 = none ∧ st' = st) ∨
    (∃ r given r', r.requestId = entry.1 ∧ st.scheduler.requests entry.1 = some r ∧
      GoesOn batch out st.scheduler.config.maxModelLen r given r' ∧
      st'.scheduler = st.scheduler.setRequest r') ∨
    Forgets st.scheduler st'.scheduler entry.1 := by
  unfold UpdateState.updateOne at hok
  split at hok
  · cases hok
  · split at hok
    · rename_i hunknown
      exact .inl ⟨hunknown, (Except.ok.inj hok).symm⟩
    · rename_i r hr
      have hlabel := hs entry.1 r hr
      rcases updateKnown_cases connector hok with ⟨given, r', hgoesOn, hst'⟩ | hforgets
      · exact .inr (.inl ⟨r, given, r', hlabel, hr, hgoesOn, hst'⟩)
      · exact .inr (.inr (hlabel ▸ hforgets))

theorem GoesOn.label {maxModelLen : ℕ} {given : List ℤ}
    (h : GoesOn batch out maxModelLen r given r') : r'.requestId = r.requestId := h.grown.requestId

/-- The entries of a batch are gone over one after the other. The property is about the entries
that are left. -/
theorem updateFromOutput_induction {P : List String → Scheduler → Prop}
    {outputs : List (ℕ × List EngineCoreOutput)} (hs : s.Labelled)
    (connector : s.config.hasConnector = false) (sending : out.finishedSending = [])
    (hok : s.updateFromOutput batch out = .ok (s', outputs))
    (start : P batch.scheduledIds s)
    (gone : ∀ t id rest, P (id :: rest) t → t.requests id = none → P rest t)
    (goesOn : ∀ t rest r given r', P (r.requestId :: rest) t →
      t.requests r.requestId = some r → GoesOn batch out s.config.maxModelLen r given r' →
      P rest (t.setRequest r'))
    (forgets : ∀ t u id rest, P (id :: rest) t → Forgets t u id → P rest u)
    (lists : ∀ t running waiting received, P [] t → P [] { t with
      running := running, waiting := waiting, finishedRecvingKvReqIds := received }) : P [] s' := by
  obtain ⟨st, _, hfold, hremove, hsend, -⟩ := updateFromOutput_eq_ok hok
  -- The loop over the entries, for any state that it may start in.
  have hloop : ∀ (entries : List (String × ℤ)) (t u : UpdateState), t.scheduler.Labelled →
      t.scheduler.config = s.config →
      entries.foldlM (UpdateState.updateOne batch out) t = .ok u →
      P (entries.map Prod.fst) t.scheduler → P [] u.scheduler := by
    intro entries
    induction entries with
    | nil =>
      intro t u _ _ hentries ht
      cases hentries
      exact ht
    | cons entry rest ih =>
      intro t u hlabelled hcfg hentries ht
      obtain ⟨t₁, hfirst, hrest⟩ := foldlM_cons_eq_ok.mp hentries
      have hconn : t.scheduler.config.hasConnector = false := by
        rw [hcfg]
        exact connector
      rcases updateOne_cases hconn hlabelled hfirst with
        ⟨hnone, rfl⟩ | ⟨r, given, r', hid, hr, hgoesOn, ht₁⟩ | hforgets
      · exact ih t₁ u hlabelled hcfg hrest (gone _ _ _ ht hnone)
      · have hnext : P (rest.map Prod.fst) t₁.scheduler := by
          rw [ht₁]
          rw [hcfg] at hgoesOn
          rw [map_cons, ← hid] at ht
          exact goesOn _ _ r given r' ht (hid ▸ hr) hgoesOn
        have hlabelled₁ : t₁.scheduler.Labelled := by
          rw [ht₁]
          exact hlabelled.setRequest r'
        exact ih t₁ u hlabelled₁ (ht₁ ▸ hcfg) hrest hnext
      · refine ih t₁ u ?_ (hforgets.config.trans hcfg) hrest (forgets _ _ _ _ ht hforgets)
        intro id x hx
        rw [hforgets.requests] at hx
        by_cases hid : id = entry.1
        · subst hid
          rw [update_self] at hx
          cases hx
        · rw [update_of_ne hid] at hx
          exact hlabelled id x hx
  -- After the loop only the lists of requests are cut.
  have hlast := hloop _ _ st hs rfl hfold start
  obtain ⟨waiting, -, hremoved⟩ := bind_eq_ok.mp hremove
  cases hremoved
  rw [sending] at hsend
  cases hsend
  exact lists st.scheduler _ _ _ hlast

/-- What an update leaves of the requests: those that are not in the batch as they are, and those
in it that go on. -/
theorem updateFromOutput_requests {outputs : List (ℕ × List EngineCoreOutput)} (hs : s.Labelled)
    (connector : s.config.hasConnector = false) (sending : out.finishedSending = [])
    (hnodup : batch.scheduledIds.Nodup)
    (hok : s.updateFromOutput batch out = .ok (s', outputs)) {id : String}
    (hr' : s'.requests id = some r') :
    (id ∉ batch.scheduledIds ∧ s.requests id = some r') ∨
      (id ∈ batch.scheduledIds ∧ ∃ r given, s.requests id = some r ∧
        GoesOn batch out s.config.maxModelLen r given r') := by
  -- the entries that are left are a final part of the batch, and their requests are as before
  have hall := updateFromOutput_induction (P := fun rest t =>
    rest <:+ batch.scheduledIds ∧ ∀ id r', t.requests id = some r' →
      ((id ∈ rest ∨ id ∉ batch.scheduledIds) ∧ s.requests id = some r') ∨
      (id ∉ rest ∧ id ∈ batch.scheduledIds ∧ ∃ r given,
        s.requests id = some r ∧ GoesOn batch out s.config.maxModelLen r given r'))
    hs connector sending hok ?_ ?_ ?_ ?_ ?_
  · rcases hall.2 id r' hr' with ⟨hmem, hold⟩ | ⟨-, hgoesOn⟩
    · exact .inl ⟨hmem.resolve_left not_mem_nil, hold⟩
    · exact .inr hgoesOn
  · exact ⟨suffix_refl _, fun id r' hr' => .inl ⟨em _, hr'⟩⟩
  · rintro t id rest ⟨hsuffix, ht⟩ hnone
    refine ⟨(suffix_cons id rest).trans hsuffix, fun a r' hr' => ?_⟩
    have ha : a ≠ id := by
      rintro rfl
      rw [hnone] at hr'
      cases hr'
    rcases ht a r' hr' with ⟨hmem, hold⟩ | ⟨hleft, hgoesOn⟩
    · exact .inl ⟨hmem.imp_left fun h => (mem_cons.mp h).resolve_left ha, hold⟩
    · exact .inr ⟨fun h => hleft (mem_cons_of_mem _ h), hgoesOn⟩
  · rintro t rest r given _ ⟨hsuffix, ht⟩ hr hgoesOn
    have hfirst := (nodup_cons.mp (hnodup.sublist hsuffix.sublist)).1
    refine ⟨(suffix_cons _ rest).trans hsuffix, fun a r' hr' => ?_⟩
    dsimp only [Scheduler.setRequest] at hr'
    rw [hgoesOn.label] at hr'
    by_cases ha : a = r.requestId
    · subst ha
      rw [update_self] at hr'
      cases hr'
      have hold : s.requests r.requestId = some r := by
        rcases ht _ r hr with ⟨-, hold⟩ | ⟨hleft, -⟩
        · exact hold
        · exact absurd mem_cons_self hleft
      exact .inr ⟨hfirst, hsuffix.subset mem_cons_self, r, given, hold, hgoesOn⟩
    · rw [update_of_ne ha] at hr'
      rcases ht a r' hr' with ⟨hmem, hold⟩ | ⟨hleft, hold⟩
      · exact .inl ⟨hmem.imp_left fun h => (mem_cons.mp h).resolve_left ha, hold⟩
      · exact .inr ⟨fun h => hleft (mem_cons_of_mem _ h), hold⟩
  · rintro t _ id rest ⟨hsuffix, ht⟩ hforgets
    refine ⟨(suffix_cons id rest).trans hsuffix, fun a r' hr' => ?_⟩
    have ha : a ≠ id := by
      rintro rfl
      rw [hforgets.requests, update_self] at hr'
      cases hr'
    rw [hforgets.requests, update_of_ne ha] at hr'
    rcases ht a r' hr' with ⟨hmem, hold⟩ | ⟨hleft, hold⟩
    · exact .inl ⟨hmem.imp_left fun h => (mem_cons.mp h).resolve_left ha, hold⟩
    · exact .inr ⟨fun h => hleft (mem_cons_of_mem _ h), hold⟩
  · exact fun t running waiting received ht => ht

end Updates

end Sched
