import Mosaic.Sched.EncoderSlots

/-!
# The encoder cache in runs

The slots of the encoder cache are balanced in every state, and each item that was allocated is
cached, or listed, or was reported. The slots suffice as long as the items that a request is
offered in one call fit together.
-/

namespace Sched

open List Fallible Function

open Transition (Execution)

/-- The lengths of the items of the known requests. -/
def itemLengths (requests : String → Option Request) (id : String) (i : ℕ) : ℕ :=
  ((requests id).map fun r => r.itemLength i).getD 0

/-- Requests that are known and not finished. -/
def Live (requests : String → Option Request) (id : String) : Prop :=
  ∃ r, requests id = some r ∧ r.isFinished = false

theorem Live.update {requests : String → Option Request} {id : String} {r : Request}
    (h : Live requests id) (live : r.isFinished = false) :
    Live (Function.update requests r.requestId (some r)) id := by
  by_cases hid : id = r.requestId
  · subst hid
    exact ⟨r, by simp, live⟩
  · obtain ⟨r', hr', hlive⟩ := h
    exact ⟨r', by simpa [hid] using hr', hlive⟩

/-- The slots are balanced, and finished requests have none. -/
structure SlotsKept (requests : String → Option Request) (m : EncoderCacheManager) : Prop where
  balanced : Balanced (itemLengths requests) m
  live : ∀ id, m.cached id ≠ [] → Live requests id

namespace SlotsKept

variable {requests requests' : String → Option Request} {m m' : EncoderCacheManager}
  {r : Request} {inputs : List ℕ}

theorem itemLengths_of_known (known : requests r.requestId = some r) (i : ℕ) :
    itemLengths requests r.requestId i = r.itemLength i := by
  simp [itemLengths, known]

/-- Requests change, but those with cached items keep their items. -/
theorem congr (h : SlotsKept requests m)
    (same : ∀ id, m.cached id ≠ [] → Live requests id → Live requests' id ∧
      ∀ i, itemLengths requests' id i = itemLengths requests id i) : SlotsKept requests' m where
  balanced := by
    refine h.balanced.congr ?_
    intro id i hi
    have hsome := ne_nil_of_mem hi
    exact (same id hsome (h.live id hsome)).2 i
  live := by
    intro id hsome
    exact (same id hsome (h.live id hsome)).1

section

variable (h : SlotsKept requests m)
include h

theorem of_identities
    (same : ∀ id, (requests' id).map Request.identity = (requests id).map Request.identity)
    (live : ∀ id, Live requests id → Live requests' id) : SlotsKept requests' m := by
  refine h.congr fun id _ hlive => ⟨live id hlive, fun i => ?_⟩
  have hlen : ∀ x : Option Request,
      (x.map fun r => r.itemLength i) = (x.map Request.identity).map fun r => r.itemLength i := by
    intro x
    cases x <;> rfl
  unfold itemLengths
  rw [hlen (requests' id), same, ← hlen]

/-- The items of a request that has none may change. -/
theorem update {id : String} (none : m.cached id = []) (x : Option Request) :
    SlotsKept (Function.update requests id x) m := by
  refine h.congr fun a hsome hlive => ?_
  have hne : a ≠ id := fun heq => hsome (heq ▸ none)
  constructor
  · obtain ⟨r, hr, hlive⟩ := hlive
    exact ⟨r, by simpa [hne] using hr, hlive⟩
  · intro i
    simp [itemLengths, hne]

theorem released (hm' : Released (itemLengths requests) r m m') : SlotsKept requests m' where
  balanced := hm'.balanced
  live := by
    intro id hsome
    refine h.live id fun hnone => hsome ?_
    by_cases hid : id = r.requestId
    · subst hid
      have hsub := hm'.sublist
      rw [hnone] at hsub
      exact sublist_nil.mp hsub
    · rw [hm'.others id hid, hnone]

theorem allocated (known : requests r.requestId = some r) (live : r.isFinished = false)
    (nodup : inputs.Nodup) (new : ∀ i ∈ inputs, i ∉ m.cached r.requestId)
    (hok : ScheduleState.allocateEncoderInputs m r inputs = .ok m') : SlotsKept requests m' := by
  obtain ⟨hbalanced, -, hcached, -, -⟩ :=
    h.balanced.allocateAll (itemLengths_of_known known) nodup new hok
  refine ⟨hbalanced, fun id hsome => ?_⟩
  by_cases hid : id = r.requestId
  · exact ⟨r, hid ▸ known, live⟩
  · refine h.live id ?_
    simpa [hcached, hid] using hsome

end

end SlotsKept

/-! ### Rounds of a call -/

/-- The pairs of a request and one of its items. -/
def itemPairs (inputs : List (String × List ℕ)) : List (String × ℕ) :=
  inputs.flatMap fun entry => entry.2.map fun i => (entry.1, i)

section Rounds

variable {env : Kv.HashEnv} {ext : External} {st st' : ScheduleState} {r : Request}
  {s₀ : Scheduler} {inputs : List ℕ} {numComputedTokens n : ℤ}

/-- The items that are planned for a request are allocated and recorded. -/
structure Encodes (st st' : ScheduleState) (r : Request) (numComputedTokens n : ℤ)
    (inputs : List ℕ) : Prop where
  known : st.scheduler.requests r.requestId = some r
  planned : st.scheduler.Planned r numComputedTokens n st.encoderBudget inputs
  allocated : ScheduleState.allocateEncoderInputs st.scheduler.encoderCacheManager r inputs =
    .ok st'.scheduler.encoderCacheManager
  recorded : st'.scheduledEncoderInputs = if inputs ≠ [] then
      setKey st.scheduledEncoderInputs r.requestId inputs
    else st.scheduledEncoderInputs

/-- The encoder cache and the record of its items are left alone. -/
structure KeepsItems (st st' : ScheduleState) : Prop where
  encoder : st'.scheduler.encoderCacheManager = st.scheduler.encoderCacheManager
  recorded : st'.scheduledEncoderInputs = st.scheduledEncoderInputs

theorem planRunning_eq (st : ScheduleState) (r : Request) :
    st.planRunning r = st.scheduler.tryScheduleEncoderInputs r r.numComputedTokens
      (st.scheduler.config.numNewTokens r st.tokenBudget) st.encoderBudget := by
  unfold ScheduleState.planRunning
  split
  · rfl
  · rename_i hnone
    rw [Scheduler.tryScheduleEncoderInputs, if_pos (.inr (by simpa using hnone))]

/-- The number of tokens that a waiting request is offered. -/
def ScheduleState.waitingOffer (st : ScheduleState) (r : Request) (found : ComputedTokens) : ℤ :=
  min (st.scheduler.config.clipLongPrefill (r.numTokens - found.numComputedTokens)) st.tokenBudget

/-- A waiting request is offered tokens: none are loaded for it, and its tokens are not cut where
that is not allowed. -/
def ScheduleState.Offers (st : ScheduleState) (r : Request) (found : ComputedTokens) : Prop :=
  found.loadKvAsync = false ∧ (st.scheduler.config.chunkedPrefillEnabled = true ∨
    st.scheduler.config.clipLongPrefill (r.numTokens - found.numComputedTokens) ≤ st.tokenBudget)

theorem planWaiting_offers {found : ScheduleState.ComputedTokens} {newEncoderBudget : ℤ}
    {kv : Kv.KVCacheManager} (sync : found.loadKvAsync = false)
    (hok : (st.setKv kv).planWaiting r found = .ok (.schedule inputs n newEncoderBudget)) :
    st.Offers r found := by
  refine ⟨sync, ?_⟩
  unfold ScheduleState.planWaiting at hok
  rw [if_neg (by simp [sync])] at hok
  dsimp only at hok
  split at hok
  · cases hok
  · rename_i hcut
    rw [not_and_or, Bool.not_eq_false, not_lt] at hcut
    exact hcut

theorem planWaiting_planned {found : ScheduleState.ComputedTokens} {newEncoderBudget : ℤ}
    (sync : found.loadKvAsync = false)
    (hok : st.planWaiting r found = .ok (.schedule inputs n newEncoderBudget)) :
    st.scheduler.Planned r found.numComputedTokens (st.waitingOffer r found) st.encoderBudget
      inputs := by
  unfold ScheduleState.planWaiting at hok
  rw [if_neg (by simp [sync])] at hok
  dsimp only at hok
  split at hok
  · cases hok
  · split at hok
    · cases hok
    · split at hok
      · split at hok
        · cases hok
        · rename_i htry
          split at hok
          · cases hok
          · obtain ⟨rfl, -⟩ := ScheduleState.WaitingPlan.schedule.inj (Except.ok.inj hok)
            exact Scheduler.tryScheduleEncoderInputs_planned htry
      · obtain ⟨rfl, -⟩ := ScheduleState.WaitingPlan.schedule.inj (Except.ok.inj hok)
        exact .none

theorem RunningMove.encodes (h : RunningMove env st st') : KeepsItems st st' ∨
    ∃ r inputs, Current st r ∧ Encodes st st' r r.numComputedTokens
      (st.scheduler.config.numNewTokens r st.tokenBudget) inputs := by
  cases h with
  | pass _ _ => exact .inl ⟨rfl, rfl⟩
  | @schedule st₁ _ r inputs n budget kv newBlocks current plan _ others _ scheduled =>
    obtain ⟨encoder, henc, rfl⟩ := scheduleRunning_eq_ok scheduled
    rw [planRunning_eq] at plan
    have hthinned := others.thinned
    refine .inr ⟨r, inputs, current, current.known,
      Scheduler.tryScheduleEncoderInputs_planned plan, ?_, ?_⟩
    · rw [← hthinned.encoder]
      exact henc
    · rw [← hthinned.encoderInputs]
      rfl
  | giveUp _ _ _ others itself =>
    have hthinned := others.thinned
    have hlast := itself.thinned
    exact .inl ⟨hlast.encoder.trans hthinned.encoder,
      hlast.encoderInputs.trans hthinned.encoderInputs⟩

theorem WaitingMove.encodes (h : WaitingMove env ext st st') : KeepsItems st st' ∨
    ∃ r found inputs, Front st r ∧ st'.scheduler.running ≠ st.scheduler.running ∧
      ScheduleState.findComputedTokens env ext st.scheduler r = .ok found ∧ st.Offers r found ∧
      Encodes st st' r found.numComputedTokens (st.waitingOffer r found) inputs := by
  cases h with
  | remoteReady _ _ _ ready =>
    obtain ⟨kv, -, -, -, rfl⟩ := remoteReady_eq_ok ready
    exact .inl ⟨rfl, rfl⟩
  | grammarReady _ _ => exact .inl ⟨rfl, rfl⟩
  | look _ _ => exact .inl ⟨rfl, rfl⟩
  | skip _ _ _ _ => exact .inl ⟨rfl, rfl⟩
  | noSlots _ _ _ _ => exact .inl ⟨rfl, rfl⟩
  | startRemoteLoad _ _ _ _ _ _ _ => exact .inl ⟨rfl, rfl⟩
  | @admits r found kv _ waiting encoder inputs n budget front _ _ looked plan _ sync _ encoded =>
    have hplanned := planWaiting_planned sync plan
    exact .inr ⟨r, found, inputs, front, by simp [ScheduleState.admitted, ScheduleState.setKv],
      looked, planWaiting_offers sync plan, front.known,
      ⟨hplanned.nodup, hplanned.new, hplanned.free⟩, encoded, rfl⟩

/-- The slots in a call, and what was allocated in it. -/
structure CallSlots (s₀ : Scheduler) (st : ScheduleState) : Prop where
  kept : SlotsKept st.scheduler.requests st.scheduler.encoderCacheManager
  size : st.scheduler.encoderCacheManager.cacheSize = s₀.encoderCacheManager.cacheSize
  counted : ∀ id i, (st.scheduler.encoderCacheManager.cached id).count i +
      st.scheduler.encoderCacheManager.freed.count (id, i) =
    (s₀.encoderCacheManager.cached id).count i + s₀.encoderCacheManager.freed.count (id, i) +
      (itemPairs st.scheduledEncoderInputs).count (id, i)

theorem count_itemPairs_append (d : List (String × List ℕ)) (key id : String) (i : ℕ) :
    (itemPairs (d ++ [(key, inputs)])).count (id, i) =
      (itemPairs d).count (id, i) + if id = key then inputs.count i else 0 := by
  simp only [itemPairs, flatMap_append, flatMap_singleton, count_append]
  congr 1
  split
  · rename_i hid
    subst hid
    exact count_map_of_injective _ _ (fun a b h => (Prod.mk.inj h).2) _
  · rename_i hid
    rw [count_eq_zero]
    simp [Ne.symm hid]

/-- What is allocated for a request that was given no tokens before is recorded once. -/
theorem Encodes.callSlots (h : Encodes st st' r numComputedTokens n inputs)
    (live : r.isFinished = false) (once : ScheduledOnce st) (new : r.requestId ∉ st.scheduledIds)
    (hst : CallSlots s₀ st) :
    SlotsKept st.scheduler.requests st'.scheduler.encoderCacheManager ∧
      st'.scheduler.encoderCacheManager.cacheSize = s₀.encoderCacheManager.cacheSize ∧
      (∀ id i, (st'.scheduler.encoderCacheManager.cached id).count i +
          st'.scheduler.encoderCacheManager.freed.count (id, i) =
        (s₀.encoderCacheManager.cached id).count i + s₀.encoderCacheManager.freed.count (id, i) +
          (itemPairs st'.scheduledEncoderInputs).count (id, i)) := by
  have hkept := hst.kept.allocated h.known live h.planned.nodup h.planned.new h.allocated
  obtain ⟨-, -, hcached, hfreed, hsize⟩ := hst.kept.balanced.allocateAll
    (SlotsKept.itemLengths_of_known h.known) h.planned.nodup h.planned.new h.allocated
  refine ⟨hkept, hsize.trans hst.size, fun id i => ?_⟩
  have hrecorded : (itemPairs st'.scheduledEncoderInputs).count (id, i) =
      (itemPairs st.scheduledEncoderInputs).count (id, i) +
        if id = r.requestId then inputs.count i else 0 := by
    rw [h.recorded]
    split
    · rw [setKey_of_notMem _ fun hkey => new (once.encoder hkey), count_itemPairs_append]
    · rename_i hnone
      simp [not_not.mp hnone]
  have hcount := hst.counted id i
  rw [hrecorded, hfreed, hcached]
  by_cases hid : id = r.requestId
  · subst hid
    rw [update_self, count_append, if_pos rfl]
    omega
  · rw [update_of_ne hid, if_neg hid]
    omega

/-- The slots suffice for items that fit together. -/
theorem Encodes.free (h : Encodes st st' r numComputedTokens n inputs) (hst : CallSlots s₀ st)
    (fit : st.scheduler.FitTogether r numComputedTokens n st.encoderBudget)
    (hfree : 0 ≤ st.scheduler.encoderCacheManager.numFreeSlots) :
    0 ≤ st'.scheduler.encoderCacheManager.numFreeSlots := by
  obtain ⟨-, hfree', -, -, -⟩ := hst.kept.balanced.allocateAll
    (SlotsKept.itemLengths_of_known h.known) h.planned.nodup h.planned.new h.allocated
  have hsum := h.planned.free hfree fit
  rw [hfree']
  omega

theorem Preempts.live {n : ℤ} {victim id : String} (h : Preempts env r n st victim st')
    (live : Live st.scheduler.requests id) : Live st'.scheduler.requests id := by
  cases h with
  | @mk v _ _ _ _ _ _ _ _ _ => exact live.update (r := v.preempted) rfl

theorem PreemptsOthers.live {n : ℤ} {id : String} (h : PreemptsOthers env r n st st')
    (live : Live st.scheduler.requests id) : Live st'.scheduler.requests id :=
  h.preserves (P := fun u => Live u.scheduler.requests id) (fun _ _ _ ht hlast => hlast.live ht)
    live

theorem Current.live (current : Current st r) (hst : st.Filed) : r.isFinished = false := by
  rw [Request.isFinished, current.runs hst]
  rfl

theorem Front.live (front : Front st r) (hst : st.Filed) : r.isFinished = false := by
  have hwaits := front.waits hst
  unfold Request.isFinished
  cases hstatus : r.status <;> simp_all [RequestStatus.isWaiting, RequestStatus.isFinished]

theorem RunningMove.live {id : String} (h : RunningMove env st st') (hst : st.Filed)
    (live : Live st.scheduler.requests id) : Live st'.scheduler.requests id := by
  cases h with
  | pass _ _ => exact live
  | @schedule st₁ _ r inputs n budget kv newBlocks current _ _ others _ scheduled =>
    obtain ⟨_, -, rfl⟩ := scheduleRunning_eq_ok scheduled
    refine (others.live live).update (r := ScheduleState.trimSpec r n) ?_
    rw [Request.isFinished, trimSpec_status]
    exact current.live hst
  | giveUp _ _ _ others itself => exact itself.live (others.live live)

theorem WaitingMove.live {id : String} (h : WaitingMove env ext st st')
    (live : Live st.scheduler.requests id) : Live st'.scheduler.requests id := by
  cases h with
  | remoteReady _ _ _ ready =>
    obtain ⟨_, -, -, rfl, rfl⟩ := remoteReady_eq_ok ready
    exact live.update rfl
  | @grammarReady r _ _ => exact live.update (r := { r with status := .waiting }) rfl
  | look _ _ => exact live
  | skip _ _ _ _ => exact live
  | noSlots _ _ _ _ => exact live
  | @startRemoteLoad r _ _ _ _ _ _ _ _ _ _ _ _ _ _ _ =>
    exact live.update (r := { r with status := .waitingForRemoteKvs }) rfl
  | @admits r found _ _ _ _ _ _ _ _ _ _ _ _ _ _ _ _ =>
    exact live.update (r := ScheduleState.startRunning r found.numComputedTokens) rfl

/-- Changes of requests that keep their items do not matter. -/
theorem CallSlots.of_identities (hst : CallSlots s₀ st) (hkeeps : KeepsItems st st')
    (same : st'.scheduler.identities = st.scheduler.identities)
    (live : ∀ id, Live st.scheduler.requests id → Live st'.scheduler.requests id) :
    CallSlots s₀ st' where
  kept := by
    rw [hkeeps.encoder]
    exact hst.kept.of_identities (fun id => congrFun same id) live
  size := by
    rw [hkeeps.encoder]
    exact hst.size
  counted := by
    rw [hkeeps.encoder, hkeeps.recorded]
    exact hst.counted

theorem RunningMove.callSlots (h : RunningMove env st st') (hfiled : st.Filed)
    (hvisited : Visited st) (hst : CallSlots s₀ st) : CallSlots s₀ st' := by
  rcases h.encodes with hkeeps | ⟨r, inputs, current, hencodes⟩
  · exact hst.of_identities hkeeps h.identities fun id => h.live hfiled
  · obtain ⟨hkept, hsize, hcounted⟩ := hencodes.callSlots (current.live hfiled)
      hvisited.toScheduledOnce (hvisited.current_notMem current) hst
    exact ⟨hkept.of_identities (fun id => congrFun h.identities id) fun id => h.live hfiled,
      hsize, hcounted⟩

theorem WaitingMove.callSlots (h : WaitingMove env ext st st') (hfiled : st.Filed)
    (hpre : st.preemptedReqs = []) (once : ScheduledOnce st) (hst : CallSlots s₀ st) :
    CallSlots s₀ st' := by
  rcases h.encodes with hkeeps | ⟨r, found, inputs, front, -, -, -, hencodes⟩
  · exact hst.of_identities hkeeps h.identities fun id => h.live
  · obtain ⟨hkept, hsize, hcounted⟩ := hencodes.callSlots (front.live hfiled) once
      (once.front_notMem hfiled hpre front) hst
    exact ⟨hkept.of_identities (fun id => congrFun h.identities id) fun id => h.live, hsize,
      hcounted⟩

end Rounds

/-! ### Calls -/

/-- Whenever a request is offered tokens in a call, those of its items that fit one by one fit
together. -/
structure Scheduler.ItemsFit (env : Kv.HashEnv) (ext : External) (s : Scheduler) : Prop where
  running : ∀ ids st r, Rounds env s ids st true → Current st r →
    st.scheduler.FitTogether r r.numComputedTokens
      (st.scheduler.config.numNewTokens r st.tokenBudget) st.encoderBudget
  waiting : ∀ st r found, Considered env ext s st r →
    ScheduleState.findComputedTokens env ext st.scheduler r = .ok found → st.Offers r found →
    st.scheduler.FitTogether r found.numComputedTokens (st.waitingOffer r found) st.encoderBudget

section Calls

variable {env : Kv.HashEnv} {ext : External} {s s' : Scheduler} {st : ScheduleState}

/-- The slots between two calls. -/
abbrev Scheduler.SlotsKept (s : Scheduler) : Prop :=
  Sched.SlotsKept s.requests s.encoderCacheManager

theorem callSlots_start (hs : s.SlotsKept) : CallSlots s s.startSchedule where
  kept := hs
  size := rfl
  counted := by simp [Scheduler.startSchedule, itemPairs]

theorem MidCall.callSlots (h : MidCall env ext s st) (hfiled : s.Filed) (hs : s.SlotsKept) :
    CallSlots s st := by
  refine (h.preserves (P := CallSlots s) hfiled (callSlots_start hs) ?_ ?_ ?_).2.2
  · exact fun _ _ _ _ ht hvisited hslots hmove => hmove.callSlots ht hvisited hslots
  · exact fun _ _ hslots => ⟨hslots.kept, hslots.size, hslots.counted⟩
  · exact fun _ _ _ ht hnone honce hslots hmove => hmove.move.callSlots ht hnone honce hslots

theorem MidCall.free (h : MidCall env ext s st) (hfiled : s.Filed) (hs : s.SlotsKept)
    (fit : s.ItemsFit env ext) (hfree : 0 ≤ s.encoderCacheManager.numFreeSlots) :
    0 ≤ st.scheduler.encoderCacheManager.numFreeSlots := by
  refine (h.preserves (P := fun t => 0 ≤ t.scheduler.encoderCacheManager.numFreeSlots) hfiled hfree
    ?_ (fun _ _ ht => ht) ?_).2.2
  · intro ids t u hrounds _ _ ht hmove
    have hmid : MidCall env ext s t := .running hrounds
    rcases hmove.encodes with hkeeps | ⟨r, inputs, current, hencodes⟩
    · rw [hkeeps.encoder]
      exact ht
    · exact hencodes.free (hmid.callSlots hfiled hs) (fit.running ids t r hrounds current) ht
  · intro t u hmid _ _ _ ht hmove
    rcases hmove.move.encodes with hkeeps | ⟨r, found, inputs, front, admits, looked, offers,
      hencodes⟩
    · rw [hkeeps.encoder]
      exact ht
    · exact hencodes.free (hmid.callSlots hfiled hs)
        (fit.waiting t r found (hmove.considered admits r front) looked offers) ht

/-- Requests with one item each meet the condition. -/
theorem Scheduler.itemsFit_of_single (hs : s.Filed)
    (h : ∀ id r, s.requests id = some r → r.mmPositions.length ≤ 1) : s.ItemsFit env ext := by
  have hsingle : ∀ st r, MidCall env ext s st → st.scheduler.requests r.requestId = some r →
      r.mmPositions.length ≤ 1 := by
    intro st r hmid known
    have hsame := congrFun (hmid.identities hs) r.requestId
    rw [identities, known, identities] at hsame
    obtain ⟨r₀, hr₀, hidentity⟩ := Option.map_eq_some_iff.mp hsame.symm
    have hitems := congrArg Request.mmPositions hidentity
    have hlen : r₀.mmPositions.length = r.mmPositions.length := congrArg List.length hitems
    rw [← hlen]
    exact h _ r₀ hr₀
  refine ⟨fun ids st r hrounds current => ?_, fun st r found considered _ _ => ?_⟩
  · exact fitTogether_of_single (hsingle st r (.running hrounds) current.known)
  · obtain ⟨hmid, front⟩ := considered.midCall hs.labelled
    exact fitTogether_of_single (hsingle st r hmid front.known)

end Calls

/-! ### Items are freed -/

/-- Items are freed and listed. -/
structure FreesItems (s s' : Scheduler) : Prop where
  kept : s'.SlotsKept
  size : s'.encoderCacheManager.cacheSize = s.encoderCacheManager.cacheSize
  listed : ∀ id i, (s'.encoderCacheManager.cached id).count i +
      s'.encoderCacheManager.freed.count (id, i) =
    (s.encoderCacheManager.cached id).count i + s.encoderCacheManager.freed.count (id, i)
  free : s.encoderCacheManager.numFreeSlots ≤ s'.encoderCacheManager.numFreeSlots

namespace FreesItems

variable {s s' s'' : Scheduler} {r : Request}

theorem trans (h : FreesItems s s') (h' : FreesItems s' s'') : FreesItems s s'' where
  kept := h'.kept
  size := h'.size.trans h.size
  listed id i := (h'.listed id i).trans (h.listed id i)
  free := h.free.trans h'.free

/-- The encoder cache is left alone. -/
theorem of_eq (kept : SlotsKept s'.requests s.encoderCacheManager)
    (encoder : s'.encoderCacheManager = s.encoderCacheManager) : FreesItems s s' := by
  refine ⟨?_, ?_, ?_, ?_⟩
  · rw [Scheduler.SlotsKept, encoder]
    exact kept
  · rw [encoder]
  · simp [encoder]
  · rw [encoder]

theorem of_released (h : Released (itemLengths s.requests) r s.encoderCacheManager
      s'.encoderCacheManager) (kept : s'.SlotsKept) : FreesItems s s' :=
  ⟨kept, h.size, h.listed, h.free⟩

end FreesItems

section Frees

variable {s s' : Scheduler} {r r' : Request}

theorem SlotsKept.setRequest {requests : String → Option Request} {m : EncoderCacheManager}
    (h : SlotsKept requests m) (known : requests r.requestId = some r)
    (same : r'.identity = r.identity) (status : r'.status = r.status) :
    SlotsKept (Function.update requests r.requestId (some r')) m := by
  refine h.of_identities ?_ ?_
  · intro id
    by_cases hid : id = r.requestId
    · subst hid
      simp [known, same]
    · simp [hid]
  · rintro id ⟨x, hx, hlive⟩
    by_cases hid : id = r.requestId
    · subst hid
      cases hx.symm.trans known
      refine ⟨r', by simp, ?_⟩
      rw [Request.isFinished, status]
      exact hlive
    · exact ⟨x, by simpa [hid] using hx, hlive⟩

theorem advance_freesItems {entry : String × ℤ} (hs : s.SlotsKept) (hlabelled : s.Labelled)
    (hok : s.advance entry = .ok s') : FreesItems s s' := by
  obtain ⟨id, n⟩ := entry
  obtain ⟨r, encoder, known, hconsumed, rfl⟩ := advance_eq_ok hok
  obtain rfl : r.requestId = id := hlabelled id r known
  -- the counted tokens do not change the items
  have hlen : ∀ i, itemLengths s.requests r.requestId i = r.itemLength i :=
    SlotsKept.itemLengths_of_known known
  have hreleased : Released (itemLengths s.requests)
      { r with numComputedTokens := r.numComputedTokens + n } s.encoderCacheManager encoder :=
    Released.consumed hs.balanced hlen hconsumed
  have hkept : SlotsKept (Function.update s.requests r.requestId
      (some { r with numComputedTokens := r.numComputedTokens + n })) encoder :=
    SlotsKept.setRequest (r := r) (hs.released hreleased) known rfl rfl
  exact .of_released hreleased hkept

/-- All items of a finished request are freed, so that it may be forgotten. -/
theorem freeRequest_freesItems {delayFreeBlocks : Bool} {x : Option Request} (hs : s.SlotsKept)
    (known : s.requests r.requestId = some r) (same : r'.identity = r.identity)
    {t : Scheduler} (encoder : t.encoderCacheManager = s.encoderCacheManager)
    (freed : t.freeRequest r' delayFreeBlocks = .ok s') :
    FreesItems s { s' with requests := Function.update s.requests r.requestId x } := by
  have hid : r'.requestId = r.requestId := by
    have hids := congrArg Request.requestId same
    exact hids
  have hposs : r'.mmPositions = r.mmPositions := by
    have hitems := congrArg Request.mmPositions same
    exact hitems
  have hlen : ∀ i, itemLengths s.requests r'.requestId i = r'.itemLength i := by
    intro i
    rw [hid, SlotsKept.itemLengths_of_known known, Request.itemLength, Request.itemLength,
      hposs]
  obtain ⟨-, m, hm, hs'⟩ := Scheduler.freeRequest_eq_ok freed
  have hm' : s'.encoderCacheManager = m := by
    rcases hs' with ⟨rfl, -, -⟩ | hblocks
    · rfl
    · obtain ⟨-, _, -, rfl⟩ := Scheduler.freeBlocks_eq_ok hblocks
      rfl
  rw [encoder] at hm
  obtain ⟨hreleased, hnone⟩ := Released.all hs.balanced hlen hm
  rw [← hm'] at hreleased hnone
  refine .of_released hreleased ?_
  rw [hid] at hnone
  exact (hs.released hreleased).update hnone x

theorem addRequest_freesItems (hs : s.SlotsKept) (unknown : s.requests r.requestId = none)
    (hok : s.addRequest r = .ok s') : FreesItems s s' := by
  obtain ⟨_, -, hok⟩ := bind_eq_ok.mp hok
  cases hok
  refine .of_eq (hs.update ?_ (some r)) rfl
  by_contra hsome
  obtain ⟨_, hx, -⟩ := hs.live _ hsome
  rw [unknown] at hx
  cases hx

theorem finishRequest_freesItems {status : RequestStatus} {delayFreeBlocks : String → Bool}
    (hs : s.SlotsKept) (known : s.requests r.requestId = some r)
    (hok : Scheduler.finishRequest status delayFreeBlocks s r = .ok s') : FreesItems s s' := by
  obtain ⟨-, -, -, x, -, hreqs⟩ := finishRequest_eq_ok hok
  have same : ({ r with status := status } : Request).identity = r.identity := rfl
  have hfrees := freeRequest_freesItems (x := x) hs known same
    (t := s.setRequest { r with status := status }) rfl hok
  rw [← hreqs] at hfrees
  exact hfrees

theorem finishRequests_freesItems {ids : List String} {status : RequestStatus}
    {delayFreeBlocks : String → Bool} (hs : s.SlotsKept) (hfiled : s.Filed)
    (hok : s.finishRequests ids status delayFreeBlocks = .ok s') : FreesItems s s' := by
  obtain ⟨-, running, waiting, -, -, hfold⟩ := finishRequests_eq_ok hok
  have hnodup : ((ids.dedup.filterMap s.requests).map Request.requestId).Nodup :=
    (nodup_dedup ids).sublist (map_requestId_filterMap hfiled.labelled _)
  have hvalid : ∀ r ∈ ids.dedup.filterMap s.requests,
      ({ s with running := running, waiting := waiting } : Scheduler).requests r.requestId =
        some r := by
    intro r hr
    obtain ⟨id, -, hid⟩ := mem_filterMap.mp hr
    rw [hfiled.lists.labelled id r hid]
    exact hid
  have hstart : FreesItems s { s with running := running, waiting := waiting } := .of_eq hs rfl
  generalize ids.dedup.filterMap s.requests = valid at hfold hnodup hvalid
  generalize ({ s with running := running, waiting := waiting } : Scheduler) = t
    at hfold hvalid hstart
  induction valid generalizing t with
  | nil =>
    cases hfold
    exact hstart
  | cons r rest ih =>
    obtain ⟨u, hfirst, hrest⟩ := foldlM_cons_eq_ok.mp hfold
    obtain ⟨hout, hnodup⟩ := nodup_cons.mp hnodup
    have hnext := finishRequest_freesItems hstart.kept (hvalid r mem_cons_self) hfirst
    obtain ⟨-, -, -, _, -, hreqs⟩ := finishRequest_eq_ok hfirst
    refine ih hnodup u hrest ?_ (hstart.trans hnext)
    intro r' hr'
    have hne : r'.requestId ≠ r.requestId := by
      intro heq
      exact hout (heq ▸ mem_map_of_mem hr')
    rw [hreqs, update_of_ne hne]
    exact hvalid r' (mem_cons_of_mem _ hr')

theorem UpdateMove.freesItems {batch : SchedulerOutput} {out : ModelRunnerOutput}
    {st st' : UpdateState} (h : UpdateMove batch out st r st') (hs : st.scheduler.SlotsKept)
    (known : st.scheduler.requests r.requestId = some r) :
    FreesItems st.scheduler st'.scheduler := by
  cases h with
  | @goOn given r' _ _ grown status _ scheduler _ _ =>
    rw [scheduler]
    have hkept := hs.setRequest known grown.identity status
    rw [← grown.requestId] at hkept
    exact .of_eq hkept rfl
  | @stop given tokens r' t x _ _ grown _ freed _ scheduler _ _ =>
    rw [scheduler]
    exact freeRequest_freesItems (t := st.scheduler.setRequest r') hs known grown.identity rfl
      freed

/-- A finished request has no items when its blocks have been sent. -/
theorem finishSending_freesItems {id : String} (hs : s.SlotsKept) (hlabelled : s.Labelled)
    (hok : s.finishSending id = .ok s') : FreesItems s s' := by
  obtain ⟨r, hr, hfreed⟩ := bind_eq_ok.mp hok
  rw [Scheduler.request_eq_ok] at hr
  obtain ⟨hfin, _, -, rfl⟩ := Scheduler.freeBlocks_eq_ok hfreed
  obtain rfl := hlabelled id r hr
  refine .of_eq (hs.update ?_ none) rfl
  by_contra hsome
  obtain ⟨_, hx, hlive⟩ := hs.live _ hsome
  cases hr.symm.trans hx
  rw [hfin] at hlive
  cases hlive

theorem updateFromOutput_freesItems {batch : SchedulerOutput} {out : ModelRunnerOutput}
    {outputs : List (ℕ × List EngineCoreOutput)} (hs : s.SlotsKept) (hfiled : s.Filed)
    (hok : s.updateFromOutput batch out = .ok (s', outputs)) : FreesItems s s' := by
  obtain ⟨st, _, hupds, hremove, hsending, -⟩ := updateFromOutput_eq_ok hok
  have hst : st.Filed ∧ FreesItems s st.scheduler := by
    refine foldlM_updateOne_preserves (P := fun u => u.Filed ∧ FreesItems s u.scheduler)
      hupds ⟨⟨by simpa using hfiled.lists, hfiled.policy⟩, .of_eq hs rfl⟩
      (fun u hu => hu.1.lists.labelled) ?_
    intro u r v _ ⟨hu, hfrees⟩ known hmove
    exact ⟨hmove.filed known hu, hfrees.trans (hmove.freesItems hfrees.kept known)⟩
  have hs₁ := removeStopped_filed hremove hst.1
  obtain ⟨waiting, -, hok⟩ := bind_eq_ok.mp hremove
  cases hok
  have hreceived : FreesItems s (Scheduler.receiveFinished { st.scheduler with
      running := st.scheduler.running.filter (· ∉ st.stoppedRunningReqs)
      waiting := waiting } out) := hst.2.trans (.of_eq hst.2.kept rfl)
  have hlast : s'.Filed ∧ FreesItems s s' := by
    refine foldlM_finishSending_preserves (P := fun t => t.Filed ∧ FreesItems s t) ?_ hsending
      ⟨⟨hs₁.lists, hs₁.policy⟩, hreceived⟩
    intro t id u ⟨ht, hfrees⟩ hu
    exact ⟨finishSending_filed hu ht,
      hfrees.trans (finishSending_freesItems hfrees.kept ht.labelled hu)⟩
  exact hlast.2

/-- What a call that returns has done to the slots. -/
structure ScheduledItems (env : Kv.HashEnv) (ext : External) (s s' : Scheduler)
    (output : SchedulerOutput) : Prop where
  kept : s'.SlotsKept
  size : s'.encoderCacheManager.cacheSize = s.encoderCacheManager.cacheSize
  counted : ∀ id i, output.freeEncoderInputIds.count (id, i) +
      (s'.encoderCacheManager.cached id).count i + s'.encoderCacheManager.freed.count (id, i) =
    (s.encoderCacheManager.cached id).count i + s.encoderCacheManager.freed.count (id, i) +
      (itemPairs output.scheduledEncoderInputs).count (id, i)
  free : ∃ st, MidCall env ext s st ∧
    st.scheduler.encoderCacheManager.numFreeSlots ≤ s'.encoderCacheManager.numFreeSlots

theorem schedule_items {env : Kv.HashEnv} {ext : External} {output : SchedulerOutput}
    (hs : s.SlotsKept) (hfiled : s.Filed) (hok : s.schedule env ext = .ok (s', output)) :
    ScheduledItems env ext s s' output := by
  obtain ⟨st, s'', hst, houtput, hadvance, rfl⟩ := schedule_eq_ok hok
  obtain ⟨_, _, _, hphases⟩ := phases_of_eq_ok hfiled.labelled hst
  obtain ⟨t, _, _, hmid, -, hst'⟩ := hphases.midCall hfiled.labelled
  have henc : st.scheduler.encoderCacheManager = t.scheduler.encoderCacheManager := by
    rw [hst']
  have hinputs : st.scheduledEncoderInputs = t.scheduledEncoderInputs := by rw [hst']
  have hslots := hmid.callSlots hfiled hs
  obtain ⟨-, -, -, hscheduled, hfreed⟩ := makeOutput_eq_ok houtput
  -- the list of freed items starts again, and what the scheduled tokens consume is put on it
  have htaken : st.scheduler.takeFreedIds.SlotsKept := by
    have hreqs : st.scheduler.requests = t.scheduler.requests := by rw [hst']
    have hkept := hslots.kept
    rw [← hreqs, ← henc] at hkept
    exact ⟨⟨hkept.balanced.nodup, hkept.balanced.balance⟩, hkept.live⟩
  have hlast : s''.Labelled ∧ FreesItems st.scheduler.takeFreedIds s'' := by
    refine foldlM_advance_preserves
      (P := fun u => u.Labelled ∧ FreesItems st.scheduler.takeFreedIds u) ?_ hadvance
      ⟨(hphases.filed hfiled).2.labelled, .of_eq htaken rfl⟩
    intro u entry v ⟨hlabelled, hfrees⟩ hv
    exact ⟨(advance_identities hlabelled hv).1,
      hfrees.trans (advance_freesItems hfrees.kept hlabelled hv)⟩
  have hfrees := hlast.2
  refine ⟨hfrees.kept, ?_, ?_, t, hmid, ?_⟩
  · rw [← hslots.size, ← henc]
    exact hfrees.size
  · intro id i
    have hcounted := hslots.counted id i
    have hlisted := hfrees.listed id i
    rw [hfreed, hscheduled, hinputs]
    rw [← henc] at hcounted
    have hnone : st.scheduler.takeFreedIds.encoderCacheManager.freed.count (id, i) = 0 := rfl
    have hsame : st.scheduler.takeFreedIds.encoderCacheManager.cached =
        st.scheduler.encoderCacheManager.cached := rfl
    rw [hnone, hsame] at hlisted
    dsimp only
    omega
  · rw [← henc]
    exact hfrees.free

end Frees

/-! ### Runs -/

/-- The items that were allocated in a run. -/
def allocatedItems (events : List Event) : List (String × ℕ) :=
  events.flatMap fun
    | .scheduled _ batch => itemPairs batch.scheduledEncoderInputs
    | _ => []

/-- The items that were reported as freed in a run. -/
def reportedItems (events : List Event) : List (String × ℕ) :=
  events.flatMap fun
    | .scheduled _ batch => batch.freeEncoderInputIds
    | _ => []

/-- A step in which, if it is a call of `schedule`, the items that a request is offered fit
together if they fit one by one. -/
def FittingStep (env : Kv.HashEnv) (p : Pipeline) (event : Event) (q : Pipeline) : Prop :=
  Step env p event q ∧ ∀ ext batch, event = .scheduled ext batch → p.scheduler.ItemsFit env ext

/-- The slots and the reports in a run. -/
structure ItemsAccounted (size : ℕ) (events : List Event) (s : Scheduler) : Prop where
  filed : s.Filed
  kept : s.SlotsKept
  size : s.encoderCacheManager.cacheSize = size
  counted : ∀ id i, (allocatedItems events).count (id, i) =
    (reportedItems events).count (id, i) + (s.encoderCacheManager.cached id).count i +
      s.encoderCacheManager.freed.count (id, i)

section Runs

variable {env : Kv.HashEnv} {ext : External} {p q : Pipeline} {event : Event}
  {events : List Event} {config : SchedulerConfig} {encoderCacheSize : ℕ}
  {kvCacheManager : Kv.KVCacheManager}

theorem ItemsAccounted.freesItems {size : ℕ} {s s' : Scheduler}
    (h : ItemsAccounted size events s) (hfiled : s'.Filed) (hfrees : FreesItems s s')
    (allocated : allocatedItems (events ++ [event]) = allocatedItems events)
    (reported : reportedItems (events ++ [event]) = reportedItems events) :
    ItemsAccounted size (events ++ [event]) s' := by
  refine ⟨hfiled, hfrees.kept, hfrees.size.trans h.size, fun id i => ?_⟩
  have hcounted := h.counted id i
  have hlisted := hfrees.listed id i
  rw [allocated, reported]
  omega

/-- A step keeps account of the items, and only a call of `schedule` takes slots. -/
theorem Step.itemsAccounted {size : ℕ} (h : Step env p event q)
    (hp : ItemsAccounted size events p.scheduler) :
    ItemsAccounted size (events ++ [event]) q.scheduler ∧
      ((∀ ext batch, event = .scheduled ext batch → p.scheduler.ItemsFit env ext) →
        0 ≤ p.scheduler.encoderCacheManager.numFreeSlots →
          0 ≤ q.scheduler.encoderCacheManager.numFreeSlots) := by
  have hfiled := h.filed hp.filed
  cases h with
  | added _ unknown returns =>
    have hfrees := addRequest_freesItems hp.kept unknown returns
    exact ⟨hp.freesItems hfiled hfrees (by simp [allocatedItems]) (by simp [reportedItems]),
      fun _ h => h.trans hfrees.free⟩
  | finished returns =>
    have hfrees := finishRequests_freesItems hp.kept hp.filed returns
    exact ⟨hp.freesItems hfiled hfrees (by simp [allocatedItems]) (by simp [reportedItems]),
      fun _ h => h.trans hfrees.free⟩
  | @scheduled _ ext s batch executed returns _ =>
    have hitems := schedule_items hp.kept hp.filed returns
    refine ⟨⟨hfiled, hitems.kept, hitems.size.trans hp.size, fun id i => ?_⟩, fun fit hfree => ?_⟩
    · have hcounted := hp.counted id i
      have hcall := hitems.counted id i
      have hallocated : allocatedItems (events ++ [Event.scheduled ext batch]) =
          allocatedItems events ++ itemPairs batch.scheduledEncoderInputs := by
        simp [allocatedItems]
      have hreported : reportedItems (events ++ [Event.scheduled ext batch]) =
          reportedItems events ++ batch.freeEncoderInputIds := by
        simp [reportedItems]
      rw [hallocated, hreported, count_append, count_append]
      dsimp only
      omega
    · obtain ⟨_, hmid, hle⟩ := hitems.free
      exact (hmid.free hp.filed hp.kept (fit ext batch rfl) hfree).trans hle
  | @updated s s' batch rest out outputs returns =>
    have hfrees := updateFromOutput_freesItems hp.kept hp.filed returns
    exact ⟨hp.freesItems hfiled hfrees (by simp [allocatedItems]) (by simp [reportedItems]),
      fun _ h => h.trans hfrees.free⟩
  | resetPrefixCache =>
    have hfrees : FreesItems p.scheduler p.scheduler.resetPrefixCache.2 := .of_eq hp.kept rfl
    exact ⟨hp.freesItems hfiled hfrees (by simp [allocatedItems]) (by simp [reportedItems]),
      fun _ h => h.trans hfrees.free⟩

theorem itemsAccounted_new : ItemsAccounted encoderCacheSize []
    (.new config encoderCacheSize kvCacheManager) where
  filed := new_filed _ _ _
  kept := by
    refine ⟨⟨fun id => nodup_nil, ∅, fun id hsome => absurd rfl hsome, ?_⟩,
      fun id hsome => absurd rfl hsome⟩
    simp [Scheduler.new, EncoderCacheManager.new]
  size := rfl
  counted := by simp [allocatedItems, reportedItems, Scheduler.new, EncoderCacheManager.new]

/-- In runs whose calls offer only items that fit together, the free slots are those that no
cached item takes, and there are never less than none, between calls and during a call. Every item
that was allocated is cached, or is listed for the next call, or was reported, and each of these
once for every time that it was allocated. -/
theorem slots_of_execution
    (run : Execution (FittingStep env) ⟨.new config encoderCacheSize kvCacheManager, []⟩ events p) :
    (Balanced (itemLengths p.scheduler.requests) p.scheduler.encoderCacheManager ∧
      p.scheduler.encoderCacheManager.cacheSize = encoderCacheSize ∧
      0 ≤ p.scheduler.encoderCacheManager.numFreeSlots) ∧
    (∀ id i, (allocatedItems events).count (id, i) = (reportedItems events).count (id, i) +
      (p.scheduler.encoderCacheManager.cached id).count i +
      p.scheduler.encoderCacheManager.freed.count (id, i)) ∧
    ∀ ext st, p.scheduler.ItemsFit env ext → MidCall env ext p.scheduler st →
      Balanced (itemLengths st.scheduler.requests) st.scheduler.encoderCacheManager ∧
        0 ≤ st.scheduler.encoderCacheManager.numFreeSlots := by
  have hrun : ItemsAccounted encoderCacheSize events p.scheduler ∧
      0 ≤ p.scheduler.encoderCacheManager.numFreeSlots := by
    refine run.invariant (P := fun events p => ItemsAccounted encoderCacheSize events p.scheduler ∧
      0 ≤ p.scheduler.encoderCacheManager.numFreeSlots) ⟨itemsAccounted_new, ?_⟩ ?_
    · simp [Scheduler.new, EncoderCacheManager.new]
    · rintro events p event q ⟨hp, hfree⟩ ⟨hstep, fit⟩
      obtain ⟨hq, hkeeps⟩ := hstep.itemsAccounted hp
      exact ⟨hq, hkeeps fit hfree⟩
  obtain ⟨hp, hfree⟩ := hrun
  refine ⟨⟨hp.kept.balanced, hp.size, hfree⟩, hp.counted, fun ext st fit hmid => ?_⟩
  exact ⟨(hmid.callSlots hp.filed hp.kept).kept.balanced, hmid.free hp.filed hp.kept fit hfree⟩

theorem schedule_remembers {s s' : Scheduler} {output : SchedulerOutput} (hs : s.Filed)
    (hok : s.schedule env ext = .ok (s', output)) : Remembers s s' := by
  obtain ⟨st, s'', hst, -, hadvance, rfl⟩ := schedule_eq_ok hok
  obtain ⟨_, _, _, hphases⟩ := phases_of_eq_ok hs.labelled hst
  have hlabelled : st.scheduler.takeFreedIds.Labelled := (hphases.filed hs).2.labelled
  obtain ⟨t, _, _, hmid, -, rfl⟩ := hphases.midCall hs.labelled
  have hsame : t.scheduler.identities = s.identities := hmid.identities hs
  have hlast : s''.Labelled ∧ s''.identities = t.scheduler.identities := by
    refine foldlM_advance_preserves
      (P := fun u => u.Labelled ∧ u.identities = t.scheduler.identities) ?_ hadvance
      ⟨hlabelled, rfl⟩
    intro u entry v ⟨hlabelled, hsame⟩ hv
    obtain ⟨hlabelled', hsame'⟩ := advance_identities hlabelled hv
    exact ⟨hlabelled', hsame'.trans hsame⟩
  intro id x hx
  rw [← hsame, ← hlast.2]
  exact hx

/-- No request has more than one item. -/
def SingleItems (s : Scheduler) : Prop :=
  ∀ id r, s.requests id = some r → r.mmPositions.length ≤ 1

theorem Remembers.singleItems {s s' : Scheduler} (h : Remembers s s') (single : SingleItems s) :
    SingleItems s' := by
  intro id r hr
  have hold := h id r.identity (by rw [Scheduler.identities, hr]; rfl)
  obtain ⟨r₀, hr₀, hsame⟩ := Option.map_eq_some_iff.mp hold
  have hitems : r₀.identity.mmPositions = r.identity.mmPositions := by rw [hsame]
  change r₀.mmPositions = r.mmPositions at hitems
  rw [← hitems]
  exact single id r₀ hr₀

/-- Where only requests with one item are added, the items fit. -/
theorem fittingStep_of_single (h : Step env p event q) (hp : p.scheduler.Filed)
    (single : SingleItems p.scheduler)
    (added : ∀ r, event = .added r → r.mmPositions.length ≤ 1) :
    FittingStep env p event q ∧ SingleItems q.scheduler := by
  refine ⟨⟨h, fun _ _ _ => Scheduler.itemsFit_of_single hp single⟩, ?_⟩
  cases h with
  | @added _ r _ _ _ returns =>
    obtain ⟨_, -, hok⟩ := bind_eq_ok.mp returns
    cases hok
    intro id r' hr'
    by_cases heq : id = r.requestId
    · subst heq
      obtain rfl : r = r' := by simpa [Scheduler.setRequest] using hr'
      exact added r rfl
    · refine single id r' ?_
      simpa [Scheduler.setRequest, heq] using hr'
  | finished returns => exact (finishRequests_remembers hp returns).singleItems single
  | scheduled returns _ => exact (schedule_remembers hp returns).singleItems single
  | updated returns => exact (updateFromOutput_remembers hp returns).singleItems single
  | resetPrefixCache => exact single

end Runs

/-! ### Items that do not fit together -/

section Example

/-- At most two tokens of a prompt in a call, and eight slots. -/
def smallChunks : SchedulerConfig where
  policy := .priority
  maxNumRunningReqs := 4
  maxNumScheduledTokens := 8
  maxModelLen := 32
  longPrefillTokenThreshold := 2
  blockSize := 2
  maxNumEncoderInputTokens := 8

/-- A request with a prompt of ten tokens. -/
def withItems (requestId : String) (priority : ℤ) (arrivalTime : ℚ)
    (mmPositions : List Kv.PlaceholderRange) : Request where
  requestId := requestId
  promptTokenIds := [1, 2, 3, 4, 5, 6, 7, 8, 9, 10]
  maxTokens := 4
  priority := priority
  arrivalTime := arrivalTime
  mmPositions := mmPositions

/-- A request with an item of five tokens runs when two others with one item each are added. -/
def singleItemCommands : List Command :=
  [.add (withItems "high" 0 0 [⟨0, 5⟩]), .schedule {},
    .update { sampledTokenIds := fun _ => some [] }, .add (withItems "other" 0 1 [⟨0, 3⟩]),
    .add (withItems "third" 0 2 [⟨0, 4⟩]), .schedule {}]

/-- There are slots left for one of them. -/
theorem slots_of_execution_single : ∃ kv events p,
    Kv.KVCacheManager.new (Pipeline.oneGroup 20 2) 32 false false false = .ok kv ∧
    Execution (FittingStep Kv.encodedHash) ⟨.new smallChunks 8 kv, []⟩ events p ∧
    p.scheduler.running = ["high", "other"] ∧ p.scheduler.waiting.ids = ["third"] ∧
    p.scheduler.encoderCacheManager.numFreeSlots = 0 ∧
    Balanced (itemLengths p.scheduler.requests) p.scheduler.encoderCacheManager := by
  have hvalues : (Pipeline.followsIf (fun _ _ => true) Kv.encodedHash smallChunks 8
      (Pipeline.oneGroup 20 2) false singleItemCommands).map
        (fun p => (p.scheduler.running, p.scheduler.waiting.ids,
          p.scheduler.encoderCacheManager.numFreeSlots)) =
      some (["high", "other"], ["third"], 0) := by
    decide +kernel
  obtain ⟨p, hp, hvalues⟩ := Option.map_eq_some_iff.mp hvalues
  obtain ⟨hrunning, hrest⟩ := Prod.mk.inj hvalues
  obtain ⟨hwaiting, hfree⟩ := Prod.mk.inj hrest
  have hsingle : ∀ r, .add r ∈ singleItemCommands → r.mmPositions.length ≤ 1 := by
    intro r hr
    simp only [singleItemCommands, mem_cons, Command.add.injEq, reduceCtorEq, not_mem_nil,
      or_false, false_or] at hr
    rcases hr with rfl | rfl | rfl <;> exact le_rfl
  obtain ⟨kv, events, hkv, hrun, -⟩ := Pipeline.execution_of_followsIf
    (R := FittingStep Kv.encodedHash)
    (P := fun p => p.scheduler.Filed ∧ SingleItems p.scheduler)
    (fun kv _ => ⟨new_filed _ _ _, fun id r hr => by
      have hnone : (none : Option Request) = some r := hr
      cases hnone⟩)
    (fun p q command event hmem hp _ his hstep => by
      obtain ⟨hfits, hlast⟩ := fittingStep_of_single hstep hp.1 hp.2 fun r heq => by
        subst heq
        cases command with
        | add r' =>
          obtain rfl := Event.added.inj his
          exact hsingle _ hmem
        | schedule _ =>
          obtain ⟨_, heq⟩ := his
          cases heq
        | _ => cases his
      exact ⟨hfits, hstep.filed hp.1, hlast⟩) hp
  exact ⟨kv, events, p, hkv, hrun, hrunning, hwaiting, hfree, (slots_of_execution hrun).1.1⟩

/-- The item of one request takes six slots when another one is offered items of one and two
tokens, and is preempted in the same call. -/
def crowdedCommands : List Command :=
  let out : ModelRunnerOutput := { sampledTokenIds := fun _ => some [] }
  [.add (withItems "low" 1 0 [⟨6, 1⟩, ⟨7, 2⟩]), .schedule {}, .update out, .schedule {},
    .update out, .add (withItems "high" 0 0 [⟨0, 6⟩]), .add (withItems "other" 0 1 []),
    .schedule {}, .update out, .schedule {}]

/-- Then the items of nine tokens take more slots than there are. -/
theorem crowded : ∃ kv events p,
    Kv.KVCacheManager.new (Pipeline.oneGroup 7 2) 32 false false false = .ok kv ∧
    Execution (Step Kv.encodedHash) ⟨.new smallChunks 8 kv, []⟩ events p ∧
    p.scheduler.encoderCacheManager.cached "low" = [0, 1] ∧
    p.scheduler.encoderCacheManager.cached "high" = [0] ∧
    p.scheduler.encoderCacheManager.numFreeSlots = -1 := by
  have hvalues : (Pipeline.follows Kv.encodedHash smallChunks 8 (Pipeline.oneGroup 7 2) false
      crowdedCommands).map (fun p => (p.scheduler.encoderCacheManager.cached "low",
        p.scheduler.encoderCacheManager.cached "high",
        p.scheduler.encoderCacheManager.numFreeSlots)) = some ([0, 1], [0], -1) := by
    decide +kernel
  obtain ⟨p, hp, hvalues⟩ := Option.map_eq_some_iff.mp hvalues
  obtain ⟨hlow, hrest⟩ := Prod.mk.inj hvalues
  obtain ⟨hhigh, hfree⟩ := Prod.mk.inj hrest
  obtain ⟨kv, events, hnew, hrun⟩ := Pipeline.execution_of_follows hp
  exact ⟨kv, events, p, hnew, hrun, hlow, hhigh, hfree⟩

end Example

end Sched
