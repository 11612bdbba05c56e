import Mosaic.Sched.Moves
import Mathlib.Data.Finset.Basic

/-!
# Where requests are filed

The queue and the running list hold each id at most once, and they hold exactly the ids of the
requests whose status says so. During a call, requests that were put aside count as waiting, and
requests that are just being finished are in neither list.
-/

namespace Sched

open List Fallible Function Except Bool

open Relation (ReflTransGen)
open Transition (Execution)

/-- The status of a request that is in the queue. -/
def RequestStatus.isWaiting : RequestStatus → Bool
  | waiting | waitingForFsm | waitingForRemoteKvs | preempted => true
  | _ => false

theorem RequestStatus.isWaiting_of_finished {status : RequestStatus}
    (h : status.isFinished = true) : status.isWaiting = false ∧ status ≠ .running := by
  cases status <;> simp_all [isFinished, isWaiting]

theorem filter_ne_eq_self {ids : List String} {id : String} (h : id ∉ ids) :
    ids.filter (· ≠ id) = ids := by
  rw [filter_eq_self]
  intro a ha
  have hne : a ≠ id := fun heq => h (heq ▸ ha)
  simpa using hne

/-- The lists hold the waiting and the running requests, except for those that are on their way
out. -/
structure Filed (requests : String → Option Request) (waiting running gone : List String) :
    Prop where
  labelled : ∀ id r, requests id = some r → r.requestId = id
  nodup_waiting : waiting.Nodup
  nodup_running : running.Nodup
  mem_waiting : ∀ id, id ∈ waiting ↔
    id ∉ gone ∧ ∃ r, requests id = some r ∧ r.status.isWaiting = true
  mem_running : ∀ id, id ∈ running ↔ id ∉ gone ∧ ∃ r, requests id = some r ∧ r.status = .running

namespace Filed

variable {requests : String → Option Request} {waiting running gone : List String}
  {waiting' running' gone' : List String}

section

variable (h : Filed requests waiting running gone)
include h

theorem perm (hwait : waiting'.Perm waiting) (hrunning : running'.Perm running) :
    Filed requests waiting' running' gone where
  labelled := h.labelled
  nodup_waiting := hwait.nodup_iff.mpr h.nodup_waiting
  nodup_running := hrunning.nodup_iff.mpr h.nodup_running
  mem_waiting id := hwait.mem_iff.trans (h.mem_waiting id)
  mem_running id := hrunning.mem_iff.trans (h.mem_running id)

theorem disjoint {id : String} (hid : id ∈ waiting) : id ∉ running := by
  intro hrun
  obtain ⟨-, _, hr, hwaits⟩ := (h.mem_waiting id).mp hid
  obtain ⟨-, _, hr', hruns⟩ := (h.mem_running id).mp hrun
  cases hr.symm.trans hr'
  rw [hruns] at hwaits
  cases hwaits

/-- One request changes, and the lists change for it alone. -/
theorem update {id : String} {x : Option Request} (label : ∀ r, x = some r → r.requestId = id)
    (hgone : ∀ a, a ∈ gone' ↔ a ∈ gone ∧ a ≠ id) (nodup_waiting : waiting'.Nodup)
    (nodup_running : running'.Nodup) (waiting_others : ∀ a ≠ id, (a ∈ waiting' ↔ a ∈ waiting))
    (running_others : ∀ a ≠ id, (a ∈ running' ↔ a ∈ running))
    (waits : id ∈ waiting' ↔ ∃ r, x = some r ∧ r.status.isWaiting = true)
    (runs : id ∈ running' ↔ ∃ r, x = some r ∧ r.status = .running) :
    Filed (Function.update requests id x) waiting' running' gone' where
  labelled := by
    intro a r hr
    by_cases ha : a = id
    · subst ha
      exact label r (by simpa using hr)
    · exact h.labelled a r (by simpa [ha] using hr)
  nodup_waiting := nodup_waiting
  nodup_running := nodup_running
  mem_waiting := by
    intro a
    by_cases ha : a = id
    · subst ha
      simp [waits, hgone]
    · simp [waiting_others a ha, h.mem_waiting a, hgone, ha]
  mem_running := by
    intro a
    by_cases ha : a = id
    · subst ha
      simp [runs, hgone]
    · simp [running_others a ha, h.mem_running a, hgone, ha]

end

/-- A request changes, but its status does not send it elsewhere. -/
theorem keep (h : Filed requests waiting running []) {r : Request} (r' : Request)
    (known : requests r.requestId = some r) (label : r'.requestId = r.requestId)
    (waits : r'.status.isWaiting = r.status.isWaiting)
    (runs : r'.status = .running ↔ r.status = .running) :
    Filed (Function.update requests r.requestId (some r')) waiting running [] := by
  apply h.update
  · intro x hx
    cases hx
    exact label
  · simp
  · exact h.nodup_waiting
  · exact h.nodup_running
  · exact fun _ _ => Iff.rfl
  · exact fun _ _ => Iff.rfl
  · rw [h.mem_waiting]
    simp [known, waits]
  · rw [h.mem_running]
    simp [known, runs]

/-- A waiting request starts to run. -/
theorem start (h : Filed requests waiting running []) {r : Request} (r' : Request)
    (label : r'.requestId = r.requestId) (runs : r'.status = .running)
    (hwait : waiting.Perm (r.requestId :: waiting')) :
    Filed (Function.update requests r.requestId (some r')) waiting'
      (running ++ [r.requestId]) [] := by
  have hnodup := hwait.nodup_iff.mp h.nodup_waiting
  obtain ⟨hfirst, hrest⟩ := nodup_cons.mp hnodup
  have hidle : r.requestId ∉ running := h.disjoint (hwait.mem_iff.mpr mem_cons_self)
  apply h.update
  · intro x hx
    cases hx
    exact label
  · simp
  · exact hrest
  · rw [nodup_append]
    refine ⟨h.nodup_running, nodup_singleton _, ?_⟩
    intro a ha b hb hab
    rw [mem_singleton] at hb
    exact hidle (hb ▸ hab ▸ ha)
  · intro a ha
    rw [hwait.mem_iff]
    simp [ha]
  · intro a ha
    simp [ha]
  · refine iff_of_false hfirst ?_
    rintro ⟨x, hx, hwaits⟩
    cases hx
    rw [runs] at hwaits
    cases hwaits
  · simp [runs]

/-- A running request goes to the queue. -/
theorem stop (h : Filed requests waiting running []) {r : Request} (r' : Request)
    (label : r'.requestId = r.requestId) (waits : r'.status.isWaiting = true)
    (hrunning : running.Perm (r.requestId :: running'))
    (hwait : waiting'.Perm (r.requestId :: waiting)) :
    Filed (Function.update requests r.requestId (some r')) waiting' running' [] := by
  have hnodup := hrunning.nodup_iff.mp h.nodup_running
  obtain ⟨hfirst, hrest⟩ := nodup_cons.mp hnodup
  have hruns : r.requestId ∈ running := hrunning.mem_iff.mpr mem_cons_self
  apply h.update
  · intro x hx
    cases hx
    exact label
  · simp
  · rw [hwait.nodup_iff, nodup_cons]
    exact ⟨fun hmem => h.disjoint hmem hruns, h.nodup_waiting⟩
  · exact hrest
  · intro a ha
    rw [hwait.mem_iff]
    simp [ha]
  · intro a ha
    rw [hrunning.mem_iff]
    simp [ha]
  · rw [hwait.mem_iff]
    simp [waits]
  · refine iff_of_false hfirst ?_
    rintro ⟨x, hx, hruns'⟩
    cases hx
    rw [hruns'] at waits
    cases waits

/-- A new request goes to the queue. -/
theorem add (h : Filed requests waiting running []) {r : Request}
    (unknown : requests r.requestId = none) (waits : r.status.isWaiting = true)
    (hwait : waiting'.Perm (r.requestId :: waiting)) :
    Filed (Function.update requests r.requestId (some r)) waiting' running [] := by
  have hnew : r.requestId ∉ waiting ∧ r.requestId ∉ running := by
    constructor
    · rw [h.mem_waiting]
      simp [unknown]
    · rw [h.mem_running]
      simp [unknown]
  apply h.update
  · intro x hx
    rw [Option.some.inj hx]
  · simp
  · rw [hwait.nodup_iff, nodup_cons]
    exact ⟨hnew.1, h.nodup_waiting⟩
  · exact h.nodup_running
  · intro a ha
    rw [hwait.mem_iff]
    simp [ha]
  · exact fun _ _ => Iff.rfl
  · rw [hwait.mem_iff]
    simp [waits]
  · refine iff_of_false hnew.2 ?_
    rintro ⟨x, hx, hruns⟩
    cases hx
    rw [hruns] at waits
    cases waits

/-- A request that is finished, or forgotten, is taken out of the lists. -/
theorem drop (h : Filed requests waiting running gone) {id : String} {x : Option Request}
    (finished : ∀ r, x = some r → r.requestId = id ∧ r.isFinished = true)
    (hgone : ∀ a, a ∈ gone' ↔ a ∈ gone ∧ a ≠ id)
    (hwait : waiting' = waiting.filter (· ≠ id))
    (hrunning : running' = running.filter (· ≠ id)) :
    Filed (Function.update requests id x) waiting' running' gone' := by
  subst hwait hrunning
  have hnowhere : ∀ r, x = some r → r.status.isWaiting = false ∧ r.status ≠ .running :=
    fun r hr => RequestStatus.isWaiting_of_finished (finished r hr).2
  apply h.update
  · exact fun r hr => (finished r hr).1
  · exact hgone
  · exact h.nodup_waiting.filter _
  · exact h.nodup_running.filter _
  · intro a ha
    simp [ha]
  · intro a ha
    simp [ha]
  · refine iff_of_false (by simp) ?_
    rintro ⟨r, hr, hwaits⟩
    rw [(hnowhere r hr).1] at hwaits
    cases hwaits
  · refine iff_of_false (by simp) ?_
    rintro ⟨r, hr, hruns⟩
    exact (hnowhere r hr).2 hruns

end Filed

/-- The requests of a scheduler between two calls. -/
structure Scheduler.Filed (s : Scheduler) : Prop where
  lists : Sched.Filed s.requests s.waiting.ids s.running []
  policy : s.waiting.policy = s.config.policy

/-- The requests of a scheduler during a call. -/
structure ScheduleState.Filed (st : ScheduleState) : Prop where
  lists : Sched.Filed st.scheduler.requests
    (st.skippedWaitingRequests.ids ++ st.scheduler.waiting.ids) st.scheduler.running []
  policy : st.scheduler.waiting.policy = st.scheduler.config.policy

theorem Scheduler.Filed.labelled {s : Scheduler} (h : s.Filed) : s.Labelled := h.lists.labelled

theorem ScheduleState.Filed.labelled {st : ScheduleState} (h : st.Filed) :
    st.scheduler.Labelled := h.lists.labelled

/-! ### Scheduling -/

section Moves

variable {env : Kv.HashEnv} {ext : External} {st st' : ScheduleState} {r : Request} {s : Scheduler}

theorem popVictim_eq_ok {victim : String} {running : List String}
    (hok : s.popVictim = .ok (victim, running)) :
    s.running.Perm (victim :: running) ∧ running.Sublist s.running ∧
      (s.config.policy = .fcfs → s.running = running ++ [victim]) := by
  unfold Scheduler.popVictim at hok
  split at hok
  · rename_i hpolicy
    split at hok
    · cases hok
    · rename_i id hid
      obtain ⟨rfl, rfl⟩ := Prod.mk.inj (ok.inj hok)
      have hmem : id ∈ s.running := Scheduler.lowestPriority_mem hid
      exact ⟨perm_cons_erase hmem, erase_sublist, fun h => by rw [hpolicy] at h; cases h⟩
  · split at hok
    · cases hok
    · rename_i id hid
      obtain ⟨rfl, rfl⟩ := Prod.mk.inj (ok.inj hok)
      have hsplit : s.running = s.running.dropLast ++ [id] := by
        obtain ⟨_, hrest⟩ := getLast?_eq_some_iff.mp hid
        rw [hrest, dropLast_concat]
      refine ⟨?_, dropLast_sublist _, fun _ => hsplit⟩
      calc s.running.Perm (s.running.dropLast ++ [id]) := by rw [← hsplit]
        _ |>.Perm _ := perm_append_singleton _ _

theorem Preempts.filed {n : ℤ} {victim : String} (h : Preempts env r n st victim st')
    (hst : st.Filed) : st'.Filed := by
  cases h with
  | @mk v kv kv' running waiting slots popped known freed queued =>
    obtain ⟨hwait, hpolicy⟩ := RequestQueue.perm_prependRequest queued
    refine ⟨?_, hpolicy.trans hst.policy⟩
    apply hst.lists.stop v.preempted
    · rfl
    · rfl
    · exact (popVictim_eq_ok popped).1
    · exact (hwait.append_left _).trans perm_middle

theorem PreemptsOthers.preserves {n : ℤ} {P : ScheduleState → Prop}
    (preserved : ∀ t victim u, P t → Preempts env r n t victim u → P u)
    (h : PreemptsOthers env r n st st') (start : P st) : P st' := by
  induction h with
  | refl => exact start
  | tail _ hlast ih =>
    obtain ⟨victim, -, hlast⟩ := hlast
    exact preserved _ victim _ ih hlast

theorem PreemptsOthers.filed {n : ℤ} (h : PreemptsOthers env r n st st') (hst : st.Filed) :
    st'.Filed :=
  h.preserves (fun _ _ _ ht hlast => hlast.filed ht) hst

theorem trimSpec_status (r : Request) (n : ℤ) :
    (ScheduleState.trimSpec r n).status = r.status := by
  unfold ScheduleState.trimSpec
  split <;> rfl

/-- A request for which others are preempted stays what it is. -/
theorem PreemptsOthers.known {n : ℤ} (h : PreemptsOthers env r n st st')
    (known : st.scheduler.requests r.requestId = some r) :
    st'.scheduler.requests r.requestId = some r := by
  induction h with
  | refl => exact known
  | tail _ hlast ih =>
    obtain ⟨_, hother, hlast⟩ := hlast
    cases hlast with
    | @mk v kv kv' running waiting _ _ _ _ _ =>
      have hne : r.requestId ≠ v.preempted.requestId := hother.symm
      simpa [ScheduleState.afterPreemption, Scheduler.setRequest, hne] using ih

theorem RunningMove.filed (h : RunningMove env st st') (hst : st.Filed) : st'.Filed := by
  cases h with
  | pass _ _ => exact ⟨hst.lists, hst.policy⟩
  | @schedule st₁ st' r inputs n budget kv newBlocks current _ _ others _ scheduled =>
    obtain ⟨_, -, rfl⟩ := scheduleRunning_eq_ok scheduled
    have hst₁ := others.filed hst
    refine ⟨?_, hst₁.policy⟩
    have hknown := others.known current.known
    have hkeep := hst₁.lists.keep (ScheduleState.trimSpec r n) hknown (trimSpec_requestId r n)
      (by rw [trimSpec_status]) (by rw [trimSpec_status])
    simpa [ScheduleState.scheduledRunning, Scheduler.setRequest, ScheduleState.setKv] using hkeep
  | giveUp _ _ _ others itself => exact itself.filed (others.filed hst)

theorem WaitingMove.filed (h : WaitingMove env ext st st') (hst : st.Filed) : st'.Filed := by
  cases h with
  | @remoteReady r r' s front status _ ready =>
    obtain ⟨kv, -, -, hr', rfl⟩ := remoteReady_eq_ok ready
    have hkeep := hst.lists.keep r' front.known (by rw [hr']) (by rw [hr', status]; rfl)
      (by simp [hr', status])
    rw [show r.requestId = r'.requestId by rw [hr']] at hkeep
    exact ⟨hkeep, hst.policy⟩
  | @grammarReady r front status =>
    have hkeep := hst.lists.keep { r with status := .waiting } front.known rfl
      (by rw [status]; rfl) (by simp [status])
    exact ⟨hkeep, hst.policy⟩
  | look _ _ => exact ⟨hst.lists, hst.policy⟩
  | @skip r waiting skipped front _ popped aside =>
    obtain ⟨-, hwait, hpolicy⟩ := RequestQueue.perm_popRequest popped
    obtain ⟨hskipped, -⟩ := RequestQueue.perm_prependRequest aside
    refine ⟨hst.lists.perm ?_ (List.Perm.refl _), hpolicy.trans hst.policy⟩
    -- The request goes from the front of one queue into the other.
    calc (skipped.ids ++ waiting.ids).Perm
          (r.requestId :: (st.skippedWaitingRequests.ids ++ waiting.ids)) :=
        hskipped.append_right _
      _ |>.Perm (st.skippedWaitingRequests.ids ++ r.requestId :: waiting.ids) :=
        perm_middle.symm
      _ |>.Perm _ := hwait.symm.append_left _
  | noSlots _ _ _ _ => exact ⟨hst.lists, hst.policy⟩
  | @startRemoteLoad r found kv newBlocks waiting skipped inputs n budget front looked plan slots
      async popped aside =>
    obtain ⟨-, hwait, hpolicy⟩ := RequestQueue.perm_popRequest popped
    obtain ⟨hskipped, -⟩ := RequestQueue.perm_prependRequest aside
    -- What stands in the queue waits, by the invariant.
    have hwaits : r.status.isWaiting = true := by
      have hmem : r.requestId ∈ st.skippedWaitingRequests.ids ++ st.scheduler.waiting.ids := by
        rw [mem_append, hwait.mem_iff]
        exact .inr mem_cons_self
      obtain ⟨-, r', hr', hwaits⟩ := (hst.lists.mem_waiting _).mp hmem
      rw [front.known] at hr'
      rw [Option.some.inj hr']
      exact hwaits
    have hidle : r.status ≠ .running := by
      intro hruns
      rw [hruns] at hwaits
      cases hwaits
    have hkeep := hst.lists.keep { r with status := .waitingForRemoteKvs } front.known rfl
      (by rw [hwaits]; rfl) (by simp [hidle])
    refine ⟨hkeep.perm ?_ (List.Perm.refl _), hpolicy.trans hst.policy⟩
    calc (skipped.ids ++ waiting.ids).Perm
          (r.requestId :: (st.skippedWaitingRequests.ids ++ waiting.ids)) :=
        hskipped.append_right _
      _ |>.Perm (st.skippedWaitingRequests.ids ++ r.requestId :: waiting.ids) :=
        perm_middle.symm
      _ |>.Perm _ := hwait.symm.append_left _
  | @admits r found kv newBlocks waiting encoder inputs n budget front _ _ _ _ _ _ popped _ =>
    obtain ⟨-, hwait, hpolicy⟩ := RequestQueue.perm_popRequest popped
    refine ⟨?_, hpolicy.trans hst.policy⟩
    apply hst.lists.start (ScheduleState.startRunning r found.numComputedTokens)
    · rfl
    · rfl
    · exact (hwait.append_left _).trans perm_middle

theorem Current.runs (current : Current st r) (hst : st.Filed) : r.status = .running := by
  obtain ⟨-, _, hr', hruns⟩ :=
    (hst.lists.mem_running _).mp (mem_of_getElem? current.index)
  rw [current.known] at hr'
  rw [Option.some.inj hr']
  exact hruns

theorem Front.mem_waiting (front : Front st r) :
    r.requestId ∈ st.skippedWaitingRequests.ids ++ st.scheduler.waiting.ids := by
  have hfirst := front.first
  unfold RequestQueue.peekRequest at hfirst
  split at hfirst
  · cases hfirst
  · rename_i id rest hids
    rw [← ok.inj hfirst, hids]
    simp

theorem Front.waits (front : Front st r) (hst : st.Filed) : r.status.isWaiting = true := by
  obtain ⟨-, _, hr', hwaits⟩ := (hst.lists.mem_waiting _).mp front.mem_waiting
  rw [front.known] at hr'
  rw [Option.some.inj hr']
  exact hwaits

/-- What every running and every waiting move preserves, the phases of a call preserve, if the
record of the adapters and the order of the queue do not matter. -/
theorem Phases.preserves {P : ScheduleState → Prop}
    {st₁ st₂ st₃ : ScheduleState} (h : Phases env ext s st₁ st₂ st₃ st)
    (start : P s.startSchedule) (running : ∀ t u, P t → RunningMove env t u → P u)
    (loras : ∀ t loras, P t → P { t with scheduledLoras := loras })
    (waiting : ∀ t u, P t → WaitingMove env ext t u → P u) : P st₃ := by
  have hst₁ : P st₁ := by
    have hmoves := h.running
    clear h
    induction hmoves with
    | refl => exact start
    | tail _ hlast ih => exact running _ _ ih hlast
  have hst₂ : P st₂ := by
    obtain ⟨_, rfl, -⟩ := recordLoras_eq_ok h.loras
    exact loras _ _ hst₁
  have hlater := h.waiting
  clear h
  rcases hlater with rfl | ⟨-, hmoves⟩
  · exact hst₂
  · clear hst₁
    induction hmoves with
    | refl => exact hst₂
    | tail _ hlast ih => exact waiting _ _ ih hlast.move

theorem putBack_eq_ok (hok : st.putBack = .ok st') :
    ∃ waiting, st' = { st with scheduler := { st.scheduler with waiting := waiting } } ∧
      waiting.ids.Perm (st.skippedWaitingRequests.ids ++ st.scheduler.waiting.ids) ∧
      waiting.policy = st.scheduler.waiting.policy := by
  unfold ScheduleState.putBack at hok
  split at hok
  · rename_i hnone
    cases hok
    refine ⟨st.scheduler.waiting, rfl, ?_, rfl⟩
    rw [hnone, nil_append]
  · obtain ⟨waiting, hback, hok⟩ := bind_eq_ok.mp hok
    cases hok
    obtain ⟨hperm, hpolicy⟩ := RequestQueue.perm_prependRequests hback
    exact ⟨waiting, rfl, hperm, hpolicy⟩

theorem Scheduler.Filed.start (h : s.Filed) : s.startSchedule.Filed where
  lists := by
    have hnone : s.startSchedule.skippedWaitingRequests.ids = [] :=
      RequestQueue.ids_createRequestQueue _
    rw [hnone, nil_append]
    exact h.lists
  policy := h.policy

theorem Phases.filed {st₁ st₂ st₃ : ScheduleState}
    (h : Phases env ext s st₁ st₂ st₃ st) (hs : s.Filed) : st₃.Filed ∧ st.scheduler.Filed := by
  have hst₃ : st₃.Filed := h.preserves hs.start (fun _ _ ht hmove => hmove.filed ht)
    (fun _ _ ht => ⟨ht.lists, ht.policy⟩) fun _ _ ht hmove => hmove.filed ht
  refine ⟨hst₃, ?_⟩
  obtain ⟨_, rfl, hperm, hpolicy⟩ := putBack_eq_ok h.putBack
  exact ⟨hst₃.lists.perm hperm (List.Perm.refl _), hpolicy.trans hst₃.policy⟩

variable {s s' : Scheduler}

theorem advance_filed {entry : String × ℤ} (hok : s.advance entry = .ok s')
    (hs : s.Filed) : s'.Filed := by
  obtain ⟨id, n⟩ := entry
  obtain ⟨r, _, hr, -, rfl⟩ := advance_eq_ok hok
  obtain rfl : r.requestId = id := hs.lists.labelled _ r hr
  have hkeep := hs.lists.keep { r with numComputedTokens := r.numComputedTokens + n } hr rfl rfl
    Iff.rfl
  exact ⟨hkeep, hs.policy⟩

theorem foldlM_advance_preserves {P : Scheduler → Prop} {entries : List (String × ℤ)}
    (preserved : ∀ t entry u, P t → t.advance entry = .ok u → P u)
    (hok : entries.foldlM Scheduler.advance s = .ok s') (hs : P s) : P s' := by
  induction entries generalizing s with
  | nil =>
    cases hok
    exact hs
  | cons entry rest ih =>
    obtain ⟨t, ht, hrest⟩ := foldlM_cons_eq_ok.mp hok
    exact ih hrest (preserved _ _ _ hs ht)

theorem advances_frame {entries : List (String × ℤ)}
    (hok : entries.foldlM Scheduler.advance s = .ok s') :
    s'.running = s.running ∧ s'.kvCacheManager = s.kvCacheManager := by
  refine foldlM_advance_preserves (P := fun t => t.running = s.running ∧
    t.kvCacheManager = s.kvCacheManager) ?_ hok ⟨rfl, rfl⟩
  intro t entry u ht hu
  obtain ⟨_, _, -, -, rfl⟩ := advance_eq_ok hu
  exact ht

theorem schedule_filed {output : SchedulerOutput}
    (hok : s.schedule env ext = .ok (s', output)) (hs : s.Filed) : s'.Filed := by
  obtain ⟨st, _, hst, -, hadvance, rfl⟩ := schedule_eq_ok hok
  obtain ⟨_, _, _, hphases⟩ := phases_of_eq_ok hs.labelled hst
  have hfiled := (hphases.filed hs).2
  have htaken : st.scheduler.takeFreedIds.Filed := ⟨hfiled.lists, hfiled.policy⟩
  have hlast := foldlM_advance_preserves (fun _ _ _ ht h => advance_filed h ht) hadvance htaken
  exact ⟨hlast.lists, hlast.policy⟩

end Moves

/-! ### Requests come and go -/

section Changes

variable {s s' : Scheduler} {r : Request}

theorem addRequest_filed (hok : s.addRequest r = .ok s') (unknown : s.requests r.requestId = none)
    (fresh : r.Fresh) (hs : s.Filed) : s'.Filed := by
  obtain ⟨_, hqueue, hok⟩ := bind_eq_ok.mp hok
  cases hok
  obtain ⟨hperm, hpolicy⟩ := RequestQueue.perm_addRequest hqueue
  refine ⟨hs.lists.add unknown ?_ hperm, hpolicy.trans hs.policy⟩
  rw [fresh.status]
  split <;> rfl

theorem removeRunning_eq_ok {running running' : List String} {id : String}
    (hok : Scheduler.removeRunning running id = .ok running') :
    running' = running.erase id := by
  unfold Scheduler.removeRunning at hok
  split at hok
  · exact (ok.inj hok).symm
  · cases hok

variable {reqs : List Request}

theorem foldlM_removeRunning_eq_ok {running running' : List String}
    (hnodup : running.Nodup) (hok : reqs.foldlM
      (fun running r => Scheduler.removeRunning running r.requestId) running = .ok running') :
    running' = running.filter (· ∉ reqs.map Request.requestId) := by
  induction reqs generalizing running with
  | nil =>
    cases hok
    simp
  | cons r rest ih =>
    obtain ⟨_, hremove, hrest⟩ := foldlM_cons_eq_ok.mp hok
    obtain rfl := removeRunning_eq_ok hremove
    rw [ih (hnodup.erase _) hrest, hnodup.erase_eq_filter, filter_filter]
    apply filter_congr
    intro a _
    by_cases ha : a = r.requestId <;> simp [ha]

variable {ids : List String}

theorem removeWaiting_eq_ok {waiting waiting' : RequestQueue}
    (hok : Scheduler.removeWaiting waiting ids = .ok waiting') :
    waiting'.ids.Perm (waiting.ids.filter (· ∉ ids)) ∧ waiting'.policy = waiting.policy := by
  unfold Scheduler.removeWaiting at hok
  split at hok
  · rename_i hnone
    cases hok
    rw [hnone]
    simp
  · exact RequestQueue.perm_removeRequests hok

/-- The requests that are to be finished are taken out of both lists first. -/
theorem Filed.remove {requests : String → Option Request}
    {waiting running waiting' running' : List String}
    (h : Sched.Filed requests waiting running [])
    (known : ∀ r ∈ reqs, requests r.requestId = some r)
    (hwait : waiting'.Perm (waiting.filter
      (· ∉ (reqs.filter (·.status ≠ .running)).map Request.requestId)))
    (hrunning : running' = running.filter
      (· ∉ (reqs.filter (·.status = .running)).map Request.requestId)) :
    Sched.Filed requests waiting' running' (reqs.map Request.requestId) where
  labelled := h.labelled
  nodup_waiting := hwait.nodup_iff.mpr (h.nodup_waiting.filter _)
  nodup_running := hrunning ▸ h.nodup_running.filter _
  mem_waiting := by
    intro id
    rw [hwait.mem_iff, mem_filter, h.mem_waiting]
    constructor
    · rintro ⟨⟨-, r, hr, hwaits⟩, hout⟩
      refine ⟨?_, r, hr, hwaits⟩
      intro hmem
      obtain ⟨r', hr', rfl⟩ := mem_map.mp hmem
      cases hr.symm.trans (known r' hr')
      -- A request that waits does not run, so it is among those taken out of the waiting list.
      have hidle : r.status ≠ .running := by
        intro hruns
        rw [hruns] at hwaits
        cases hwaits
      simp only [decide_not, not_eq_true', decide_eq_false_iff_not] at hout
      exact hout (mem_map.mpr ⟨r, by simp [hr', hidle], rfl⟩)
    · rintro ⟨hmem, r, hr, hwaits⟩
      refine ⟨⟨by simp, r, hr, hwaits⟩, ?_⟩
      simp only [decide_not, not_eq_true', decide_eq_false_iff_not]
      intro hout
      obtain ⟨r', hr', rfl⟩ := mem_map.mp hout
      exact hmem (mem_map_of_mem (mem_of_mem_filter hr'))
  mem_running := by
    intro id
    rw [hrunning, mem_filter, h.mem_running]
    constructor
    · rintro ⟨⟨-, r, hr, hruns⟩, hout⟩
      refine ⟨?_, r, hr, hruns⟩
      intro hmem
      obtain ⟨r', hr', rfl⟩ := mem_map.mp hmem
      cases hr.symm.trans (known r' hr')
      simp only [decide_not, not_eq_true', decide_eq_false_iff_not] at hout
      exact hout (mem_map.mpr ⟨r, by simp [hr', hruns], rfl⟩)
    · rintro ⟨hmem, r, hr, hruns⟩
      refine ⟨⟨by simp, r, hr, hruns⟩, ?_⟩
      simp only [decide_not, not_eq_true', decide_eq_false_iff_not]
      intro hout
      obtain ⟨r', hr', rfl⟩ := mem_map.mp hout
      exact hmem (mem_map_of_mem (mem_of_mem_filter hr'))

variable {delayFreeBlocks : String → Bool} {status : RequestStatus}

/-- A request that is finished from outside is forgotten, or kept with its new status. -/
theorem finishRequest_eq_ok (hok : Scheduler.finishRequest status delayFreeBlocks s r = .ok s') :
    s'.waiting = s.waiting ∧ s'.running = s.running ∧ s'.config = s.config ∧ ∃ x,
      (∀ y, x = some y → y = { r with status := status } ∧ y.isFinished = true) ∧
      s'.requests = Function.update s.requests r.requestId x := by
  obtain ⟨hfin, hwait, hrunning, hcfg, hreqs⟩ := freeRequest_frame hok
  refine ⟨hwait, hrunning, hcfg, ?_⟩
  rcases hreqs with heq | heq
  · refine ⟨some { r with status := status }, ?_, heq⟩
    intro y hy
    cases hy
    exact ⟨rfl, hfin⟩
  · refine ⟨none, by simp, ?_⟩
    rw [heq]
    exact update_idem _ _ _

theorem finishRequest_filed {gone : List String} (hfirst : r.requestId ∉ gone)
    (hok : Scheduler.finishRequest status delayFreeBlocks s r = .ok s')
    (hs : Sched.Filed s.requests s.waiting.ids s.running (r.requestId :: gone)) :
    Sched.Filed s'.requests s'.waiting.ids s'.running gone ∧ s'.waiting = s.waiting ∧
      s'.config = s.config := by
  obtain ⟨hwait, hrunning, hcfg, _, hx, hreqs⟩ := finishRequest_eq_ok hok
  have hnowhere : r.requestId ∉ s.waiting.ids ∧ r.requestId ∉ s.running := by
    rw [hs.mem_waiting, hs.mem_running]
    simp
  refine ⟨?_, hwait, hcfg⟩
  rw [hreqs, hwait, hrunning]
  apply hs.drop
  · intro y hy
    obtain ⟨rfl, hfin⟩ := hx y hy
    exact ⟨rfl, hfin⟩
  · intro a
    by_cases ha : a = r.requestId
    · simp [ha, hfirst]
    · simp [ha]
  · exact (filter_ne_eq_self hnowhere.1).symm
  · exact (filter_ne_eq_self hnowhere.2).symm

theorem foldlM_finishRequest_filed (hnodup : (reqs.map Request.requestId).Nodup)
    (hok : reqs.foldlM (Scheduler.finishRequest status delayFreeBlocks) s = .ok s')
    (hs : Sched.Filed s.requests s.waiting.ids s.running (reqs.map Request.requestId)) :
    Sched.Filed s'.requests s'.waiting.ids s'.running [] ∧ s'.waiting = s.waiting ∧
      s'.config = s.config := by
  induction reqs generalizing s with
  | nil =>
    cases hok
    exact ⟨hs, rfl, rfl⟩
  | cons r rest ih =>
    obtain ⟨_, hfirst, hrest⟩ := foldlM_cons_eq_ok.mp hok
    obtain ⟨hout, hnodup⟩ := nodup_cons.mp hnodup
    obtain ⟨hfiled, hwait, hcfg⟩ := finishRequest_filed hout hfirst hs
    obtain ⟨hfiled', hwait', hcfg'⟩ := ih hnodup hrest hfiled
    exact ⟨hfiled', hwait'.trans hwait, hcfg'.trans hcfg⟩

/-- The parts of a call that finishes requests. -/
theorem finishRequests_eq_ok (hok : s.finishRequests ids status delayFreeBlocks = .ok s') :
    status.isFinished = true ∧ ∃ running waiting,
      let valid := ids.dedup.filterMap s.requests
      (valid.filter (·.status = .running)).foldlM
        (fun running r => Scheduler.removeRunning running r.requestId) s.running = .ok running ∧
      Scheduler.removeWaiting s.waiting
        ((valid.filter (·.status ≠ .running)).map Request.requestId) = .ok waiting ∧
      valid.foldlM (Scheduler.finishRequest status delayFreeBlocks)
        { s with running := running, waiting := waiting } = .ok s' := by
  unfold Scheduler.finishRequests at hok
  split at hok
  · cases hok
  · rename_i hstatus
    obtain ⟨running, hrunning, hok⟩ := bind_eq_ok.mp hok
    obtain ⟨waiting, hwait, hok⟩ := bind_eq_ok.mp hok
    exact ⟨by simpa using hstatus, running, waiting, hrunning, hwait, hok⟩

/-- The requests that are found under distinct ids are distinct. -/
theorem map_requestId_filterMap (hs : s.Labelled) (ids : List String) :
    ((ids.filterMap s.requests).map Request.requestId).Sublist ids := by
  induction ids with
  | nil => exact List.Sublist.refl _
  | cons id rest ih =>
    rw [filterMap_cons]
    split
    · exact ih.cons _
    · rename_i r hr
      rw [map_cons, hs id r hr]
      exact ih.cons_cons _

theorem finishRequests_filed
    (hok : s.finishRequests ids status delayFreeBlocks = .ok s') (hs : s.Filed) : s'.Filed := by
  obtain ⟨-, _, _, hrunning, hwait, hfold⟩ := finishRequests_eq_ok hok
  have hknown : ∀ r ∈ ids.dedup.filterMap s.requests, s.requests r.requestId = some r := by
    intro r hr
    obtain ⟨id, -, hid⟩ := mem_filterMap.mp hr
    rw [hs.lists.labelled id r hid]
    exact hid
  have hnodup : ((ids.dedup.filterMap s.requests).map Request.requestId).Nodup :=
    (nodup_dedup ids).sublist (map_requestId_filterMap hs.labelled _)
  obtain ⟨hperm, hpolicy⟩ := removeWaiting_eq_ok hwait
  have hremoved := hs.lists.remove hknown hperm (foldlM_removeRunning_eq_ok hs.lists.nodup_running
    hrunning)
  obtain ⟨hfiled, hqueue, hcfg⟩ := foldlM_finishRequest_filed hnodup hfold hremoved
  refine ⟨hfiled, ?_⟩
  rw [hqueue, hcfg]
  exact hpolicy.trans hs.policy

end Changes

/-! ### Updates -/

section Updates

variable {batch : SchedulerOutput} {out : ModelRunnerOutput} {st st' : UpdateState} {r : Request}

/-- During an update, the stopped requests count as removed. -/
structure UpdateState.Filed (st : UpdateState) : Prop where
  lists : Sched.Filed st.scheduler.requests
    (st.scheduler.waiting.ids.filter (· ∉ st.stoppedPreemptedReqs))
    (st.scheduler.running.filter (· ∉ st.stoppedRunningReqs)) []
  policy : st.scheduler.waiting.policy = st.scheduler.config.policy

theorem filter_notMem_concat (ids gone : List String) (id : String) :
    ids.filter (· ∉ gone ++ [id]) = (ids.filter (· ∉ gone)).filter (· ≠ id) := by
  rw [filter_filter]
  apply filter_congr
  intro a _
  by_cases ha : a = id <;> simp [ha]

/-- A request that goes on keeps its place, and one that stopped loses it. -/
theorem UpdateMove.filed (h : UpdateMove batch out st r st')
    (known : st.scheduler.requests r.requestId = some r) (hst : st.Filed) : st'.Filed := by
  cases h with
  | @goOn given r' _ _ grown status _ scheduler running preempted =>
    have hkeep := hst.lists.keep r' known grown.requestId (by rw [status]) (by rw [status])
    constructor
    · rw [scheduler, running, preempted]
      simpa [Scheduler.setRequest, grown.requestId] using hkeep
    · rw [scheduler]
      exact hst.policy
  | @stop given tokens r' s x _ _ grown finished freed left scheduler running preempted =>
    have hleft : ∀ y, x = some y → y.requestId = r.requestId ∧ y.isFinished = true := by
      intro y hy
      obtain ⟨_, rfl⟩ := left y hy
      exact ⟨grown.requestId, finished⟩
    obtain ⟨-, hwait, hrunning, hcfg, -⟩ := freeRequest_frame freed
    have hwaits := hst.lists.mem_waiting r.requestId
    have hruns := hst.lists.mem_running r.requestId
    rw [known] at hwaits hruns
    constructor
    · rw [scheduler, running, preempted]
      rw [hwait, hrunning]
      apply hst.lists.drop hleft (by simp)
      · -- a running request is not in the queue
        split
        · rename_i hstatus
          rw [filter_ne_eq_self]
          · rfl
          · rw [hwaits]
            simp [hstatus, RequestStatus.isWaiting]
        · exact filter_notMem_concat _ _ _
      · split
        · exact filter_notMem_concat _ _ _
        · rename_i hstatus
          rw [filter_ne_eq_self]
          · rfl
          · rw [hruns]
            simp [hstatus]
    · rw [scheduler]
      dsimp only
      rw [hwait, hcfg]
      exact hst.policy

theorem updateOne_eq_ok {entry : String × ℤ} (hs : st.scheduler.Labelled)
    (hok : UpdateState.updateOne batch out st entry = .ok st') :
    0 < entry.2 ∧ ((st.scheduler.requests entry.1 = none ∧ st' = st) ∨
      ∃ r, r.requestId = entry.1 ∧ st.scheduler.requests r.requestId = some r ∧
        UpdateMove batch out st r st') := by
  unfold UpdateState.updateOne at hok
  split at hok
  · cases hok
  · rename_i hpos
    refine ⟨not_le.mp hpos, ?_⟩
    split at hok
    · rename_i hnone
      exact .inl ⟨hnone, (ok.inj hok).symm⟩
    · rename_i r hr
      have hid := hs _ r hr
      exact .inr ⟨r, hid, hid ▸ hr, updateMove_of_eq_ok hok⟩

/-- What the update of one request preserves, that of a batch preserves. -/
theorem foldlM_updateOne_preserves {P : UpdateState → Prop} {entries : List (String × ℤ)}
    (hok : entries.foldlM (UpdateState.updateOne batch out) st = .ok st') (start : P st)
    (labelled : ∀ u, P u → u.scheduler.Labelled)
    (preserved : ∀ u r v, r.requestId ∈ entries.map Prod.fst → P u →
      u.scheduler.requests r.requestId = some r → UpdateMove batch out u r v → P v) : P st' := by
  induction entries generalizing st with
  | nil =>
    cases hok
    exact start
  | cons entry rest ih =>
    obtain ⟨st₁, hfirst, hrest⟩ := foldlM_cons_eq_ok.mp hok
    refine ih hrest ?_ fun u r v hr => preserved u r v (mem_cons_of_mem _ hr)
    obtain ⟨-, ⟨-, rfl⟩ | ⟨r, hid, known, hmove⟩⟩ := updateOne_eq_ok (labelled _ start) hfirst
    · exact start
    · exact preserved st r st₁ (by simp [hid]) start known hmove

theorem removeStopped_filed {s : Scheduler} (hok : Scheduler.removeStopped st = .ok s)
    (hst : st.Filed) : s.Filed := by
  obtain ⟨_, hremove, hok⟩ := bind_eq_ok.mp hok
  cases hok
  obtain ⟨hperm, hpolicy⟩ := removeWaiting_eq_ok hremove
  exact ⟨hst.lists.perm hperm (List.Perm.refl _), hpolicy.trans hst.policy⟩

variable {s s' : Scheduler}

theorem finishSending_filed {id : String} (hok : s.finishSending id = .ok s')
    (hs : s.Filed) : s'.Filed := by
  obtain ⟨r, hr, hok⟩ := bind_eq_ok.mp hok
  rw [Scheduler.request_eq_ok] at hr
  obtain ⟨hfin, _, -, rfl⟩ := Scheduler.freeBlocks_eq_ok hok
  obtain rfl := hs.lists.labelled id r hr
  obtain ⟨hidle, hruns⟩ := RequestStatus.isWaiting_of_finished hfin
  refine ⟨hs.lists.drop (by simp) (by simp) ?_ ?_, hs.policy⟩
  · rw [filter_ne_eq_self]
    rw [hs.lists.mem_waiting]
    simp [hr, hidle]
  · rw [filter_ne_eq_self]
    rw [hs.lists.mem_running]
    simp [hr, hruns]

theorem foldlM_finishSending_preserves {P : Scheduler → Prop}
    {ids : List String} (preserved : ∀ t id u, P t → t.finishSending id = .ok u → P u)
    (hok : ids.foldlM Scheduler.finishSending s = .ok s') (start : P s) : P s' := by
  induction ids generalizing s with
  | nil =>
    cases hok
    exact start
  | cons id rest ih =>
    obtain ⟨_, hfirst, hrest⟩ := foldlM_cons_eq_ok.mp hok
    exact ih hrest (preserved _ _ _ start hfirst)

section

variable {outputs : List (ℕ × List EngineCoreOutput)}
  (hok : s.updateFromOutput batch out = .ok (s', outputs))
include hok

/-- The parts of an update. -/
theorem updateFromOutput_eq_ok :
    ∃ st s₁, batch.numScheduledTokens.foldlM (UpdateState.updateOne batch out)
        { scheduler := s } = .ok st ∧
      Scheduler.removeStopped st = .ok s₁ ∧
      out.finishedSending.foldlM Scheduler.finishSending (s₁.receiveFinished out) = .ok s' ∧
      outputs = st.outputs := by
  obtain ⟨st, hst, hok⟩ := bind_eq_ok.mp hok
  obtain ⟨s₁, hs₁, hok⟩ := bind_eq_ok.mp hok
  obtain ⟨_, hs₂, hok⟩ := bind_eq_ok.mp hok
  cases hok
  exact ⟨st, s₁, hst, hs₁, hs₂, rfl⟩

theorem updateFromOutput_filed (hs : s.Filed) : s'.Filed := by
  obtain ⟨_, _, hupds, hremove, hsending, -⟩ := updateFromOutput_eq_ok hok
  have hstart : UpdateState.Filed { scheduler := s } := by
    refine ⟨?_, hs.policy⟩
    simpa using hs.lists
  have hst := foldlM_updateOne_preserves hupds hstart (fun u hu => hu.lists.labelled)
    fun u r v _ hu known hmove => hmove.filed known hu
  have hs₁ := removeStopped_filed hremove hst
  exact foldlM_finishSending_preserves (fun _ _ _ ht h => finishSending_filed h ht) hsending
    ⟨hs₁.lists, hs₁.policy⟩

end

end Updates

/-! ### Runs -/

theorem Step.filed {env : Kv.HashEnv} {p q : Pipeline} {event : Event} (h : Step env p event q)
    (hp : p.scheduler.Filed) : q.scheduler.Filed := by
  cases h with
  | added fresh unknown returns => exact addRequest_filed returns unknown fresh hp
  | finished returns => exact finishRequests_filed returns hp
  | scheduled returns _ => exact schedule_filed returns hp
  | updated returns => exact updateFromOutput_filed returns hp
  | resetPrefixCache => exact ⟨hp.lists, hp.policy⟩

theorem new_filed (config : SchedulerConfig) (encoderCacheSize : ℕ)
    (kvCacheManager : Kv.KVCacheManager) :
    (Scheduler.new config encoderCacheSize kvCacheManager).Filed where
  lists := by
    constructor <;> simp [Scheduler.new, RequestQueue.ids_createRequestQueue]
  policy := by
    cases hpolicy : config.policy <;>
      simp [Scheduler.new, createRequestQueue, RequestQueue.policy, hpolicy]

/-- Requests are filed by their status in every state that is reached. -/
theorem filed_of_execution {env : Kv.HashEnv} {config : SchedulerConfig} {encoderCacheSize : ℕ}
    {kvCacheManager : Kv.KVCacheManager} {events : List Event} {p : Pipeline}
    (run : Execution (Step env) ⟨.new config encoderCacheSize kvCacheManager, []⟩ events p) :
    p.scheduler.Filed := by
  refine run.preserves (P := fun p => p.scheduler.Filed) ?_ (new_filed _ _ _)
  intro p event q hp hstep
  exact hstep.filed hp

end Sched
