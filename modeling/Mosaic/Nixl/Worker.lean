import Mosaic.Nixl.Connector
import Mathlib.Data.Finset.Insert

/-!
# Producer workers of the NIXL connector

A producer worker keeps the requests whose blocks consumers may read, in the order in which they
were registered. The registration comes with the metadata of a step. Every consumer that reads from
the worker sends it one notification, which says how many consumers there are, and the worker counts
them. What nobody has read in time expires.
-/

namespace Nixl

open List Function

open Sched (setKey)

/-! ### Keys of dictionaries -/

section Keys

variable {α : Type} {d new : List (String × α)} {key id : String} {value : α} {entry : String × α}

theorem mem_keys_setKey :
    id ∈ (setKey d key value).map Prod.fst ↔ id ∈ d.map Prod.fst ∨ id = key := by
  unfold setKey
  split
  · rename_i hkey
    have hsame : (d.map fun e => if e.1 = key then (key, value) else e).map Prod.fst =
        d.map Prod.fst := by
      rw [map_map]
      refine map_congr_left fun e _ => ?_
      dsimp only [comp]
      split
      · rename_i heq
        exact heq.symm
      · rfl
    rw [hsame]
    constructor
    · exact .inl
    · rintro (h | rfl)
      · exact h
      · exact hkey
  · simp

/-- The assignments of one dictionary to another, in order. -/
def updateKeys (d new : List (String × α)) : List (String × α) :=
  new.foldl (fun d entry => setKey d entry.1 entry.2) d

theorem mem_keys_updateKeys :
    id ∈ (updateKeys d new).map Prod.fst ↔ id ∈ d.map Prod.fst ∨ id ∈ new.map Prod.fst := by
  unfold updateKeys
  induction new generalizing d with
  | nil => simp
  | cons entry rest ih =>
    rw [foldl_cons, ih, mem_keys_setKey, map_cons, mem_cons, or_assoc]

end Keys

/-- What a consumer tells a producer worker when it has read the blocks of a request. The text is
`request_id:tp_ratio`, and it is split at its last colon. -/
structure Notification where
  requestId : String
  tpRatio : ℕ
  deriving DecidableEq

/-- The part of a worker that sends: the requests that may be read, with their expiration times,
and the notifications that were counted for them. -/
structure ConnectorWorker where
  reqsToSend : List (String × ℚ) := []
  consumerNotificationCountsByReq : String → ℕ := fun _ => 0

namespace ConnectorWorker

/-- Consumers may read the blocks of this request. -/
def Registered (w : ConnectorWorker) (requestId : String) : Prop :=
  requestId ∈ w.reqsToSend.map Prod.fst

instance (w : ConnectorWorker) (requestId : String) : Decidable (w.Registered requestId) :=
  inferInstanceAs (Decidable (_ ∈ _))

/-- The request expires after this reading of the clock. -/
def Unexpired (w : ConnectorWorker) (now : ℚ) (requestId : String) : Prop :=
  ∀ entry ∈ w.reqsToSend, entry.1 = requestId → now < entry.2

instance (w : ConnectorWorker) (now : ℚ) (requestId : String) :
    Decidable (w.Unexpired now requestId) :=
  inferInstanceAs (Decidable (∀ entry ∈ w.reqsToSend, entry.1 = requestId → now < entry.2))

/-- The end of `start_load_kv`: the requests to send are registered. -/
def startLoadKv (w : ConnectorWorker) (m : ConnectorMetadata) : ConnectorWorker :=
  { w with reqsToSend := updateKeys w.reqsToSend m.reqsToSend }

def setCount (w : ConnectorWorker) (requestId : String) (count : ℕ) : ConnectorWorker :=
  { w with
    consumerNotificationCountsByReq :=
      update w.consumerNotificationCountsByReq requestId count }

/-- A request without a count has the count zero, so deleting one resets it. -/
def forget (w : ConnectorWorker) (requestId : String) : ConnectorWorker :=
  { (w.setCount requestId 0) with
    reqsToSend := w.reqsToSend.filter fun entry => entry.1 ≠ requestId }

/-- One notification. Nothing is counted for a request that is not registered. -/
def getNewNotif (st : ConnectorWorker × Finset String) (notif : Notification) :
    ConnectorWorker × Finset String :=
  if st.1.Registered notif.requestId then
    let count := st.1.consumerNotificationCountsByReq notif.requestId + 1
    if count = notif.tpRatio then
      (st.1.forget notif.requestId, insert notif.requestId st.2)
    else (st.1.setCount notif.requestId count, st.2)
  else st

/-- The requests of which the last notification arrived. -/
def getNewNotifs (w : ConnectorWorker) (notifs : List Notification) :
    ConnectorWorker × Finset String :=
  notifs.foldl getNewNotif (w, ∅)

/-- The oldest requests come first, so the loop ends with the first one that has not expired. -/
def releaseExpired (now : ℚ) :
    List (String × ℚ) → (String → ℕ) → Finset String → ConnectorWorker × Finset String
  | [], counts, done => (⟨[], counts⟩, done)
  | (requestId, expires) :: rest, counts, done =>
    if now < expires then (⟨(requestId, expires) :: rest, counts⟩, done)
    else releaseExpired now rest (update counts requestId 0) (insert requestId done)

/-- The requests that are done sending. -/
def getFinished (w : ConnectorWorker) (notifs : List Notification) (now : ℚ) :
    ConnectorWorker × Finset String :=
  let (w, doneSending) := w.getNewNotifs notifs
  releaseExpired now w.reqsToSend w.consumerNotificationCountsByReq doneSending

/-! ### Registration -/

variable {w : ConnectorWorker} {m : ConnectorMetadata} {st : ConnectorWorker × Finset String}
  {id other : String} {count k : ℕ} {notif : Notification} {notifs : List Notification} {now : ℚ}

@[simp] theorem registered_startLoadKv :
    (w.startLoadKv m).Registered id ↔ w.Registered id ∨ id ∈ m.reqsToSend.map Prod.fst :=
  mem_keys_updateKeys

@[simp] theorem not_registered_forget : ¬ (w.forget id).Registered id := by
  intro h
  obtain ⟨_, hentry, rfl⟩ := mem_map.mp h
  simpa using (mem_filter.mp hentry).2

theorem mem_reqsToSend_forget {entry : String × ℚ} (hne : entry.1 ≠ other) :
    entry ∈ (w.forget other).reqsToSend ↔ entry ∈ w.reqsToSend := by
  change entry ∈ w.reqsToSend.filter _ ↔ _
  rw [mem_filter]
  simpa using fun _ => hne

theorem registered_iff_exists : w.Registered id ↔ ∃ expires, (id, expires) ∈ w.reqsToSend := by
  unfold Registered
  rw [mem_map]
  constructor
  · rintro ⟨⟨_, expires⟩, h, rfl⟩
    exact ⟨expires, h⟩
  · rintro ⟨expires, h⟩
    exact ⟨(id, expires), h, rfl⟩

/-! ### What is known about one request -/

/-- The worker knows as much about a request as another one does. -/
structure SameFor (id : String) (st st' : ConnectorWorker × Finset String) : Prop where
  entries : ∀ expires, (id, expires) ∈ st'.1.reqsToSend ↔ (id, expires) ∈ st.1.reqsToSend
  count : st'.1.consumerNotificationCountsByReq id = st.1.consumerNotificationCountsByReq id
  done : id ∈ st'.2 ↔ id ∈ st.2

theorem SameFor.refl (id : String) (st : ConnectorWorker × Finset String) : SameFor id st st :=
  ⟨fun _ => Iff.rfl, rfl, Iff.rfl⟩

theorem SameFor.registered {st' : ConnectorWorker × Finset String} (h : SameFor id st st') :
    st'.1.Registered id ↔ st.1.Registered id := by
  rw [registered_iff_exists, registered_iff_exists]
  exact exists_congr h.entries

variable (st) in
/-- A notification says nothing about other requests. -/
theorem getNewNotif_other (hne : notif.requestId ≠ id) : SameFor id st (getNewNotif st notif) := by
  unfold getNewNotif
  split
  · dsimp only
    split
    · refine ⟨fun expires => mem_reqsToSend_forget hne.symm, ?_, ?_⟩
      · exact update_of_ne hne.symm _ _
      · simp [hne.symm]
    · exact ⟨fun _ => Iff.rfl, update_of_ne hne.symm _ _, Iff.rfl⟩
  · exact .refl id st

/-- Of a registered request, every notification but the last one is counted. -/
theorem getNewNotif_counted (registered : st.1.Registered notif.requestId)
    (more : st.1.consumerNotificationCountsByReq notif.requestId + 1 ≠ notif.tpRatio) :
    getNewNotif st notif =
      (st.1.setCount notif.requestId
        (st.1.consumerNotificationCountsByReq notif.requestId + 1), st.2) := by
  unfold getNewNotif
  rw [if_pos registered]
  exact if_neg more

theorem getNewNotif_last (registered : st.1.Registered notif.requestId)
    (last : st.1.consumerNotificationCountsByReq notif.requestId + 1 = notif.tpRatio) :
    getNewNotif st notif = (st.1.forget notif.requestId, insert notif.requestId st.2) := by
  unfold getNewNotif
  rw [if_pos registered]
  exact if_pos last

variable (st) in
/-- What notifications for other requests do. -/
theorem foldl_getNewNotif_other (none : ∀ n ∈ notifs, n.requestId ≠ id) :
    SameFor id st (notifs.foldl getNewNotif st) := by
  induction notifs generalizing st with
  | nil => exact .refl id st
  | cons n rest ih =>
    have hfirst := getNewNotif_other st (none n mem_cons_self)
    have hrest := ih (getNewNotif st n) fun n' hn' => none n' (mem_cons_of_mem _ hn')
    exact ⟨fun expires => (hrest.entries expires).trans (hfirst.entries expires),
      hrest.count.trans hfirst.count, hrest.done.trans hfirst.done⟩

variable (st) in
/-- The notifications for a registered request are counted. If they are not all of them, nothing
else happens, and with the last one the request is done. -/
theorem foldl_getNewNotif_counts (registered : st.1.Registered id)
    (ratio : ∀ n ∈ notifs, n.requestId = id → n.tpRatio = k)
    (before : st.1.consumerNotificationCountsByReq id < k)
    (total : st.1.consumerNotificationCountsByReq id +
      notifs.countP (·.requestId = id) ≤ k) :
    let st' := notifs.foldl getNewNotif st
    let seen := st.1.consumerNotificationCountsByReq id + notifs.countP (·.requestId = id)
    (seen < k ∧ (∀ expires, (id, expires) ∈ st'.1.reqsToSend ↔ (id, expires) ∈ st.1.reqsToSend) ∧
        st'.1.consumerNotificationCountsByReq id = seen ∧ (id ∈ st'.2 ↔ id ∈ st.2)) ∨
      (seen = k ∧ ¬ st'.1.Registered id ∧ st'.1.consumerNotificationCountsByReq id = 0 ∧
        id ∈ st'.2) := by
  induction notifs generalizing st with
  | nil => exact .inl ⟨before, fun _ => Iff.rfl, rfl, Iff.rfl⟩
  | cons n rest ih =>
    rw [foldl_cons]
    by_cases hid : n.requestId = id
    · subst hid
      have hcons : (n :: rest).countP (·.requestId = n.requestId) =
          rest.countP (·.requestId = n.requestId) + 1 := countP_cons_of_pos (by simp)
      have hratio : n.tpRatio = k := ratio n mem_cons_self rfl
      rw [hcons] at total ⊢
      by_cases hlast : st.1.consumerNotificationCountsByReq n.requestId + 1 = n.tpRatio
      · -- no notification is left after the last one
        have hnone : rest.countP (·.requestId = n.requestId) = 0 := by omega
        have hothers : ∀ n' ∈ rest, n'.requestId ≠ n.requestId := by
          simpa using countP_eq_zero.mp hnone
        rw [getNewNotif_last registered hlast]
        have hsame := foldl_getNewNotif_other
          (st.1.forget n.requestId, insert n.requestId st.2) hothers
        refine .inr ⟨by omega, ?_, ?_, ?_⟩
        · rw [hsame.registered]
          exact not_registered_forget
        · rw [hsame.count]
          exact update_self _ _ _
        · exact hsame.done.mpr (Finset.mem_insert_self _ _)
      · rw [getNewNotif_counted registered hlast]
        have hcount : (st.1.setCount n.requestId
            (st.1.consumerNotificationCountsByReq n.requestId + 1)
          ).consumerNotificationCountsByReq n.requestId =
            st.1.consumerNotificationCountsByReq n.requestId + 1 := update_self _ _ _
        have hrest := ih (st.1.setCount n.requestId
            (st.1.consumerNotificationCountsByReq n.requestId + 1), st.2) registered
          (fun n' hn' => ratio n' (mem_cons_of_mem _ hn'))
          (by dsimp only; omega) (by dsimp only; omega)
        rw [hcount] at hrest
        have hassoc : st.1.consumerNotificationCountsByReq n.requestId + 1 +
            rest.countP (·.requestId = n.requestId) =
            st.1.consumerNotificationCountsByReq n.requestId +
              (rest.countP (·.requestId = n.requestId) + 1) := by omega
        rw [hassoc] at hrest
        exact hrest
    · have hcons : (n :: rest).countP (·.requestId = id) = rest.countP (·.requestId = id) :=
        countP_cons_of_neg (by simpa using hid)
      rw [hcons] at total ⊢
      have hsame := getNewNotif_other st hid
      have hrest := ih (getNewNotif st n) (hsame.registered.mpr registered)
        (fun n' hn' => ratio n' (mem_cons_of_mem _ hn')) (hsame.count ▸ before)
        (hsame.count ▸ total)
      rw [hsame.count] at hrest
      rcases hrest with ⟨hseen, hentries, hcount, hdone⟩ | hdone
      · exact .inl ⟨hseen, fun expires => (hentries expires).trans (hsame.entries expires), hcount,
          hdone.trans hsame.done⟩
      · exact .inr hdone

/-- What does not expire is not touched by the loop over expired requests. -/
theorem releaseExpired_other (sends : List (String × ℚ)) (counts : String → ℕ)
    (done : Finset String) (unexpired : ∀ expires, (id, expires) ∈ sends → now < expires) :
    SameFor id (⟨sends, counts⟩, done) (releaseExpired now sends counts done) := by
  induction sends generalizing counts done with
  | nil => exact .refl id _
  | cons entry rest ih =>
    obtain ⟨key, expires⟩ := entry
    unfold releaseExpired
    split
    · exact .refl id _
    · rename_i hexpired
      have hne : key ≠ id := by
        rintro rfl
        exact hexpired (unexpired expires mem_cons_self)
      have hrest := ih (update counts key 0) (insert key done)
        fun e he => unexpired e (mem_cons_of_mem _ he)
      refine ⟨fun e => (hrest.entries e).trans ?_, hrest.count.trans ?_, hrest.done.trans ?_⟩
      · dsimp only
        rw [mem_cons, Prod.mk.injEq]
        exact ⟨.inr, fun h => h.resolve_left fun heq => hne heq.1.symm⟩
      · exact update_of_ne hne.symm _ _
      · dsimp only
        rw [Finset.mem_insert]
        exact or_iff_right hne.symm

/-- Nothing happens to a request without notifications that does not expire. -/
theorem getFinished_none (unexpired : w.Unexpired now id)
    (none : ∀ n ∈ notifs, n.requestId ≠ id) :
    SameFor id (w, ∅) (w.getFinished notifs now) := by
  have hnotifs := foldl_getNewNotif_other (w, ∅) none
  have hrest := releaseExpired_other (w.getNewNotifs notifs).1.reqsToSend
    (w.getNewNotifs notifs).1.consumerNotificationCountsByReq (w.getNewNotifs notifs).2
    fun expires h => unexpired _ ((hnotifs.entries expires).mp h) rfl
  exact ⟨fun expires => (hrest.entries expires).trans (hnotifs.entries expires),
    hrest.count.trans hnotifs.count, hrest.done.trans hnotifs.done⟩

/-- A registered request that does not expire is done with its last notification, and not before
it. -/
theorem getFinished_counts (registered : w.Registered id) (unexpired : w.Unexpired now id)
    (ratio : ∀ n ∈ notifs, n.requestId = id → n.tpRatio = k)
    (before : w.consumerNotificationCountsByReq id < k)
    (total : w.consumerNotificationCountsByReq id + notifs.countP (·.requestId = id) ≤ k) :
    let st := w.getFinished notifs now
    let seen := w.consumerNotificationCountsByReq id + notifs.countP (·.requestId = id)
    (seen < k ∧ st.1.Registered id ∧ st.1.consumerNotificationCountsByReq id = seen ∧
        id ∉ st.2) ∨
      (seen = k ∧ ¬ st.1.Registered id ∧ st.1.consumerNotificationCountsByReq id = 0 ∧
        id ∈ st.2) := by
  have hnotifs := foldl_getNewNotif_counts (w, ∅) registered ratio before total
  have hrest := @releaseExpired_other id now (w.getNewNotifs notifs).1.reqsToSend
    (w.getNewNotifs notifs).1.consumerNotificationCountsByReq (w.getNewNotifs notifs).2
  rcases hnotifs with ⟨hseen, hentries, hcount, hdone⟩ | ⟨hseen, hgone, hcount, hdone⟩
  · have hsame := hrest fun expires h => unexpired _ ((hentries expires).mp h) rfl
    refine .inl ⟨hseen, ?_, hsame.count.trans hcount, ?_⟩
    · obtain ⟨expires, h⟩ := registered_iff_exists.mp registered
      exact registered_iff_exists.mpr
        ⟨expires, (hsame.entries expires).mpr ((hentries expires).mpr h)⟩
    · intro h
      exact Finset.notMem_empty id (hdone.mp (hsame.done.mp h))
  · have hsame := hrest fun expires h =>
      absurd (registered_iff_exists.mpr ⟨expires, h⟩) hgone
    refine .inr ⟨hseen, ?_, hsame.count.trans hcount, hsame.done.mpr hdone⟩
    intro h
    exact hgone (hsame.registered.mp h)

end ConnectorWorker

end Nixl
