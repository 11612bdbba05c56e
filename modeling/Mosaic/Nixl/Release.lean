import Mosaic.Nixl.Producer
import Mathlib.Tactic.Ring
import Mathlib.Algebra.Order.BigOperators.Group.Finset

/-!
# When the blocks of a sent request are released

A notification that a worker takes before it has registered the request is lost, and so are the
reports of a step in which another worker returns an empty output: in a step without tokens, or from
a stage of a pipeline that is not the last one. Apart from that, every worker
reports a request once, with the last notification of its consumers, and the scheduler is told once,
when all workers have reported it.
-/

namespace Nixl

open List Function

open Sched (Request setKey)

namespace Producer

variable {W : ℕ} {p q : Producer W} {id : String} {w : Fin W} {t : Transfer W}

/-! ### Consumers -/

/-- As many consumers read from a worker as the ratio says. -/
theorem card_consumers (t : Transfer W) (w : Fin W) : (consumers t w).card = t.tpRatio := by
  have hset : consumers t w = Finset.Ico (w * t.tpRatio) (w * t.tpRatio + t.tpRatio) := by
    ext rank
    unfold consumers
    rw [Finset.mem_filter, Finset.mem_range, Finset.mem_Ico]
    rcases Nat.eq_zero_or_pos t.tpRatio with hzero | hpos
    · rw [hzero]
      omega
    · rw [Nat.div_eq_iff hpos]
      have hlast : (w + 1) * t.tpRatio ≤ t.tpRatio * W := by
        rw [mul_comm t.tpRatio]
        exact Nat.mul_le_mul_right _ w.isLt
      have hexpand : (w + 1) * t.tpRatio = w * t.tpRatio + t.tpRatio := by ring
      omega
  rw [hset, Nat.card_Ico]
  omega

/-- How many steps are yet to register a request at a worker. -/
def registrations (p : Producer W) (id : String) (w : Fin W) : ℕ :=
  (if id ∈ p.connector.reqsNeedSend.map Prod.fst then 1 else 0) +
    (p.pending w).countP fun step => id ∈ step.1.reqsToSend.map Prod.fst

/-- A request at a worker: it is yet to be registered, it is registered and notifications are
counted, or it is done. The numbers are those of its consumers, of the notifications that were taken
and of the reports that were made. -/
inductive Phase (tpRatio fetched reported : ℕ) (worker : ConnectorWorker) (id : String)
    (registrations : ℕ) : Prop where
  | expected (registered : ¬ worker.Registered id)
      (count : worker.consumerNotificationCountsByReq id = 0) (fetched_eq : fetched = 0)
      (reported_eq : reported = 0) (ratio : 0 < tpRatio) (once : registrations ≤ 1)
  | sending (registered : worker.Registered id)
      (count : worker.consumerNotificationCountsByReq id = fetched) (fetched_lt : fetched < tpRatio)
      (reported_eq : reported = 0) (once : registrations = 0)
  | done (registered : ¬ worker.Registered id)
      (count : worker.consumerNotificationCountsByReq id = 0) (fetched_eq : fetched = tpRatio)
      (reported_eq : reported = min tpRatio 1) (once : registrations = 0)

/-- The reports that the scheduler has got: not all of them, and the blocks are kept if they ever
were, or all of them, and the blocks are free. -/
inductive Told (worldSize : ℕ) (remaining : RemainingCount) (held : Finset String) (id : String)
    (tpRatio aggregated delivered : ℕ) : Prop where
  | waiting (count : Reported worldSize remaining id aggregated)
      (held_iff : id ∈ held ↔ 0 < tpRatio) (delivered_eq : delivered = 0)
  | told (count : remaining id = none) (all : aggregated = worldSize) (free : id ∉ held)
      (delivered_eq : delivered = 1)

/-- The invariant of one request. -/
structure Tracked (p : Producer W) (id : String) : Prop where
  alive : p.failed = false
  worldSize : p.aggregator.worldSize = W
  ranks : (p.transfers id).notified ⊆ Finset.range ((p.transfers id).tpRatio * W)
  ratio : ∀ w, ∀ n ∈ p.inbox w, n.requestId = id → n.tpRatio = (p.transfers id).tpRatio
  arrived : ∀ w, (p.transfers id).fetched w + p.waitingNotifs id w =
    (consumers (p.transfers id) w ∩ (p.transfers id).notified).card
  phase : ∀ w, Phase (p.transfers id).tpRatio ((p.transfers id).fetched w)
    ((p.transfers id).reported w) (p.workers w) id (p.registrations id w)
  outputs : ∀ w, (p.transfers id).reported w = (p.transfers id).aggregated w +
    (p.outputs w).countP fun output => id ∈ sentIds output
  told : Told W p.aggregator.sendRemainingCount p.held id (p.transfers id).tpRatio
    (∑ w, (p.transfers id).aggregated w) (p.transfers id).delivered

namespace Phase

variable {tpRatio fetched reported m n : ℕ} {worker : ConnectorWorker}

theorem reported_le (h : Phase tpRatio fetched reported worker id n) : reported ≤ 1 := by
  cases h with
  | expected => omega
  | sending => omega
  | done => omega

/-- Fewer steps to come do not matter. -/
theorem mono (h : Phase tpRatio fetched reported worker id n) (hle : m ≤ n) :
    Phase tpRatio fetched reported worker id m := by
  cases h with
  | expected hreg hcount hfetched hreported hratio honce =>
    exact .expected hreg hcount hfetched hreported hratio (hle.trans honce)
  | sending hreg hcount hfetched hreported honce =>
    exact .sending hreg hcount hfetched hreported (by omega)
  | done hreg hcount hfetched hreported honce =>
    exact .done hreg hcount hfetched hreported (by omega)

variable {data : ConnectorMetadata} {notifs : List Notification} {now : ℚ}

/-- A registered request goes on being counted, or it is done. -/
theorem executeRegistered (registered : worker.Registered id)
    (count : worker.consumerNotificationCountsByReq id = fetched) (more : fetched < tpRatio)
    (unexpired : worker.Unexpired now id)
    (ratio : ∀ n ∈ notifs, n.requestId = id → n.tpRatio = tpRatio)
    (total : fetched + notifs.countP (·.requestId = id) ≤ tpRatio) :
    Phase tpRatio (fetched + notifs.countP (·.requestId = id))
      (if id ∈ (worker.getFinished notifs now).2 then 1 else 0)
      (worker.getFinished notifs now).1 id 0 := by
  subst count
  rcases ConnectorWorker.getFinished_counts registered unexpired ratio more total with
    ⟨hseen, hstays, hcount, hnot⟩ | ⟨hseen, hgone, hcount, hdone⟩
  · rw [if_neg hnot]
    exact .sending hstays hcount hseen rfl rfl
  · rw [if_pos hdone]
    exact .done hgone hcount hseen (by omega) rfl

/-- Nothing happens to a request that is not registered. -/
theorem executeOther (h : Phase tpRatio fetched reported worker id n)
    (gone : ¬ worker.Registered id) (none : ∀ n ∈ notifs, n.requestId ≠ id) :
    Phase tpRatio (fetched + notifs.countP (·.requestId = id))
      (reported + if id ∈ (worker.getFinished notifs now).2 then 1 else 0)
      (worker.getFinished notifs now).1 id n := by
  have unexpired : worker.Unexpired now id := fun entry hmem hid =>
    absurd (hid ▸ mem_map_of_mem hmem) gone
  have hsame := ConnectorWorker.getFinished_none unexpired none
  have hnone : notifs.countP (·.requestId = id) = 0 := by
    simpa using none
  have hnot : id ∉ (worker.getFinished notifs now).2 :=
    fun hmem => Finset.notMem_empty id (hsame.done.mp hmem)
  have hgone : ¬ (worker.getFinished notifs now).1.Registered id :=
    fun hmem => gone (hsame.registered.mp hmem)
  rw [hnone, if_neg hnot]
  cases h with
  | expected _ hcount hfetched hreported hratio honce =>
    exact .expected hgone (hsame.count.trans hcount) hfetched hreported hratio honce
  | sending hreg => exact absurd hreg gone
  | done _ hcount hfetched hreported honce =>
    exact .done hgone (hsame.count.trans hcount) hfetched hreported honce

/-- A step registers a request that is expected, and counts the notifications for it. -/
theorem execute (h : Phase tpRatio fetched reported worker id
      ((if id ∈ data.reqsToSend.map Prod.fst then 1 else 0) + n))
    (unexpired : (worker.startLoadKv data).Unexpired now id)
    (orderly : (∃ n ∈ notifs, n.requestId = id) → (worker.startLoadKv data).Registered id)
    (ratio : ∀ n ∈ notifs, n.requestId = id → n.tpRatio = tpRatio)
    (total : fetched + notifs.countP (·.requestId = id) ≤ tpRatio) :
    Phase tpRatio (fetched + notifs.countP (·.requestId = id))
      (reported + if id ∈ ((worker.startLoadKv data).getFinished notifs now).2 then 1 else 0)
      ((worker.startLoadKv data).getFinished notifs now).1 id n := by
  by_cases hregistered : (worker.startLoadKv data).Registered id
  · have hphase : n = 0 ∧ worker.consumerNotificationCountsByReq id = fetched ∧
        fetched < tpRatio ∧ reported = 0 := by
      rcases ConnectorWorker.registered_startLoadKv.mp hregistered with hbefore | hnow
      · cases h with
        | expected hnot => exact absurd hbefore hnot
        | sending _ hcount hfetched hreported honce => exact ⟨by omega, hcount, hfetched, hreported⟩
        | done hnot => exact absurd hbefore hnot
      · rw [if_pos hnow] at h
        cases h with
        | expected _ hcount hfetched hreported hratio honce =>
          exact ⟨by omega, hcount.trans hfetched.symm, by omega, hreported⟩
        | sending _ _ _ _ honce => omega
        | done _ _ _ _ honce => omega
    obtain ⟨rfl, hcount, hfetched, rfl⟩ := hphase
    rw [zero_add]
    exact executeRegistered hregistered hcount hfetched unexpired ratio total
  · have hnone : ∀ n ∈ notifs, n.requestId ≠ id :=
      fun n hn hid => hregistered (orderly ⟨n, hn, hid⟩)
    refine executeOther ?_ hregistered hnone
    -- metadata without the request leaves everything known about it as it was
    rw [ConnectorWorker.registered_startLoadKv, not_or] at hregistered
    rw [if_neg hregistered.2, zero_add] at h
    cases h with
    | expected hreg hcount hfetched hreported hratio honce =>
      exact .expected (by simpa using hregistered) hcount hfetched hreported hratio honce
    | sending hreg => exact absurd hreg hregistered.1
    | done hreg hcount hfetched hreported honce =>
      exact .done (by simpa using hregistered) hcount hfetched hreported honce

end Phase

namespace Tracked

theorem arrived_le (h : Tracked p id) (w : Fin W) :
    (p.transfers id).fetched w + p.waitingNotifs id w ≤ (p.transfers id).tpRatio := by
  rw [h.arrived w, ← card_consumers (p.transfers id) w]
  exact Finset.card_le_card Finset.inter_subset_left

theorem aggregated_le (h : Tracked p id) (w : Fin W) : (p.transfers id).aggregated w ≤ 1 := by
  have hreported := (h.phase w).reported_le
  have houts := h.outputs w
  omega

/-- If as many reports are aggregated as there are workers, every worker has made one. -/
theorem aggregated_eq_one (h : Tracked p id) (all : ∑ w, (p.transfers id).aggregated w = W)
    (w : Fin W) : (p.transfers id).aggregated w = 1 := by
  by_contra hne
  have hle := h.aggregated_le w
  have hfewer : (p.transfers id).aggregated w < 1 := by omega
  have hlt : ∑ w, (p.transfers id).aggregated w < ∑ _w : Fin W, 1 :=
    Finset.sum_lt_sum (fun v _ => h.aggregated_le v) ⟨w, Finset.mem_univ w, hfewer⟩
  rw [Finset.sum_const, Finset.card_univ, Fintype.card_fin, smul_eq_mul, mul_one] at hlt
  omega

/-- Nothing of a request is left once its blocks are free. -/
theorem quiet (h : Tracked p id) (free : id ∉ p.held) (w : Fin W) :
    ¬ (p.workers w).Registered id ∧
      (p.workers w).consumerNotificationCountsByReq id = 0 ∧ p.registrations id w = 0 ∧
      p.waitingNotifs id w = 0 ∧
      (p.outputs w).countP (fun output => id ∈ sentIds output) = 0 := by
  have hreported := h.outputs w
  have harrived := h.arrived_le w
  have hdone : (p.transfers id).tpRatio = 0 ∨ (p.transfers id).aggregated w = 1 := by
    cases h.told with
    | waiting _ hheld =>
      left
      have hnot := mt hheld.mpr free
      omega
    | told _ hall => exact .inr (h.aggregated_eq_one hall w)
  cases h.phase w with
  | expected _ _ _ _ hratio => omega
  | sending _ _ hfetched hnone => omega
  | done hregistered hcount hfetched hone honce =>
    exact ⟨hregistered, hcount, honce, by omega, by omega⟩

end Tracked

/-! ### The steps that do not execute anything -/

section

variable (h : Tracked p id)
include h

/-- A step that leaves everything about a request alone but the registrations to come. -/
theorem Tracked.setConnector (c : ConnectorScheduler)
    (less : id ∈ c.reqsNeedSend.map Prod.fst → id ∈ p.connector.reqsNeedSend.map Prod.fst) :
    Tracked { p with connector := c } id := by
  refine ⟨h.alive, h.worldSize, h.ranks, h.ratio, h.arrived, fun w => (h.phase w).mono ?_,
    h.outputs, ?_⟩
  · unfold registrations
    refine Nat.add_le_add_right ?_ _
    split
    · rename_i hmem
      rw [if_pos (less hmem)]
    · exact Nat.zero_le _
  · exact h.told

/-- The blocks of another request are kept. -/
theorem Tracked.keepOther {other : String} (hne : id ≠ other) (expires : ℚ) (t : Transfer W) :
    Tracked { p with
      connector := { p.connector with
        reqsNeedSend := setKey p.connector.reqsNeedSend other expires }
      held := insert other p.held
      transfers := update p.transfers other t } id := by
  have hsame : update p.transfers other t id = p.transfers id :=
    update_of_ne hne _ _
  have hneed : id ∈ (setKey p.connector.reqsNeedSend other expires).map Prod.fst ↔
      id ∈ p.connector.reqsNeedSend.map Prod.fst := by
    rw [mem_keys_setKey]
    exact or_iff_left hne
  have hheld : id ∈ insert other p.held ↔ id ∈ p.held := by
    rw [Finset.mem_insert]
    exact or_iff_right hne
  refine ⟨h.alive, h.worldSize, ?_, ?_, ?_, fun w => ?_, ?_, ?_⟩
  · dsimp only
    rw [hsame]
    exact h.ranks
  · dsimp only
    rw [hsame]
    exact h.ratio
  · dsimp only
    rw [hsame]
    exact h.arrived
  · dsimp only
    rw [hsame]
    refine (h.phase w).mono (le_of_eq ?_)
    unfold registrations
    simp only [hneed]
  · dsimp only
    rw [hsame]
    exact h.outputs
  · dsimp only
    rw [hsame]
    cases h.told with
    | waiting hcount hkept hdelivered => exact .waiting hcount (hheld.trans hkept) hdelivered
    | told hcount hall hkept hdelivered =>
      exact .told hcount hall (fun hmem => hkept (hheld.mp hmem)) hdelivered

/-- The blocks of a request are kept, none of an earlier use of its id being left. -/
theorem Tracked.keep [NeZero W] (free : id ∉ p.held) (expires : ℚ) {tpRatio : ℕ}
    (hratio : 0 < tpRatio) : Tracked { p with
      connector := { p.connector with
        reqsNeedSend := setKey p.connector.reqsNeedSend id expires }
      held := insert id p.held
      transfers := update p.transfers id { tpRatio := tpRatio } } id := by
  have hself : update p.transfers id { tpRatio := tpRatio } id = { tpRatio := tpRatio } :=
    update_self _ _ _
  have hquiet := h.quiet free
  refine ⟨h.alive, h.worldSize, ?_, ?_, fun w => ?_, fun w => ?_, fun w => ?_, ?_⟩
  · dsimp only
    rw [hself]
    exact Finset.empty_subset _
  · intro w n hn hid
    have hnone : (p.inbox w).countP (·.requestId = id) = 0 := (hquiet w).2.2.2.1
    exact absurd hid (by simpa using countP_eq_zero.mp hnone n hn)
  · dsimp only
    rw [hself]
    have hnone : (p.inbox w).countP (·.requestId = id) = 0 := (hquiet w).2.2.2.1
    simpa [waitingNotifs] using hnone
  · obtain ⟨hregistered, hcount, honce, -, -⟩ := hquiet w
    dsimp only
    rw [hself]
    refine .expected hregistered hcount rfl rfl hratio ?_
    -- the only registration to come is the new one
    have hpending : (p.pending w).countP
        (fun step => id ∈ step.1.reqsToSend.map Prod.fst) = 0 :=
      (Nat.add_eq_zero_iff.mp honce).2
    unfold registrations
    rw [hpending]
    split <;> omega
  · dsimp only
    rw [hself, (hquiet w).2.2.2.2]
  · have hremaining : p.aggregator.sendRemainingCount id = none := by
      cases h.told with
      | waiting hcount hheld _ =>
        have hnever : ∑ w, (p.transfers id).aggregated w = 0 := by
          refine Finset.sum_eq_zero fun w _ => ?_
          have houts := h.outputs w
          have hnot := mt hheld.mpr free
          cases h.phase w with
          | expected _ _ _ hreported => omega
          | sending _ _ _ hreported => omega
          | done _ _ _ hreported => omega
        rw [hcount.2, hnever]
        rfl
      | told hcount => exact hcount
    dsimp only
    rw [hself]
    refine .waiting ⟨?_, ?_⟩ ?_ rfl
    · simpa using NeZero.pos W
    · simpa using hremaining
    · exact iff_of_true (Finset.mem_insert_self _ _) hratio

/-- A step goes to the workers with what is to be registered. -/
theorem Tracked.dispatch (tokens : ℤ) {m : ConnectorMetadata} {c : ConnectorScheduler}
    (hmeta : m.reqsToSend = p.connector.reqsNeedSend) (hc : c.reqsNeedSend = []) :
    Tracked (p.dispatch tokens m c) id := by
  refine ⟨h.alive, h.worldSize, h.ranks, h.ratio, h.arrived, fun w => (h.phase w).mono ?_,
    h.outputs, ?_⟩
  · have hlast : [(m, tokens)].countP
        (fun step => decide (id ∈ step.1.reqsToSend.map Prod.fst)) =
          if id ∈ p.connector.reqsNeedSend.map Prod.fst then 1 else 0 := by
      rw [countP_singleton, hmeta]
      simp only [decide_eq_true_eq]
    unfold registrations Producer.dispatch
    rw [hc, countP_append, hlast]
    simp [add_comm]
  · exact h.told

/-- A consumer that reads another request, or that has not notified yet. -/
theorem Tracked.notify {requestId : String} {rank : ℕ}
    (hrank : rank < (p.transfers requestId).tpRatio * W)
    (new : rank ∉ (p.transfers requestId).notified) : Tracked (p.notify requestId rank) id := by
  have hinbox : ∀ w : Fin W, (p.notify requestId rank).inbox w =
      if rank / (p.transfers requestId).tpRatio = w then
        p.inbox w ++ [⟨requestId, (p.transfers requestId).tpRatio⟩] else p.inbox w := fun _ => rfl
  by_cases hid : id = requestId
  · subst hid
    -- The notification is about the tracked request: one consumer more has read it.
    have hself : (p.notify id rank).transfers id =
        { p.transfers id with notified := insert rank (p.transfers id).notified } :=
      update_self _ _ _
    refine ⟨h.alive, h.worldSize, ?_, fun w n hn hn' => ?_, fun w => ?_, fun w => ?_, fun w => ?_,
      ?_⟩
    · rw [hself]
      exact Finset.insert_subset (Finset.mem_range.mpr hrank) h.ranks
    · rw [hself]
      rw [hinbox] at hn
      split at hn
      · rcases mem_append.mp hn with hold | hnew
        · exact h.ratio w n hold hn'
        · rw [mem_singleton.mp hnew]
      · exact h.ratio w n hn hn'
    · rw [hself]
      have harrived := h.arrived w
      have hreads : rank ∈ consumers (p.transfers id) w ↔
          rank / (p.transfers id).tpRatio = w := by
        unfold consumers
        rw [Finset.mem_filter, Finset.mem_range]
        exact and_iff_right hrank
      change (p.transfers id).fetched w + (p.notify id rank).waitingNotifs id w =
        (consumers (p.transfers id) w ∩ insert rank (p.transfers id).notified).card
      unfold waitingNotifs at harrived ⊢
      rw [hinbox]
      -- Only the worker that this consumer reads from gets the message.
      by_cases hreader : rank / (p.transfers id).tpRatio = w
      · rw [if_pos hreader, Finset.inter_insert_of_mem (hreads.mpr hreader),
          Finset.card_insert_of_notMem fun hmem => new (Finset.mem_inter.mp hmem).2,
          countP_append, ← harrived, countP_singleton]
        simp [add_assoc]
      · rw [if_neg hreader, Finset.inter_insert_of_notMem fun hmem => hreader (hreads.mp hmem)]
        exact harrived
    · rw [hself]
      exact h.phase w
    · rw [hself]
      exact h.outputs w
    · rw [hself]
      exact h.told
  · -- The notification is about another request, and the count of the tracked one stays.
    have hsame : (p.notify requestId rank).transfers id = p.transfers id :=
      update_of_ne hid _ _
    have hwait : ∀ w, (p.notify requestId rank).waitingNotifs id w = p.waitingNotifs id w := by
      intro w
      unfold waitingNotifs
      rw [hinbox]
      split
      · rw [countP_append, countP_singleton, if_neg (by simpa using Ne.symm hid),
          add_zero]
      · rfl
    refine ⟨h.alive, h.worldSize, ?_, fun w n hn hn' => ?_, fun w => ?_, fun w => ?_, fun w => ?_,
      ?_⟩
    · rw [hsame]
      exact h.ranks
    · rw [hsame]
      rw [hinbox] at hn
      split at hn
      · rcases mem_append.mp hn with hold | hnew
        · exact h.ratio w n hold hn'
        · rw [mem_singleton.mp hnew] at hn'
          exact absurd hn'.symm hid
      · exact h.ratio w n hn hn'
    · rw [hsame, hwait]
      exact h.arrived w
    · rw [hsame]
      exact h.phase w
    · rw [hsame]
      exact h.outputs w
    · rw [hsame]
      exact h.told

/-! ### The steps of a worker -/

end

@[simp] theorem mem_sentIds_connectorOutput {last : Bool} {tokens : ℤ}
    {done recving : Finset String} :
    id ∈ sentIds (connectorOutput last tokens done recving) ↔ id ∈ done := by
  unfold connectorOutput
  split
  · rename_i hempty
    rw [hempty.2.1]
    simp [sentIds]
  · simp [sentIds]

/-- A worker executes a step. -/
theorem Tracked.execute (h : Tracked p id) {v : Fin W} {m : ConnectorMetadata} {tokens : ℤ}
    {rest : List (ConnectorMetadata × ℤ)} {notifs : List Notification} {recving : Finset String}
    (hpending : p.pending v = (m, tokens) :: rest) (order : notifs.Perm (p.inbox v))
    (unexpired : (p.loaded v).Unexpired p.clock id)
    (orderly : (∃ n ∈ notifs, n.requestId = id) → (p.loaded v).Registered id) :
    Tracked (p.execute v m tokens rest notifs recving) id := by
  have hloaded : p.loaded v = (p.workers v).startLoadKv m := by
    unfold loaded
    rw [hpending]
  rw [hloaded] at unexpired orderly
  -- The worker takes every notification that waits for it, in some order.
  have hcount : notifs.countP (·.requestId = id) = p.waitingNotifs id v := order.countP_eq _
  have hleft : (p.execute v m tokens rest notifs recving).waitingNotifs id v = 0 := by
    change (update p.inbox v [] v).countP _ = 0
    rw [update_self]
    rfl
  refine ⟨h.alive, h.worldSize, h.ranks, fun w n hn => ?_, fun w => ?_, fun w => ?_, fun w => ?_,
    h.told⟩
  · have hold : n ∈ p.inbox w := by
      change n ∈ update p.inbox v [] w at hn
      by_cases hw : w = v
      · subst hw
        rw [update_self] at hn
        cases hn
      · rwa [update_of_ne hw] at hn
    exact h.ratio w n hold
  · -- arrived: what waited is now fetched, and nothing waits any more.
    have harrived := h.arrived w
    change update (p.transfers id).fetched v _ w + _ = (consumers (p.transfers id) w ∩
      (p.transfers id).notified).card
    by_cases hw : w = v
    · subst hw
      rw [update_self, hcount, hleft]
      exact harrived
    · have hsame : (p.execute v m tokens rest notifs recving).waitingNotifs id w =
          p.waitingNotifs id w := congrArg (List.countP _) (update_of_ne hw _ _)
      rw [update_of_ne hw, hsame]
      exact harrived
  · -- phase: the registration that the step brings moves from the queue to the worker.
    change Phase (p.transfers id).tpRatio (update (p.transfers id).fetched v _ w)
      (update (p.transfers id).reported v _ w) (update p.workers v _ w) id _
    by_cases hw : w = v
    · subst hw
      have hregistrations : p.registrations id w =
          (if id ∈ m.reqsToSend.map Prod.fst then 1 else 0) +
            (p.execute w m tokens rest notifs recving).registrations id w := by
        change _ = _ + ((if id ∈ p.connector.reqsNeedSend.map Prod.fst then 1 else 0) +
          (update p.pending w rest w).countP _)
        unfold registrations
        rw [hpending, update_self, countP_cons]
        simp only [decide_eq_true_eq]
        omega
      rw [update_self, update_self, update_self]
      refine Phase.execute (hregistrations ▸ h.phase w) unexpired orderly
        (fun n hn => h.ratio w n (order.subset hn)) ?_
      rw [hcount]
      exact h.arrived_le w
    · have hsame : (p.execute v m tokens rest notifs recving).registrations id w =
          p.registrations id w := by
        change _ + (update p.pending v rest w).countP _ = _
        rw [update_of_ne hw]
        rfl
      rw [update_of_ne hw, update_of_ne hw, update_of_ne hw, hsame]
      exact h.phase w
  · -- outputs: what the worker reports is in the output of the step, at every stage.
    have houts := h.outputs w
    change update (p.transfers id).reported v _ w = (p.transfers id).aggregated w +
      (update p.outputs v _ w).countP _
    by_cases hw : w = v
    · subst hw
      rw [update_self, update_self, countP_append, countP_singleton]
      simp only [mem_sentIds_connectorOutput, decide_eq_true_eq]
      omega
    · rw [update_of_ne hw, update_of_ne hw]
      exact houts

/-! ### Aggregation -/

theorem countP_ofFn {α : Type} {n : ℕ} (f : Fin n → α) (P : α → Bool) :
    (List.ofFn f).countP P = ∑ i, if P (f i) then 1 else 0 := by
  induction n with
  | zero => rfl
  | succ n ih =>
    rw [ofFn_succ, countP_cons, ih, Fin.sum_univ_succ, add_comm]

/-- The reports of the oldest step. -/
def oldestReports (p : Producer W) : List (Option (Finset String)) :=
  List.ofFn fun w => (p.oldest w).bind KVConnectorOutput.finishedSending

/-- If no worker returned an empty output, the reports of the oldest step are counted. -/
theorem aggregate_eq (present : ∀ w, (p.oldest w).isSome) :
    ∃ aggregator : KVOutputAggregator, aggregator.worldSize = p.aggregator.worldSize ∧
      let st := countDown p.aggregator.worldSize (p.aggregator.sendRemainingCount, ∅)
        p.oldestReports
      aggregator.sendRemainingCount = st.1 ∧
      p.aggregate = { p with
        aggregator := aggregator
        held := p.held \ (KVOutputAggregator.orNone st.2).getD ∅
        outputs := fun w => (p.outputs w).tail
        transfers := fun id => { p.transfers id with
          aggregated := fun w => (p.transfers id).aggregated w +
            if id ∈ sentIds (p.oldest w) then 1 else 0
          delivered := (p.transfers id).delivered +
            if id ∈ (KVOutputAggregator.orNone st.2).getD ∅ then 1 else 0 } } := by
  have hall : List.ofFn p.oldest = (List.ofFn fun w => (p.oldest w).get (present w)).map some := by
    rw [map_ofFn]
    exact congrArg List.ofFn (funext fun w => (Option.some_get (present w)).symm)
  have hreports : (List.ofFn fun w => (p.oldest w).get (present w)).map
      KVConnectorOutput.finishedSending = p.oldestReports := by
    unfold oldestReports
    rw [map_ofFn]
    refine congrArg List.ofFn (funext fun w => ?_)
    obtain ⟨_, houtput⟩ := Option.isSome_iff_exists.mp (present w)
    simp [houtput]
  refine ⟨{ p.aggregator with
    sendRemainingCount := (countDown p.aggregator.worldSize (p.aggregator.sendRemainingCount, ∅)
      p.oldestReports).1
    recvRemainingCount := (countDown p.aggregator.worldSize (p.aggregator.recvRemainingCount, ∅)
      ((List.ofFn fun w => (p.oldest w).get (present w)).map
        KVConnectorOutput.finishedRecving)).1 }, rfl, rfl, ?_⟩
  unfold aggregate
  rw [hall, KVOutputAggregator.aggregate_eq_ok, hreports]

/-- An empty output is an error. -/
theorem failed_aggregate (empty : ∃ w, p.oldest w = none) : p.aggregate.failed = true := by
  obtain ⟨w, hw⟩ := empty
  have hnone : none ∈ List.ofFn p.oldest := by
    rw [mem_ofFn]
    exact ⟨w, hw⟩
  unfold aggregate
  rw [KVOutputAggregator.aggregate_eq_error _ hnone]

/-- The reports of the oldest step are aggregated. -/
theorem Tracked.aggregate (h : Tracked p id) (ready : ∀ w, p.outputs w ≠ [])
    (present : ∀ w, (p.oldest w).isSome) : Tracked p.aggregate id := by
  obtain ⟨aggregator, hworld, hremaining, heq⟩ := aggregate_eq present
  have hsplit : ∀ w, (p.outputs w).countP (fun output => id ∈ sentIds output) =
      (if id ∈ sentIds (p.oldest w) then 1 else 0) +
        (p.outputs w).tail.countP fun output => id ∈ sentIds output := by
    intro w
    unfold oldest
    cases hout : p.outputs w with
    | nil => exact absurd hout (ready w)
    | cons output rest =>
      rw [headD_cons, tail_cons]
      by_cases hmem : id ∈ sentIds output
      · rw [countP_cons_of_pos (by simpa using hmem), if_pos hmem, add_comm]
      · rw [countP_cons_of_neg (by simpa using hmem), if_neg hmem, zero_add]
  have hreports : p.oldestReports.countP (fun ids => id ∈ ids.getD ∅) =
      ∑ w, if id ∈ sentIds (p.oldest w) then 1 else 0 := by
    unfold oldestReports
    rw [countP_ofFn]
    simp only [decide_eq_true_eq]
    rfl
  have htotal : ∑ w, (p.transfers id).aggregated w +
      p.oldestReports.countP (fun ids => id ∈ ids.getD ∅) =
        ∑ w, ((p.transfers id).aggregated w + if id ∈ sentIds (p.oldest w) then 1 else 0) := by
    rw [hreports, Finset.sum_add_distrib]
  have hle : ∀ w, (p.transfers id).aggregated w +
      (if id ∈ sentIds (p.oldest w) then 1 else 0) ≤ 1 := by
    intro w
    have houts := h.outputs w
    have hsplit := hsplit w
    have hreported := (h.phase w).reported_le
    omega
  have hbound : ∑ w, (p.transfers id).aggregated w +
      p.oldestReports.countP (fun ids => id ∈ ids.getD ∅) ≤ W := by
    rw [htotal]
    refine (Finset.sum_le_card_nsmul _ _ 1 fun w _ => hle w).trans ?_
    simp
  rw [heq]
  rw [h.worldSize] at hworld hremaining ⊢
  refine ⟨h.alive, hworld, h.ranks, h.ratio, h.arrived, h.phase, fun w => ?_, ?_⟩
  · have houts := h.outputs w
    have hsplit := hsplit w
    dsimp only
    omega
  · dsimp only
    rw [← htotal, hremaining]
    simp only [KVOutputAggregator.mem_orNone]
    cases h.told with
    | waiting hcount hheld hdelivered =>
      rcases countDown_counts (p.aggregator.sendRemainingCount, ∅) hcount hbound with
        ⟨hseen, hreported, hnot⟩ | ⟨hseen, hnone, hdone⟩
      · have hnotDone : id ∉ (countDown W (p.aggregator.sendRemainingCount, ∅)
            p.oldestReports).2 := fun hmem => Finset.notMem_empty id (hnot.mp hmem)
        refine .waiting hreported ?_ (by rw [if_neg hnotDone, hdelivered])
        rw [Finset.mem_sdiff, KVOutputAggregator.mem_orNone]
        exact (and_iff_left hnotDone).trans hheld
      · refine .told hnone hseen ?_ (by rw [if_pos hdone, hdelivered])
        rw [Finset.mem_sdiff, KVOutputAggregator.mem_orNone]
        exact fun hmem => hmem.2 hdone
    | told hcount hall hfree hdelivered =>
      -- every worker has made its report, so there is none in this step
      have hzero : p.oldestReports.countP (fun ids => id ∈ ids.getD ∅) = 0 := by omega
      have hnone : ∀ ids ∈ p.oldestReports, id ∉ ids.getD ∅ := by
        simpa using countP_eq_zero.mp hzero
      obtain ⟨hsame, hdone⟩ := countDown_none W
        (p.aggregator.sendRemainingCount, ∅) hnone
      have hnotDone : id ∉ (countDown W (p.aggregator.sendRemainingCount, ∅)
          p.oldestReports).2 := fun hmem => Finset.notMem_empty id (hdone.mp hmem)
      refine .told (hsame.trans hcount) (by omega) ?_ (by rw [if_neg hnotDone, hdelivered])
      exact fun hmem => hfree (Finset.mem_sdiff.mp hmem).1

/-! ### Runs -/

/-- A step before the request expires that meets the conditions. -/
def OrderlyStep (id : String) (p : Producer W) (event : Event W) (q : Producer W) : Prop :=
  Step p event q ∧ Unexpired id p event ∧ Orderly id p event

theorem OrderlyStep.tracked [NeZero W] {event : Event W} (step : OrderlyStep id p event q)
    (h : Tracked p id) : Tracked q id := by
  obtain ⟨hstep, hunexpired, horderly⟩ := step
  replace hstep : p.act event = some q := by
    unfold Step next at hstep
    rwa [h.alive] at hstep
  unfold act at hstep
  cases event with
  | time elapsed =>
    obtain ⟨-, hq⟩ := Option.ite_none_right_eq_some.mp hstep
    cases hq
    exact ⟨h.alive, h.worldSize, h.ranks, h.ratio, h.arrived, h.phase, h.outputs, h.told⟩
  | finish r params blockIds tpRatio =>
    obtain ⟨hguard, hq⟩ := Option.ite_none_left_eq_some.mp hstep
    cases hq
    rw [not_or] at hguard
    unfold finish
    -- Either the blocks are kept for the consumers, or they are freed at once.
    rcases p.connector.requestFinished_cases r params blockIds p.clock with
      ⟨hdelay, hconn⟩ | ⟨hdelay, hconn⟩
    · dsimp only
      rw [if_pos hdelay, hconn]
      -- Kept: the request of the event is the tracked one, or its transfer is another.
      by_cases hid : id = r.requestId
      · subst hid
        exact h.keep hguard.1 _ (pos_of_ne_zero hguard.2)
      · exact h.keepOther hid _ _
    · dsimp only
      rw [if_neg (by simp [hdelay]), hconn]
      exact h.setConnector _ fun hmem => hmem
  | alloc requestId numTokens params blockIds unhashedBlockIds numExternalTokens =>
    dsimp only at hstep
    split at hstep
    · cases hstep
    · rename_i c _ halloc
      cases hstep
      refine h.setConnector _ fun hmem => ?_
      rwa [ConnectorScheduler.reqsNeedSend_updateStateAfterAlloc halloc] at hmem
  | dispatch tokens =>
    obtain ⟨-, hstep⟩ := Option.ite_none_left_eq_some.mp hstep
    split at hstep
    · cases hstep
    · rename_i m c hbuild
      cases hstep
      obtain ⟨hmeta, rfl⟩ := ConnectorScheduler.reqsToSend_buildConnectorMeta hbuild
      exact h.dispatch tokens hmeta rfl
  | skip =>
    dsimp only at hstep
    split at hstep
    · cases hstep
    · rename_i m c hbuild
      cases hstep
      obtain ⟨-, rfl⟩ := ConnectorScheduler.reqsToSend_buildConnectorMeta hbuild
      exact h.setConnector _ nofun
  | notify requestId rank =>
    obtain ⟨⟨hrank, hnew⟩, hq⟩ := Option.ite_none_right_eq_some.mp hstep
    cases hq
    exact h.notify hrank hnew
  | execute w notifs recving =>
    dsimp only at hstep
    split at hstep
    · cases hstep
    · rename_i m tokens rest hpending
      obtain ⟨horder, hq⟩ := Option.ite_none_right_eq_some.mp hstep
      cases hq
      exact h.execute hpending horder hunexpired horderly
  | aggregate =>
    obtain ⟨hready, hq⟩ := Option.ite_none_right_eq_some.mp hstep
    cases hq
    exact h.aggregate hready horderly

/-- Before anything happened. -/
theorem tracked_new [NeZero W] (c : ConnectorScheduler) (lastStage : Fin W → Bool) (id : String) :
    Tracked (new c lastStage) id := by
  refine ⟨rfl, rfl, Finset.empty_subset _, nofun, fun w => ?_,
    fun w => ?_, fun w => rfl, ?_⟩
  · simp [waitingNotifs, new]
  · exact .done not_mem_nil rfl rfl rfl rfl
  · refine .waiting ⟨by simpa [new] using NeZero.pos W, by simp [new]⟩ ?_ rfl
    exact iff_of_false (Finset.notMem_empty id) (lt_irrefl 0)

/-- A request whose blocks are kept is released when, and only when, all consumers are done. -/
theorem Tracked.releasedOnce (h : Tracked p id) (kept : 0 < (p.transfers id).tpRatio) :
    p.ReleasedOnce id := by
  have hall : ∀ w, (consumers (p.transfers id) w ⊆ (p.transfers id).notified ∧
      p.waitingNotifs id w = 0) ↔ (p.transfers id).fetched w = (p.transfers id).tpRatio := by
    intro w
    have harrived := h.arrived w
    have hle := h.arrived_le w
    have hcard := card_consumers (p.transfers id) w
    constructor
    · rintro ⟨hsubset, hnone⟩
      rw [Finset.inter_eq_left.mpr hsubset] at harrived
      omega
    · intro hfetched
      refine ⟨Finset.inter_eq_left.mp ?_, by omega⟩
      exact Finset.eq_of_subset_of_card_le Finset.inter_subset_left (by omega)
  refine ⟨h.alive, fun w => ?_, fun w hnone => ?_, ?_, h.outputs⟩
  · cases h.phase w with
    | expected _ _ hfetched hreported =>
      rw [if_neg fun hdone => by have := (hall w).mp hdone; omega, hreported]
    | sending _ _ hfetched hreported =>
      rw [if_neg fun hdone => by have := (hall w).mp hdone; omega, hreported]
    | done _ _ hfetched hreported =>
      rw [if_pos ((hall w).mpr hfetched), hreported]
      omega
  · rw [← h.arrived w]
    cases h.phase w with
    | expected _ hcount hfetched => rw [hcount, hfetched]
    | sending _ hcount => rw [hcount]
    | done _ _ _ hreported => omega
  · cases h.told with
    | waiting hcount _ hdelivered =>
      rw [if_neg, hdelivered]
      intro hone
      have hsum : ∑ w, (p.transfers id).aggregated w = ∑ _w : Fin W, 1 :=
        Finset.sum_congr rfl fun w _ => hone w
      have hlt := hcount.1
      rw [hsum, Finset.sum_const, Finset.card_univ, Fintype.card_fin, smul_eq_mul, mul_one] at hlt
      exact lt_irrefl W hlt
    | told _ hsum _ hdelivered =>
      rw [if_pos (h.aggregated_eq_one hsum), hdelivered]

/-- In every run in which the request does not expire, no worker takes a notification before it has
registered the request, and no worker returns an empty output, the request is released when, and
only when, all consumers are done. -/
theorem releasedOnce_of_orderly [NeZero W] {c : ConnectorScheduler} {lastStage : Fin W → Bool}
    {events : List (Event W)}
    (run : Transition.Execution (OrderlyStep id) (new c lastStage) events p)
    (kept : 0 < (p.transfers id).tpRatio) : p.ReleasedOnce id :=
  (run.preserves (fun _ _ _ h step => OrderlyStep.tracked step h)
    (tracked_new c lastStage id)).releasedOnce
    kept

/-! ### Runs of a producer with one worker -/

/-- Events that are all possible, under a condition on each, are those of a run. -/
theorem execution_of_foldlM {P : Producer W → Event W → Prop} [∀ p event, Decidable (P p event)]
    {events : List (Event W)} (hok : events.foldlM
      (fun p event => if P p event then p.next event else none) p = some q) :
    Transition.Execution (fun p event q => Step p event q ∧ P p event) p events q := by
  induction events generalizing p with
  | nil =>
    cases hok
    exact .start
  | cons event rest ih =>
    obtain ⟨_, hfirst, hrest⟩ := Option.bind_eq_some_iff.mp hok
    obtain ⟨hcond, hnext⟩ := Option.ite_none_right_eq_some.mp hfirst
    exact (Transition.Execution.single ⟨hnext, hcond⟩).append (ih hrest)

/-- The connector of an engine with blocks of four tokens. -/
def smallConnector : ConnectorScheduler where
  blockSize := 4
  engineId := "producer"
  sideChannelHost := "localhost"
  sideChannelPort := 5600
  tensorParallelSize := 1
  abortRequestTimeout := 480

/-- A request with a prompt of one block, after its only output token. -/
def prefilled : Request where
  requestId := "r"
  promptTokenIds := [1, 2, 3, 4]
  maxTokens := 1
  outputTokenIds := [5]
  numComputedTokens := 4
  status := .finishedLengthCapped

/-- The request is finished, registered and read. -/
def readInTime : List (Event 1) :=
  [.finish prefilled (some { doRemoteDecode := true }) [1] 1, .dispatch 1, .execute 0 [] ∅,
    .aggregate, .notify "r" 0, .dispatch 1, .execute 0 [⟨"r", 1⟩] ∅, .aggregate]

/-- Two steps are under way when the request is finished with the output of the first one. Its
consumer is done before the second one ends. -/
def readTooEarly : List (Event 1) :=
  [.dispatch 1, .dispatch 1, .execute 0 [] ∅, .aggregate,
    .finish prefilled (some { doRemoteDecode := true }) [1] 1, .notify "r" 0,
    .execute 0 [⟨"r", 1⟩] ∅, .aggregate, .dispatch 1, .execute 0 [] ∅, .aggregate]

theorem releasedOnce_readInTime : ∃ p : Producer 1,
    Transition.Execution (OrderlyStep "r") (new smallConnector fun _ => true) readInTime p ∧
      p.ReleasedOnce "r" ∧ (p.transfers "r").delivered = 1 := by
  have hvalues : (readInTime.foldlM (fun (p : Producer 1) event =>
      if Unexpired "r" p event ∧ Orderly "r" p event then p.next event else none)
        (new smallConnector fun _ => true)).map (fun p => ((p.transfers "r").tpRatio,
          (p.transfers "r").delivered)) = some (1, 1) := by
    decide +kernel
  obtain ⟨p, hp, hvalues⟩ := Option.map_eq_some_iff.mp hvalues
  obtain ⟨hratio, hdelivered⟩ := Prod.mk.inj hvalues
  have hrun := execution_of_foldlM hp
  exact ⟨p, hrun, releasedOnce_of_orderly hrun (by omega), hdelivered⟩

/-- The notification that came before the registration is never counted: the only consumer is done,
and the request is not reported. -/
theorem not_releasedOnce_readTooEarly : ∃ p : Producer 1,
    Transition.Execution (fun p event q => Step p event q ∧ Unexpired "r" p event)
      (new smallConnector fun _ => true) readTooEarly p ∧
      0 < (p.transfers "r").tpRatio ∧ ¬ p.ReleasedOnce "r" := by
  have hvalues : (readTooEarly.foldlM (fun (p : Producer 1) event =>
      if Unexpired "r" p event then p.next event else none)
        (new smallConnector fun _ => true)).map (fun p => ((p.transfers "r").tpRatio,
          (p.transfers "r").reported 0, decide (consumers (p.transfers "r") 0 ⊆
            (p.transfers "r").notified), p.waitingNotifs "r" 0)) = some (1, 0, true, 0) := by
    decide +kernel
  obtain ⟨p, hp, hvalues⟩ := Option.map_eq_some_iff.mp hvalues
  obtain ⟨hratio, hvalues⟩ := Prod.mk.inj hvalues
  obtain ⟨hreported, hvalues⟩ := Prod.mk.inj hvalues
  obtain ⟨hall, hnone⟩ := Prod.mk.inj hvalues
  refine ⟨p, execution_of_foldlM hp, by omega, fun h => ?_⟩
  have honce := h.once 0
  rw [if_pos ⟨of_decide_eq_true hall, hnone⟩, hreported] at honce
  cases honce

end Producer

end Nixl
