import Mosaic.Nixl.Connector
import Mosaic.Control.Fallible
import Mathlib.Data.Finset.Basic
import Mathlib.Algebra.BigOperators.Fin

/-!
# Aggregation of what the workers report

Every worker reports the transfers that it has finished. The scheduler hears of a request when all
workers have reported it, so for each request it is counted how many workers still have to.
-/

namespace Nixl

open Finset

/-- What a worker says about its transfers after a step. -/
structure KVConnectorOutput where
  finishedSending : Option (Finset String) := none
  finishedRecving : Option (Finset String) := none
  deriving DecidableEq

/-- How many workers have yet to report a request. Missing requests were reported by nobody. -/
abbrev RemainingCount := String → Option ℤ

/-- `update_finished_set`, the ids of a set being counted independently. -/
def updateFinishedSet (worldSize : ℕ) (st : RemainingCount × Finset String)
    (reqIds : Option (Finset String)) : RemainingCount × Finset String :=
  let ids := reqIds.getD ∅
  let next := fun id => (st.1 id).getD worldSize - 1
  (fun id => if id ∈ ids then (if next id = 0 then none else some (next id)) else st.1 id,
    st.2 ∪ ids.filter fun id => next id = 0)

/-- The loop over the outputs of the workers. -/
def countDown (worldSize : ℕ) (st : RemainingCount × Finset String)
    (reports : List (Option (Finset String))) : RemainingCount × Finset String :=
  reports.foldl (updateFinishedSet worldSize) st

structure KVOutputAggregator where
  worldSize : ℕ
  recvRemainingCount : RemainingCount := fun _ => none
  sendRemainingCount : RemainingCount := fun _ => none

namespace KVOutputAggregator

/-- An empty set is passed on as no set. -/
def orNone (ids : Finset String) : Option (Finset String) := if ids = ∅ then none else some ids

/-- Aggregate the outputs of all workers. Outputs without a word about transfers are an error. -/
def aggregate (a : KVOutputAggregator) (outputs : List (Option KVConnectorOutput)) :
    Except ConnectorError (KVOutputAggregator × KVConnectorOutput) := do
  let outputs ← outputs.mapM fun output =>
    match output with
    | none => (.error .attributeError : Except ConnectorError KVConnectorOutput)
    | some output => .ok output
  let sending := countDown a.worldSize (a.sendRemainingCount, ∅)
    (outputs.map KVConnectorOutput.finishedSending)
  let recving := countDown a.worldSize (a.recvRemainingCount, ∅)
    (outputs.map KVConnectorOutput.finishedRecving)
  return ({ a with sendRemainingCount := sending.1, recvRemainingCount := recving.1 },
    { finishedSending := orNone sending.2, finishedRecving := orNone recving.2 })

@[simp] theorem mem_orNone {ids : Finset String} {id : String} :
    id ∈ (orNone ids).getD ∅ ↔ id ∈ ids := by
  unfold orNone
  split
  · rename_i h
    rw [h]
    rfl
  · rfl

/-- If every worker says something about transfers, the reports are counted. -/
theorem aggregate_eq_ok (a : KVOutputAggregator) (outputs : List KVConnectorOutput) :
    a.aggregate (outputs.map some) =
      let sending := countDown a.worldSize (a.sendRemainingCount, ∅)
        (outputs.map KVConnectorOutput.finishedSending)
      let recving := countDown a.worldSize (a.recvRemainingCount, ∅)
        (outputs.map KVConnectorOutput.finishedRecving)
      .ok ({ a with sendRemainingCount := sending.1, recvRemainingCount := recving.1 },
        { finishedSending := orNone sending.2, finishedRecving := orNone recving.2 }) := by
  unfold aggregate
  have hall : (outputs.map some).mapM (fun output =>
      match output with
      | none => (.error .attributeError : Except ConnectorError KVConnectorOutput)
      | some output => .ok output) = .ok outputs := by
    induction outputs with
    | nil => rfl
    | cons o rest ih =>
      rw [List.map_cons, List.mapM_cons, ih]
      rfl
  rw [hall]
  rfl

/-- One worker that says nothing about transfers is an error. -/
theorem aggregate_eq_error (a : KVOutputAggregator) {outputs : List (Option KVConnectorOutput)}
    (silent : none ∈ outputs) : a.aggregate outputs = .error .attributeError := by
  have hfails : outputs.mapM (fun output =>
      match output with
      | none => (.error .attributeError : Except ConnectorError KVConnectorOutput)
      | some output => .ok output) = .error .attributeError := by
    refine Fallible.mapM_eq_error (fun output _ => ?_) ⟨none, silent, rfl⟩
    cases output with
    | none => exact .inr rfl
    | some output => exact .inl ⟨output, rfl⟩
  unfold aggregate
  rw [hfails]
  rfl

end KVOutputAggregator

/-! ### Counting down -/

variable {worldSize count : ℕ} {st : RemainingCount × Finset String} {id : String}
  {reports : List (Option (Finset String))}

/-- So many workers have reported the request, not all of them. -/
def Reported (worldSize : ℕ) (remaining : RemainingCount) (id : String) (count : ℕ) : Prop :=
  count < worldSize ∧ remaining id = if count = 0 then none else some (worldSize - count : ℤ)

theorem Reported.next (h : Reported worldSize st.1 id count) :
    (st.1 id).getD worldSize - 1 = (worldSize : ℤ) - (count + 1 : ℕ) := by
  rw [h.2]
  split
  · rename_i hzero
    simp [hzero]
  · rw [Option.getD_some]
    omega

variable (worldSize st) {reqIds : Option (Finset String)}

/-- One worker, which does not report the request. -/
theorem updateFinishedSet_of_notMem (h : id ∉ reqIds.getD ∅) :
    (updateFinishedSet worldSize st reqIds).1 id = st.1 id ∧
      (id ∈ (updateFinishedSet worldSize st reqIds).2 ↔ id ∈ st.2) := by
  refine ⟨if_neg h, ?_⟩
  unfold updateFinishedSet
  rw [mem_union, mem_filter]
  exact or_iff_left fun hmem => h hmem.1

variable {worldSize st}

/-- A report that is not the last one. -/
theorem Reported.more (h : Reported worldSize st.1 id count)
    (hmem : id ∈ reqIds.getD ∅) (more : count + 1 < worldSize) :
    Reported worldSize (updateFinishedSet worldSize st reqIds).1 id (count + 1) ∧
      (id ∈ (updateFinishedSet worldSize st reqIds).2 ↔ id ∈ st.2) := by
  have hne : (st.1 id).getD worldSize - 1 ≠ 0 := by
    rw [h.next]
    omega
  refine ⟨⟨more, ?_⟩, ?_⟩
  · rw [if_neg (Nat.succ_ne_zero count)]
    have hvalue : (updateFinishedSet worldSize st reqIds).1 id =
        some ((st.1 id).getD worldSize - 1) := (if_pos hmem).trans (if_neg hne)
    rw [hvalue, h.next]
  · unfold updateFinishedSet
    rw [mem_union, mem_filter]
    exact or_iff_left fun hlast => hne hlast.2

/-- With the last report the request is finished, and its count starts anew. -/
theorem Reported.last (h : Reported worldSize st.1 id count)
    (hmem : id ∈ reqIds.getD ∅) (last : count + 1 = worldSize) :
    (updateFinishedSet worldSize st reqIds).1 id = none ∧
      id ∈ (updateFinishedSet worldSize st reqIds).2 := by
  have hzero : (st.1 id).getD worldSize - 1 = 0 := by
    rw [h.next]
    omega
  refine ⟨(if_pos hmem).trans (if_pos hzero), ?_⟩
  unfold updateFinishedSet
  rw [mem_union, mem_filter]
  exact .inr ⟨hmem, hzero⟩

variable (worldSize st) in
theorem countDown_none (none : ∀ ids ∈ reports, id ∉ ids.getD ∅) :
    (countDown worldSize st reports).1 id = st.1 id ∧
      (id ∈ (countDown worldSize st reports).2 ↔ id ∈ st.2) := by
  unfold countDown
  induction reports generalizing st with
  | nil => exact ⟨rfl, Iff.rfl⟩
  | cons ids rest ih =>
    obtain ⟨hcount, hdone⟩ := updateFinishedSet_of_notMem worldSize st
      (none ids List.mem_cons_self)
    obtain ⟨hcount', hdone'⟩ := ih (updateFinishedSet worldSize st ids)
      fun i hi => none i (List.mem_cons_of_mem _ hi)
    exact ⟨hcount'.trans hcount, hdone'.trans hdone⟩

variable (st) in
/-- The reports of the workers are counted. If they are not all of them, the request is not
finished, and with the last one it is. -/
theorem countDown_counts (h : Reported worldSize st.1 id count)
    (total : count + reports.countP (fun ids => id ∈ ids.getD ∅) ≤ worldSize) :
    let st' := countDown worldSize st reports
    let seen := count + reports.countP (fun ids => id ∈ ids.getD ∅)
    (seen < worldSize ∧ Reported worldSize st'.1 id seen ∧ (id ∈ st'.2 ↔ id ∈ st.2)) ∨
      (seen = worldSize ∧ st'.1 id = none ∧ id ∈ st'.2) := by
  induction reports generalizing st count with
  | nil => exact .inl ⟨h.1, h, Iff.rfl⟩
  | cons ids rest ih =>
    by_cases hmem : id ∈ ids.getD ∅
    · have hcons : (ids :: rest).countP (fun ids => id ∈ ids.getD ∅) =
          rest.countP (fun ids => id ∈ ids.getD ∅) + 1 := List.countP_cons_of_pos (by simpa)
      rw [hcons] at total ⊢
      by_cases hlast : count + 1 = worldSize
      · obtain ⟨hcount, hdone⟩ := h.last hmem hlast
        have hzero : rest.countP (fun ids => id ∈ ids.getD ∅) = 0 := by omega
        have hnone : ∀ i ∈ rest, id ∉ i.getD ∅ := by
          simpa using List.countP_eq_zero.mp hzero
        obtain ⟨hcount', hdone'⟩ := countDown_none worldSize
          (updateFinishedSet worldSize st ids) hnone
        exact .inr ⟨by omega, hcount'.trans hcount, hdone'.mpr hdone⟩
      · obtain ⟨hmore, hdone⟩ := h.more hmem (by have := h.1; omega)
        have hrest := ih (updateFinishedSet worldSize st ids) hmore (by omega)
        have hassoc : count + 1 + rest.countP (fun ids => id ∈ ids.getD ∅) =
            count + (rest.countP (fun ids => id ∈ ids.getD ∅) + 1) := by omega
        rw [hassoc] at hrest
        exact hrest.imp_left fun ⟨hseen, hreported, hiff⟩ =>
          ⟨hseen, hreported, hiff.trans hdone⟩
    · have hcons : (ids :: rest).countP (fun ids => id ∈ ids.getD ∅) =
          rest.countP (fun ids => id ∈ ids.getD ∅) := List.countP_cons_of_neg (by simpa)
      rw [hcons] at total ⊢
      obtain ⟨hcount, hdone⟩ := updateFinishedSet_of_notMem worldSize st hmem
      have hrest := ih (updateFinishedSet worldSize st ids) ⟨h.1, hcount.trans h.2⟩ total
      exact hrest.imp_left fun ⟨hseen, hreported, hiff⟩ => ⟨hseen, hreported, hiff.trans hdone⟩

end Nixl
