import Mosaic.Frontend.ParentRequest
import Mathlib.Data.List.Perm.Basic

/-!
# What a parent gathers

The children of a parent are active from their registration to their final completion. The parent
takes itself for finished as soon as no child is active, also if children remain to be registered.
-/

namespace Frontend

open List Transition

variable {π ρ κ : Type}

/-- Different children have different ids. -/
theorem childRequestId_injective (requestId : String) :
    Function.Injective fun index => childRequestId index requestId := by
  intro i j h
  unfold childRequestId at h
  simp only [toString, String.append_left_inj] at h
  have hdigits : Nat.toDigits 10 i = Nat.toDigits 10 j := by
    rw [← Nat.toList_repr, ← Nat.toList_repr]
    exact congrArg String.toList h
  rw [← Nat.ofDigitChars_toDigits (b := 10) (n := i) (by decide) (by decide), hdigits,
    Nat.ofDigitChars_toDigits (by decide) (by decide)]

/-! ### Events -/

namespace FamilyEvent

/-- The final completion that an event makes. -/
def final : FamilyEvent π ρ κ → List (CompletionOutput ρ)
  | .output (some c) _ => if c.finished then [c] else []
  | _ => []

def emitted : FamilyEvent π ρ κ → List (MergedOutput ρ κ)
  | .output _ (some m) => [m]
  | _ => []

def isRegister : FamilyEvent π ρ κ → Bool
  | .register _ _ => true
  | .output _ _ => false

end FamilyEvent

/-- The number of children that are registered. -/
def registered (events : List (FamilyEvent π ρ κ)) : ℕ := events.countP FamilyEvent.isRegister

/-- The final completions, in the order in which they are made. -/
def finals (events : List (FamilyEvent π ρ κ)) : List (CompletionOutput ρ) :=
  events.flatMap FamilyEvent.final

/-- The merged stream. -/
def emitted (events : List (FamilyEvent π ρ κ)) : List (MergedOutput ρ κ) :=
  events.flatMap FamilyEvent.emitted

/-- Child `i` has its final completion. -/
def Finished (events : List (FamilyEvent π ρ κ)) (i : ℕ) : Prop :=
  i ∈ (finals events).map CompletionOutput.index

/-- Child `i` is registered and not finished. -/
def Active (events : List (FamilyEvent π ρ κ)) (i : ℕ) : Prop :=
  i < registered events ∧ ¬ Finished events i

variable {events : List (FamilyEvent π ρ κ)} {event : FamilyEvent π ρ κ}
  {made : Option (CompletionOutput ρ)} {out : Option (MergedOutput ρ κ)} {c : CompletionOutput ρ}
  {index i : ℕ} {child : EngineCoreRequest π}

@[simp] theorem registered_register :
    registered (events ++ [.register index child]) = registered events + 1 := by
  simp [registered, FamilyEvent.isRegister]

@[simp] theorem registered_output :
    registered (events ++ [.output made out]) = registered events := by
  simp [registered, FamilyEvent.isRegister]

theorem finals_concat (events : List (FamilyEvent π ρ κ)) (event : FamilyEvent π ρ κ) :
    finals (events ++ [event]) = finals events ++ event.final := by
  simp [finals]

theorem emitted_concat (events : List (FamilyEvent π ρ κ)) (event : FamilyEvent π ρ κ) :
    emitted (events ++ [event]) = emitted events ++ event.emitted := by
  simp [emitted]

theorem finals_of_final_eq_nil (h : event.final = []) :
    finals (events ++ [event]) = finals events := by
  rw [finals_concat, h, append_nil]

theorem finished_concat : Finished (events ++ [event]) i ↔
    Finished events i ∨ i ∈ event.final.map CompletionOutput.index := by
  unfold Finished
  rw [finals_concat, map_append, mem_append]

theorem finished_concat_final (hc : c.finished = true) :
    Finished (events ++ [.output (some c) out]) i ↔ Finished events i ∨ i = c.index := by
  rw [finished_concat]
  simp [FamilyEvent.final, hc]

theorem active_register : Active (events ++ [.register index child]) i ↔
    Active events i ∨ i = registered events ∧ ¬ Finished events i := by
  unfold Active
  rw [finished_concat, registered_register, Nat.lt_succ_iff_lt_or_eq]
  tauto

theorem active_final (hc : c.finished = true) : Active (events ++ [.output (some c) out]) i ↔
    Active events i ∧ i ≠ c.index := by
  unfold Active
  rw [finished_concat_final hc, registered_output, not_or, and_assoc]

/-! ### The record of a family -/

/-- The parameters of a child as they are made of those of its parent. -/
def SamplingParams.forChild (p : SamplingParams π) (index : ℕ) : SamplingParams π :=
  { p with n := 1, seed := p.seed.map (· + (index : ℤ)) }

/-- The copy that the children share is there only if there is no seed. -/
def SharedCopy (p : SamplingParams π) (cached : Option (SamplingParams π)) : Prop :=
  ∀ copy, cached = some copy → p.seed = none ∧ copy = { p with n := 1 }

namespace ParentRequest

variable {p : ParentRequest π ρ}

/-- With or without the shared copy, the parameters are the caller's with one sample and the
child's own seed. -/
theorem getChildSamplingParams_spec (index : ℕ)
    (h : SharedCopy p.samplingParams p.cachedChildSamplingParams) :
    ∃ cached, p.getChildSamplingParams index =
      (p.samplingParams.forChild index, { p with cachedChildSamplingParams := cached }) ∧
      SharedCopy p.samplingParams cached := by
  unfold getChildSamplingParams
  split
  · rename_i cached hcached
    obtain ⟨hseed, hparams⟩ := h cached hcached
    refine ⟨p.cachedChildSamplingParams, ?_, h⟩
    rw [hparams]
    simp only [SamplingParams.forChild, hseed, Option.map_none]
  · rename_i hnone
    split
    · rename_i hseed
      refine ⟨some { p.samplingParams with n := 1 }, ?_, fun copy hcopy => ⟨hseed, ?_⟩⟩
      · simp only [SamplingParams.forChild, hseed, Option.map_none]
      · exact (Option.some.inj hcopy).symm
    · rename_i seed hseed
      refine ⟨p.cachedChildSamplingParams, ?_, h⟩
      simp only [SamplingParams.forChild, hseed, Option.map_some]

theorem getChildInfo_spec (p : ParentRequest π ρ) (index : ℕ)
    (h : SharedCopy p.samplingParams p.cachedChildSamplingParams) :
    ∃ cached, p.getChildInfo index =
      ((childRequestId index p.requestId, p.samplingParams.forChild index),
        { p with
          childRequests := insert (childRequestId index p.requestId) p.childRequests
          cachedChildSamplingParams := cached }) ∧
      SharedCopy p.samplingParams cached := by
  let id := childRequestId index p.requestId
  obtain ⟨cached, hget, hcopy⟩ := getChildSamplingParams_spec
    (p := { p with childRequests := insert id p.childRequests }) index h
  exact ⟨cached, congrArg (fun r => ((id, r.1), r.2)) hget, hcopy⟩

end ParentRequest

/-- What a family has recorded after its events. -/
structure Gathered (requestId : String) (raw : SamplingParams π)
    (events : List (FamilyEvent π ρ κ)) (s : Family π ρ) : Prop where
  parentId : s.parent.requestId = requestId
  params : s.parent.samplingParams = raw
  cached : SharedCopy raw s.parent.cachedChildSamplingParams
  registered : registered events = s.next
  bound : s.next ≤ raw.n
  children : ∀ id, id ∈ s.parent.childRequests ↔
    ∃ i, Active events i ∧ childRequestId i requestId = id
  states : ∀ id st, s.requestStates.lookup id = some st ↔
    ∃ i, Active events i ∧ childRequestId i requestId = id ∧ st = ⟨i, raw.outputKind⟩
  nodup : ((finals events).map CompletionOutput.index).Nodup
  lt : ∀ i, Finished events i → i < s.next
  aggregator : raw.outputKind = .finalOnly → s.parent.outputAggregator =
    (List.range raw.n).map fun i => (finals events).find? (·.index = i)

variable {requestId : String} {raw : SamplingParams π} {s t : Family π ρ}

theorem gathered_addRequest {proc : Processor} {promptTokenIds : List ℤ}
    (h : addRequest proc requestId promptTokenIds raw = .ok s) :
    Gathered requestId raw ([] : List (FamilyEvent π ρ κ)) s := by
  obtain ⟨processed, -, h⟩ := Fallible.bind_eq_ok.mp h
  cases h
  refine ⟨rfl, rfl, nofun, rfl, Nat.zero_le _, fun id => ?_, fun id st => ?_, .nil, nofun, ?_⟩
  · simp [ParentRequest.new, Active, Frontend.registered]
  · simp [Active, Frontend.registered]
  · intro hkind
    simp [ParentRequest.new, hkind, finals]

namespace Gathered

theorem childRequestId_inj {j : ℕ} :
    childRequestId i requestId = childRequestId j requestId ↔ i = j :=
  (childRequestId_injective requestId).eq_iff

/-- A registration succeeds, and the child gets the caller's parameters. -/
theorem register (h : Gathered requestId raw events s) (more : s.next < raw.n) :
    ∃ child t, s.register = .ok (child, t) ∧ child.samplingParams = raw.forChild s.next ∧
      Gathered requestId raw (events ++ [.register s.next child]) t := by
  have hfresh : ¬ Finished events s.next := fun hfin => lt_irrefl _ (h.lt _ hfin)
  obtain ⟨cached, hget, hcopy⟩ := s.parent.getChildInfo_spec s.next (h.params ▸ h.cached)
  -- The ids of the children differ, so that the next one is not registered yet.
  have hnew : childRequestId s.next requestId ∉ s.requestStates := by
    intro hmem
    obtain ⟨st, hst⟩ := Option.isSome_iff_exists.mp (AList.lookup_isSome.mpr hmem)
    obtain ⟨i, hactive, hid, -⟩ := (h.states _ st).mp hst
    have hlt := hactive.1
    rw [childRequestId_inj.mp hid, h.registered] at hlt
    exact lt_irrefl _ hlt
  unfold Family.register
  rw [hget, h.parentId]
  dsimp only
  rw [if_neg hnew]
  refine ⟨_, _, rfl, ?_, rfl, h.params, h.params ▸ hcopy, ?_, more, fun id => ?_,
    fun id st => ?_, ?_, fun i hi => ?_, ?_⟩
  · rw [h.params]
  · rw [registered_register, h.registered]
  · -- children: those that are active, and the new one.
    rw [Finset.mem_insert, h.children, ← h.registered]
    constructor
    · rintro (rfl | ⟨i, hactive, hid⟩)
      · exact ⟨_, active_register.mpr (.inr ⟨rfl, by rwa [h.registered]⟩), rfl⟩
      · exact ⟨i, active_register.mpr (.inl hactive), hid⟩
    · rintro ⟨i, hactive, hid⟩
      rcases active_register.mp hactive with hactive | ⟨rfl, -⟩
      · exact .inr ⟨i, hactive, hid⟩
      · exact .inl hid.symm
  · -- states: the new child has its own index, and the others keep their states.
    by_cases hid : id = childRequestId s.next requestId
    · subst hid
      rw [AList.lookup_insert]
      constructor
      · intro hst
        refine ⟨s.next, active_register.mpr (.inr ⟨h.registered.symm, hfresh⟩), rfl, ?_⟩
        rw [← Option.some.inj hst, h.params]
        rfl
      · rintro ⟨i, -, hi, rfl⟩
        rw [childRequestId_inj.mp hi, h.params]
        rfl
    · rw [AList.lookup_insert_ne hid, h.states]
      constructor
      · rintro ⟨i, hactive, hi, hst⟩
        exact ⟨i, active_register.mpr (.inl hactive), hi, hst⟩
      · rintro ⟨i, hactive, hi, hst⟩
        rcases active_register.mp hactive with hactive | ⟨rfl, -⟩
        · exact ⟨i, hactive, hi, hst⟩
        · rw [h.registered] at hi
          exact absurd hi.symm hid
  · rw [finals_of_final_eq_nil rfl]
    exact h.nodup
  · rw [finished_concat] at hi
    rcases hi with hi | hi
    · exact Nat.lt_succ_of_lt (h.lt i hi)
    · cases hi
  · intro hkind
    rw [finals_of_final_eq_nil rfl]
    exact h.aggregator hkind

end Gathered

/-! ### Outputs of the engine -/

/-- The family without an active child, with its completion kept if only the final output is asked
for. -/
def Family.finishChild (s : Family π ρ) (c : CompletionOutput ρ) : Family π ρ :=
  let id := childRequestId c.index s.parent.requestId
  { s with
    parent := { s.parent with
      childRequests := s.parent.childRequests.erase id
      outputAggregator :=
        if s.parent.samplingParams.outputKind = .finalOnly then
          s.parent.outputAggregator.set c.index (some c)
        else s.parent.outputAggregator }
    requestStates := s.requestStates.erase id }

/-- What is put out for the final completion `c` of a child, in the state `t` after it. -/
def Family.finalOutput (t : Family π ρ) (c : CompletionOutput ρ) (k : Option κ) :
    Option (MergedOutput ρ κ) :=
  if t.parent.samplingParams.outputKind = .finalOnly then
    if t.parent.childRequests = ∅ then some ⟨t.parent.outputAggregator, true, k⟩ else none
  else some ⟨[some c], t.parent.childRequests = ∅, k⟩

/-- All that an output of the engine can do to a family: nothing, put out a completion that is not
final, or finish an active child. -/
inductive OutputEffect (raw : SamplingParams π) (events : List (FamilyEvent π ρ κ))
    (s : Family π ρ) : Option (CompletionOutput ρ) → Option (MergedOutput ρ κ) → Family π ρ → Prop
  | ignored : OutputEffect raw events s none none s
  | streamed {c : CompletionOutput ρ} {m : MergedOutput ρ κ} (unfinished : c.finished = false)
      (streams : raw.outputKind ≠ .finalOnly) (notLast : m.finished = false) :
      OutputEffect raw events s (some c) (some m) s
  | finished {c : CompletionOutput ρ} {k : Option κ} (active : Active events c.index)
      (final : c.finished = true) :
      OutputEffect raw events s (some c) ((s.finishChild c).finalOutput c k) (s.finishChild c)

theorem finished_newCompletionOutput (st : RequestState) (o : EngineCoreOutput κ)
    (d : Detokenized ρ) :
    (st.newCompletionOutput o d).finished = (RequestState.finishReason o d).1.isSome := by
  simp [CompletionOutput.finished, RequestState.newCompletionOutput]

theorem getOutputs_unfinished (p : ParentRequest π ρ) (id : String) (hc : c.finished = false)
    (hkind : p.samplingParams.outputKind ≠ .finalOnly) :
    p.getOutputs id c = .ok (([some c], p.childRequests = ∅), p) := by
  unfold ParentRequest.getOutputs ParentRequest.removeFinished
  rw [if_neg (Bool.eq_false_iff.mp hc)]
  simp only [bind, Except.bind, hkind, ne_eq, not_false_eq_true, if_true, pure, Except.pure]

/-- The final completion of an active child. -/
theorem getOutputs_finished (p : ParentRequest π ρ) {id : String} (hmem : id ∈ p.childRequests)
    (hc : c.finished = true)
    (hidx : p.samplingParams.outputKind = .finalOnly → c.index < p.outputAggregator.length) :
    p.getOutputs id c = .ok ((if p.samplingParams.outputKind = .finalOnly then
        if p.childRequests.erase id = ∅ then p.outputAggregator.set c.index (some c) else []
      else [some c], p.childRequests.erase id = ∅),
      { p with
        childRequests := p.childRequests.erase id
        outputAggregator :=
          if p.samplingParams.outputKind = .finalOnly then
            p.outputAggregator.set c.index (some c)
          else p.outputAggregator }) := by
  unfold ParentRequest.getOutputs ParentRequest.removeFinished
  rw [if_pos hc, if_pos hmem]
  by_cases hkind : p.samplingParams.outputKind = .finalOnly
  · have hlt := hidx hkind
    simp only [bind, Except.bind, hkind, ne_eq, not_true_eq_false, if_false, hlt, if_true, pure,
      Except.pure, decide_eq_true_eq]
  · simp only [bind, Except.bind, hkind, ne_eq, not_false_eq_true, if_true, if_false, pure,
      Except.pure]

variable {st : RequestState} {p q : ParentRequest π ρ} {o : EngineCoreOutput κ}
  {d : Detokenized ρ} {outputs : List (Option (CompletionOutput ρ))} {finished : Bool}

theorem makeRequestOutput_eq_ok (hskip : st.isSkipped o d = false)
    (hc : st.newCompletionOutput o d = c)
    (hget : p.getOutputs o.requestId c = .ok ((outputs, finished), q)) :
    st.makeRequestOutput p o d =
      .ok (if outputs.isEmpty then none else some ⟨outputs, finished, o.kvTransferParams⟩, q) := by
  unfold RequestState.makeRequestOutput
  rw [if_neg (Bool.eq_false_iff.mp hskip), hc, hget]
  cases outputs <;> rfl

section

variable (hst : s.requestStates.lookup o.requestId = some st)
include hst

theorem processOutput_eq_ok (hmake : st.makeRequestOutput s.parent o d = .ok (out, q)) :
    s.processOutput o d = .ok (out, { s with
      parent := q
      requestStates := if (RequestState.finishReason o d).1.isSome then
        s.requestStates.erase o.requestId else s.requestStates }) := by
  unfold Family.processOutput
  simp only [hst, hmake]
  rfl

theorem completion_eq_some (hskip : st.isSkipped o d = false) :
    s.completion o d = some (st.newCompletionOutput o d) := by
  unfold Family.completion
  simp only [hst, hskip, Bool.false_eq_true, if_false]

theorem completion_eq_none (hskip : st.isSkipped o d = true) : s.completion o d = none := by
  unfold Family.completion
  simp only [hst, hskip, if_true]

end

namespace Gathered

theorem length_outputAggregator (h : Gathered requestId raw events s)
    (hkind : raw.outputKind = .finalOnly) : s.parent.outputAggregator.length = raw.n := by
  rw [h.aggregator hkind, length_map, length_range]

/-- An output of the engine is processed without an error. -/
theorem output (h : Gathered requestId raw events s) (o : EngineCoreOutput κ)
    (d : Detokenized ρ) : ∃ out t, s.processOutput o d = .ok (out, t) ∧
      OutputEffect raw events s (s.completion o d) out t := by
  cases hst : s.requestStates.lookup o.requestId with
  | none =>
    refine ⟨none, s, by simp only [Family.processOutput, hst], ?_⟩
    simp only [Family.completion, hst]
    exact .ignored
  | some st =>
    obtain ⟨i, hactive, hid, rfl⟩ := (h.states _ _).mp hst
    have hmem : o.requestId ∈ s.parent.childRequests := (h.children _).mpr ⟨i, hactive, hid⟩
    have hfinished := finished_newCompletionOutput ⟨i, raw.outputKind⟩ o d
    cases hskip : RequestState.isSkipped ⟨i, raw.outputKind⟩ o d with
    | true =>
      have hnone : (RequestState.finishReason o d).1.isSome = false := by
        simp only [RequestState.isSkipped, Bool.and_eq_true, Option.isNone_iff_eq_none] at hskip
        rw [hskip.1]
        rfl
      have hmake : RequestState.makeRequestOutput ⟨i, raw.outputKind⟩ s.parent o d =
          .ok (none, s.parent) := by
        unfold RequestState.makeRequestOutput
        rw [if_pos hskip]
      rw [processOutput_eq_ok hst hmake, completion_eq_none hst hskip,
        if_neg (Bool.eq_false_iff.mp hnone)]
      exact ⟨none, s, rfl, .ignored⟩
    | false =>
      rw [completion_eq_some hst hskip]
      generalize hc : RequestState.newCompletionOutput ⟨i, raw.outputKind⟩ o d = c at *
      have hidx : c.index = i := by
        rw [← hc]
        rfl
      cases hreason : (RequestState.finishReason o d).1.isSome with
      | false =>
        have hc' : c.finished = false := hfinished.trans hreason
        have hkind : raw.outputKind ≠ .finalOnly := by
          intro hkind
          simp [RequestState.isSkipped, Option.isSome_eq_false_iff.mp hreason, hkind] at hskip
        have hget := getOutputs_unfinished s.parent o.requestId hc' (h.params.symm ▸ hkind)
        rw [processOutput_eq_ok hst (makeRequestOutput_eq_ok hskip hc hget),
          if_neg (Bool.eq_false_iff.mp hreason)]
        refine ⟨_, s, rfl, .streamed hc' hkind ?_⟩
        exact decide_eq_false (Finset.ne_empty_of_mem hmem)
      | true =>
        have hc' : c.finished = true := hfinished.trans hreason
        have hlt : c.index < raw.n := by
          rw [hidx]
          exact (h.registered ▸ hactive.1).trans_le h.bound
        have hget := getOutputs_finished s.parent hmem hc' fun hkind => by
          rw [h.length_outputAggregator (h.params ▸ hkind)]
          exact hlt
        rw [processOutput_eq_ok hst (makeRequestOutput_eq_ok hskip hc hget), if_pos hreason]
        refine ⟨_, _, rfl, ?_⟩
        have hid' : childRequestId c.index s.parent.requestId = o.requestId := by
          rw [hidx, h.parentId, hid]
        convert OutputEffect.finished (k := o.kvTransferParams) (hidx.symm ▸ hactive) hc' using 1
        · unfold Family.finalOutput Family.finishChild
          rw [hid']
          by_cases hkind : s.parent.samplingParams.outputKind = .finalOnly
          · -- the aggregator has an entry for each child, so it is not taken for no output
            have hne : (s.parent.outputAggregator.set c.index (some c)).isEmpty = false := by
              rw [isEmpty_eq_false_iff, ← length_pos_iff, length_set,
                h.length_outputAggregator (h.params ▸ hkind)]
              exact Nat.zero_lt_of_lt hlt
            by_cases hempty : s.parent.childRequests.erase o.requestId = ∅
            · simp only [hkind, hempty, if_true, hne, Bool.false_eq_true, if_false, decide_true]
            · simp only [hkind, hempty, if_true, if_false, isEmpty_nil]
          · simp only [hkind, if_false, isEmpty_cons, Bool.false_eq_true]
        · unfold Family.finishChild
          rw [hid']

section

variable (h : Gathered requestId raw events s)
include h

/-- The parent has no child left iff no child is active. -/
theorem childRequests_eq_empty_iff : s.parent.childRequests = ∅ ↔ ∀ i, ¬ Active events i := by
  rw [Finset.eq_empty_iff_forall_notMem]
  constructor
  · intro hempty i hactive
    exact hempty _ ((h.children _).mpr ⟨i, hactive, rfl⟩)
  · intro hnone id hid
    obtain ⟨i, hactive, -⟩ := (h.children id).mp hid
    exact hnone i hactive

/-- An output without a final completion changes no record. -/
theorem idle (hfinal : (FamilyEvent.output made out : FamilyEvent π ρ κ).final = []) :
    Gathered requestId raw (events ++ [.output made out]) s := by
  have hactive : ∀ i, Active (events ++ [.output made out]) i ↔ Active events i := by
    intro i
    unfold Active
    rw [finished_concat, hfinal, registered_output]
    simp
  refine ⟨h.parentId, h.params, h.cached, ?_, h.bound, ?_, ?_, ?_, fun i hi => ?_, ?_⟩
  · rw [registered_output, h.registered]
  · simpa only [hactive] using h.children
  · simpa only [hactive] using h.states
  · rw [finals_of_final_eq_nil hfinal]
    exact h.nodup
  · rw [finished_concat, hfinal] at hi
    exact h.lt i (by simpa using hi)
  · rw [finals_of_final_eq_nil hfinal]
    exact h.aggregator

/-- The final completion of an active child is recorded. -/
theorem finish (out : Option (MergedOutput ρ κ)) (hactive : Active events c.index)
    (hc : c.finished = true) :
    Gathered requestId raw (events ++ [.output (some c) out]) (s.finishChild c) := by
  have hfinals : finals (events ++ [.output (some c) out]) = finals events ++ [c] := by
    rw [finals_concat]
    simp [FamilyEvent.final, hc]
  refine ⟨h.parentId, h.params, h.cached, ?_, h.bound, fun id => ?_, fun id st => ?_, ?_,
    fun i hi => ?_, fun hkind => ?_⟩
  · rw [registered_output, h.registered]
    rfl
  · unfold Family.finishChild
    rw [h.parentId, Finset.mem_erase, h.children]
    simp only [active_final hc]
    constructor
    · rintro ⟨hne, i, hi, rfl⟩
      exact ⟨i, ⟨hi, fun heq => hne (heq ▸ rfl)⟩, rfl⟩
    · rintro ⟨i, ⟨hi, hne⟩, rfl⟩
      exact ⟨fun heq => hne (childRequestId_inj.mp heq), i, hi, rfl⟩
  · unfold Family.finishChild
    rw [h.parentId]
    simp only [active_final hc]
    by_cases hid : id = childRequestId c.index requestId
    · subst hid
      rw [AList.lookup_erase]
      constructor
      · exact nofun
      · rintro ⟨i, ⟨-, hne⟩, heq, -⟩
        exact absurd (childRequestId_inj.mp heq) hne
    · rw [AList.lookup_erase_ne hid, h.states]
      constructor
      · rintro ⟨i, hi, rfl, hst⟩
        exact ⟨i, ⟨hi, fun heq => hid (heq ▸ rfl)⟩, rfl, hst⟩
      · rintro ⟨i, ⟨hi, -⟩, heq, hst⟩
        exact ⟨i, hi, heq, hst⟩
  · rw [hfinals, map_append]
    exact nodup_append.mpr ⟨h.nodup, nodup_singleton _, fun i hi j hj hij => by
      obtain rfl := mem_singleton.mp hj
      exact hactive.2 (hij ▸ hi)⟩
  · rcases (finished_concat_final hc).mp hi with hi | rfl
    · exact h.lt i hi
    · have hlt := hactive.1
      rw [h.registered] at hlt
      exact hlt
  · have hlt : c.index < raw.n := (h.registered ▸ hactive.1).trans_le h.bound
    unfold Family.finishChild
    dsimp only
    rw [if_pos (h.params ▸ hkind), h.aggregator hkind, hfinals]
    apply ext_getElem
    · simp
    · intro j hj _
      rw [getElem_set]
      by_cases hij : c.index = j
      · subst hij
        -- no completion of this child was there before
        have hnone : (finals events).find? (·.index = c.index) = none := by
          rw [find?_eq_none]
          intro d hd hidx
          exact hactive.2 (mem_map.mpr ⟨d, hd, of_decide_eq_true hidx⟩)
        simp [find?_append, hnone]
      · simp [find?_append, hij]

theorem effect (he : OutputEffect raw events s made out t) :
    Gathered requestId raw (events ++ [.output made out]) t := by
  cases he with
  | ignored => exact h.idle rfl
  | streamed unfinished => exact h.idle (by simp [FamilyEvent.final, unfinished])
  | finished active final => exact h.finish _ active final

/-- Every step keeps the record right. -/
theorem step (hstep : FamilyStep s event t) : Gathered requestId raw (events ++ [event]) t := by
  cases hstep with
  | register more hok =>
    obtain ⟨_, u, hu, -, hgathered⟩ := h.register (h.params ▸ more)
    cases hok.symm.trans hu
    exact hgathered
  | @output _ o d _ hok =>
    obtain ⟨_, u, hu, heffect⟩ := h.output o d
    cases hok.symm.trans hu
    exact h.effect heffect

end

end Gathered

theorem gathered_of_run {s₀ : Family π ρ} {proc : Processor} {promptTokenIds : List ℤ}
    (hnew : addRequest proc requestId promptTokenIds raw = .ok s₀)
    (run : Execution FamilyStep s₀ events s) : Gathered requestId raw events s :=
  run.invariant (gathered_addRequest hnew) fun _ _ _ _ h hstep => h.step hstep

end Frontend
