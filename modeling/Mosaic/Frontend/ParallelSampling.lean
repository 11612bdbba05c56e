import Mosaic.Frontend.FanOut

/-!
# Aggregation of parallel samples

The merged stream of a parent is right as long as the parent is not left without an active child
before its last child is registered. The children run with the caller's parameters and not with
the completed ones, so theirs are right only if there was nothing to complete.
-/

namespace Frontend

open List Transition

variable {π ρ κ : Type} {events before : List (FamilyEvent π ρ κ)} {event : FamilyEvent π ρ κ}
  {made : Option (CompletionOutput ρ)} {out : Option (MergedOutput ρ κ)} {c : CompletionOutput ρ}
  {requestId : String} {raw processed : SamplingParams π} {s s₀ t : Family π ρ} {n : ℕ}
  {proc : Processor} {promptTokenIds : List ℤ}

/-- All `n` children have their final completions. -/
def AllFinished (n : ℕ) (events : List (FamilyEvent π ρ κ)) : Prop := ∀ i < n, Finished events i

/-- The merged stream ends iff all children are finished. If only the final output is asked for,
then it is one output with the final completions in the order of their indices. -/
structure Streamed (n : ℕ) (kind : RequestOutputKind) (events : List (FamilyEvent π ρ κ)) :
    Prop where
  ends : AllFinished n events → ∃ m ∈ emitted events, m.finished = true
  noneBefore : kind = .finalOnly → ¬ AllFinished n events → emitted events = []
  once : kind = .finalOnly → AllFinished n events →
    ∃ (m : MergedOutput ρ κ) (cs : List (CompletionOutput ρ)), emitted events = [m] ∧
      m.finished = true ∧ m.outputs = cs.map some ∧
      cs.map CompletionOutput.index = List.range n ∧ cs.Perm (finals events)

/-- The samples are aggregated: the stream is right, it is reported to be finished only with the
last final completion, and the children run with the completed parameters. -/
structure Aggregates (n : ℕ) (kind : RequestOutputKind) (processed : SamplingParams π)
    (events : List (FamilyEvent π ρ κ)) : Prop extends Streamed n kind events where
  last : ∀ before made m, before ++ [.output made (some m)] <+: events → m.finished = true →
    (∃ c, made = some c ∧ c.finished = true) ∧ AllFinished n (before ++ [.output made (some m)])
  params : ∀ index child, .register index child ∈ events →
    child.samplingParams = processed.forChild index

/-- Before the last child is registered, a child finishes only while another one is active. -/
def Covered (n : ℕ) (events : List (FamilyEvent π ρ κ)) : Prop :=
  ∀ before c out, before ++ [.output (some c) out] <+: events → c.finished = true →
    registered before < n → ∃ j, j ≠ c.index ∧ Active before j

theorem Covered.of_concat (h : Covered n (events ++ [event])) : Covered n events :=
  fun before c out hinit => h before c out (hinit.trans (prefix_append _ _))

/-- A run in which all children are registered before anything else is covered. -/
theorem covered_of_registered {first later : List (FamilyEvent π ρ κ)}
    (hfirst : ∀ e ∈ first, e.isRegister = true) (hn : n ≤ registered first) :
    Covered n (first ++ later) := by
  intro before c out hinit _ hlt
  rcases lt_or_ge before.length first.length with hshort | hlong
  · -- the output would be among the first events
    have hmem : FamilyEvent.output (some c) out ∈ first :=
      (prefix_of_prefix_length_le hinit (prefix_append _ _) (by simpa)).subset
        (mem_append_right _ (mem_singleton_self _))
    cases hfirst _ hmem
  · obtain ⟨_, rfl⟩ := prefix_of_prefix_length_le (prefix_append first later)
      ((prefix_append _ _).trans hinit) hlong
    unfold registered at hn hlt
    rw [countP_append] at hlt
    omega

/-- A run goes through every step of its events. -/
theorem step_of_prefix (run : Execution FamilyStep s₀ events s)
    (hinit : before ++ [event] <+: events) :
    ∃ t u, Execution FamilyStep s₀ before t ∧ FamilyStep t event u := by
  obtain ⟨_, rfl⟩ := hinit
  obtain ⟨u, hu, -⟩ := Execution.append_iff.mp run
  obtain ⟨t, ht, hstep⟩ := Execution.concat_iff.mp hu
  exact ⟨t, u, ht, hstep⟩

/-- What an output of the engine has done. -/
theorem effect_of_step (h : Gathered requestId raw events s)
    (hstep : FamilyStep s (.output made out) t) : OutputEffect raw events s made out t := by
  cases hstep with
  | @output _ o d _ hok =>
    obtain ⟨_, _, hu, heffect⟩ := h.output o d
    cases hok.symm.trans hu
    exact heffect

/-! ### The merged stream -/

/-- A map whose values are all there, and from which `g` reads the arguments back. -/
theorem exists_map_some {ι α : Type} {f : ι → Option α} {g : α → ι} {p : α → Prop} {l : List ι}
    (h : ∀ i ∈ l, ∃ a, f i = some a ∧ g a = i ∧ p a) :
    ∃ as : List α, l.map f = as.map some ∧ as.map g = l ∧ ∀ a ∈ as, p a := by
  induction l with
  | nil => exact ⟨[], rfl, rfl, nofun⟩
  | cons i rest ih =>
    obtain ⟨a, ha, hg, hp⟩ := h i mem_cons_self
    obtain ⟨as, has, hgs, hps⟩ := ih fun j hj => h j (mem_cons_of_mem _ hj)
    exact ⟨a :: as, by rw [map_cons, map_cons, ha, has],
      by rw [map_cons, hg, hgs], forall_mem_cons.mpr ⟨hp, hps⟩⟩

namespace Gathered

section

variable (h : Gathered requestId raw events s)
include h

/-- If all are finished then no child is active. -/
theorem not_active (hall : AllFinished raw.n events) (i : ℕ) : ¬ Active events i := fun hactive =>
  hactive.2 (hall i ((h.registered ▸ hactive.1).trans_le h.bound))

/-- A final completion is the last one iff it leaves the parent without a child, if it is
covered. -/
theorem childRequests_finishChild (out : Option (MergedOutput ρ κ))
    (hactive : Active events c.index) (hc : c.finished = true)
    (covered : Frontend.registered events < raw.n → ∃ j, j ≠ c.index ∧ Active events j) :
    (s.finishChild c).parent.childRequests = ∅ ↔
      AllFinished raw.n (events ++ [.output (some c) out]) := by
  have hfinish := h.finish out hactive hc
  rw [hfinish.childRequests_eq_empty_iff]
  refine ⟨fun hnone i hi => ?_, hfinish.not_active⟩
  have hregistered : Frontend.registered events = raw.n := by
    refine le_antisymm (h.registered ▸ h.bound) (Nat.le_of_not_lt fun hlt => ?_)
    obtain ⟨j, hne, hj⟩ := covered hlt
    exact hnone j ((active_final hc).mpr ⟨hj, hne⟩)
  by_contra hopen
  exact hnone i ⟨by rwa [registered_output, hregistered], hopen⟩

/-- While a child remains to be registered or is active, not all are finished. -/
theorem not_allFinished_of_lt (hlt : s.next < raw.n) : ¬ AllFinished raw.n events := fun hall =>
  lt_irrefl _ (h.lt _ (hall s.next hlt))

theorem not_allFinished_of_active {i : ℕ} (hactive : Active events i) :
    ¬ AllFinished raw.n events := fun hall =>
  h.not_active hall i hactive

/-- If all are finished, then the aggregator has their final completions in order. -/
theorem aggregated (hkind : raw.outputKind = .finalOnly) (hall : AllFinished raw.n events) :
    ∃ cs : List (CompletionOutput ρ),
      s.parent.outputAggregator = cs.map some ∧
      cs.map CompletionOutput.index = List.range raw.n ∧ cs.Perm (finals events) := by
  have hfind : ∀ i ∈ List.range raw.n, ∃ c,
      (finals events).find? (·.index = i) = some c ∧ c.index = i ∧ c ∈ finals events := by
    intro i hi
    obtain ⟨d, hd, hidx⟩ := mem_map.mp (hall i (mem_range.mp hi))
    have hsome : ((finals events).find? (·.index = i)).isSome :=
      find?_isSome.mpr ⟨d, hd, by simpa using hidx⟩
    obtain ⟨c, hc⟩ := Option.isSome_iff_exists.mp hsome
    exact ⟨c, hc, by simpa using find?_some hc, mem_of_find?_eq_some hc⟩
  obtain ⟨cs, hcs, hidxs, hsub⟩ := exists_map_some hfind
  refine ⟨cs, (h.aggregator hkind).trans hcs, hidxs, ?_⟩
  -- the indices are distinct on both sides, and the same
  have hnodup : (cs.map CompletionOutput.index).Nodup := hidxs ▸ nodup_range
  rw [perm_ext_iff_of_nodup (.of_map _ hnodup) (.of_map _ h.nodup)]
  refine fun c => ⟨hsub c, fun hc => ?_⟩
  have hlt := (h.lt _ (mem_map_of_mem hc)).trans_le h.bound
  obtain ⟨d, hd, hidx⟩ := mem_map.mp (hidxs ▸ mem_range.mpr hlt)
  rwa [← inj_on_of_nodup_map h.nodup (hsub d hd) hc hidx]

end

end Gathered

namespace Streamed

variable {kind : RequestOutputKind}

/-- As long as not all are finished, an event without an output keeps the stream. -/
theorem of_open (h : Streamed n kind events) (hbefore : ¬ AllFinished n events)
    (hafter : ¬ AllFinished n (events ++ [event]))
    (hevent : kind = .finalOnly → event.emitted = []) : Streamed n kind (events ++ [event]) where
  ends hall := absurd hall hafter
  noneBefore hkind _ := by
    rw [emitted_concat, hevent hkind, h.noneBefore hkind hbefore, append_nil]
  once _ hall := absurd hall hafter

/-- A step of the family keeps the stream right. -/
theorem step (h : Streamed raw.n raw.outputKind events) (hg : Gathered requestId raw events s)
    (hstep : FamilyStep s event t) (covered : Covered raw.n (events ++ [event])) :
    Streamed raw.n raw.outputKind (events ++ [event]) := by
  have hg' := hg.step hstep
  cases event with
  | register index child =>
    cases hstep with
    | register more hok =>
      rw [hg.params] at more
      have hbefore := hg.not_allFinished_of_lt more
      refine h.of_open hbefore (fun hall => hbefore fun i hi => ?_) fun _ => rfl
      simpa [finished_concat, FamilyEvent.final] using hall i hi
  | output made out =>
    cases effect_of_step hg hstep with
    | ignored =>
      -- The output is for a child that is not there: nothing is put out and nothing ends.
      have hfinals : finals (events ++ [.output none none]) = finals events :=
        finals_of_final_eq_nil rfl
      have hemitted : emitted (events ++ [.output none none]) = emitted events := by
        rw [emitted_concat]
        exact append_nil _
      have hall : AllFinished raw.n (events ++ [.output none none]) ↔
          AllFinished raw.n events := by
        unfold AllFinished Finished
        rw [hfinals]
      refine ⟨?_, ?_, ?_⟩
      · rw [hall, hemitted]
        exact h.ends
      · rw [hall, hemitted]
        exact h.noneBefore
      · rw [hall, hemitted, hfinals]
        exact h.once
    | @streamed c m unfinished streams notLast =>
      -- A part of a child that goes on: the same children have ended as before.
      have hfinals : finals (events ++ [.output (some c) (some m)]) = finals events :=
        finals_of_final_eq_nil (by simp [FamilyEvent.final, unfinished])
      refine ⟨fun hall => ?_, fun hkind => absurd hkind streams, fun hkind => absurd hkind streams⟩
      unfold AllFinished Finished at hall
      rw [hfinals] at hall
      obtain ⟨m', hm', hfin⟩ := h.ends hall
      rw [emitted_concat]
      exact ⟨m', mem_append_left _ hm', hfin⟩
    | @finished c k active final =>
      -- The child ends. Whether it was the last one decides what the parent puts out.
      generalize hout : (s.finishChild c).finalOutput c k = out at *
      have hiff := hg.childRequests_finishChild out active final
        (covered events c out prefix_rfl final)
      unfold Family.finalOutput at hout
      rw [hg'.params] at hout
      by_cases hkind : raw.outputKind = .finalOnly
      · -- One output at the end: it is made at the last child, and it holds all of them.
        rw [if_pos hkind] at hout
        have hnone := h.noneBefore hkind (hg.not_allFinished_of_active active)
        by_cases hall : AllFinished raw.n (events ++ [.output (some c) out])
        · rw [if_pos (hiff.mpr hall)] at hout
          subst hout
          obtain ⟨cs, hcs, hidxs, hperm⟩ := hg'.aggregated hkind hall
          have hemitted : emitted (events ++ [.output (some c)
              (some ⟨(s.finishChild c).parent.outputAggregator, true, k⟩)]) =
              [⟨(s.finishChild c).parent.outputAggregator, true, k⟩] := by
            rw [emitted_concat, hnone]
            rfl
          refine ⟨fun _ => ⟨_, by rw [hemitted]; exact mem_singleton_self _, rfl⟩,
            fun _ hopen => absurd hall hopen,
            fun _ _ => ⟨_, cs, hemitted, rfl, hcs, hidxs, hperm⟩⟩
        · rw [if_neg fun hempty => hall (hiff.mp hempty)] at hout
          subst hout
          exact h.of_open (hg.not_allFinished_of_active active) hall fun _ => rfl
      · -- Streamed outputs: every part is passed on, and the last one says that all ended.
        rw [if_neg hkind] at hout
        subst hout
        refine ⟨fun hall => ?_, fun h => absurd h hkind, fun h => absurd h hkind⟩
        rw [emitted_concat]
        exact ⟨_, mem_append_right _ (mem_singleton_self _), decide_eq_true (hiff.mpr hall)⟩

theorem of_run (hn : 0 < raw.n) (hnew : addRequest proc requestId promptTokenIds raw = .ok s₀)
    (run : Execution FamilyStep s₀ events s) (covered : Covered raw.n events) :
    Streamed raw.n raw.outputKind events := by
  induction run with
  | start =>
    have hopen : ¬ AllFinished raw.n ([] : List (FamilyEvent π ρ κ)) := fun hall =>
      absurd (hall 0 hn) not_mem_nil
    exact ⟨fun hall => absurd hall hopen, fun _ _ => rfl, fun _ hall => absurd hall hopen⟩
  | extend run last ih =>
    exact (ih covered.of_concat).step (gathered_of_run hnew run) last covered

end Streamed

/-! ### When a run aggregates -/

/-- A covered run reports the end only with the last final completion. -/
theorem last_of_covered (hnew : addRequest proc requestId promptTokenIds raw = .ok s₀)
    (run : Execution FamilyStep s₀ events s) (covered : Covered raw.n events)
    {m : MergedOutput ρ κ} (hinit : before ++ [.output made (some m)] <+: events)
    (hfin : m.finished = true) :
    (∃ c, made = some c ∧ c.finished = true) ∧
      AllFinished raw.n (before ++ [.output made (some m)]) := by
  obtain ⟨_, _, hbefore, hstep⟩ := step_of_prefix run hinit
  have hg := gathered_of_run hnew hbefore
  have hg' := hg.step hstep
  generalize hout : some m = out at *
  cases effect_of_step hg hstep with
  | ignored => cases hout
  | streamed unfinished streams notLast =>
    cases hout
    rw [notLast] at hfin
    cases hfin
  | @finished c k active final =>
    refine ⟨⟨c, rfl, final⟩, ?_⟩
    rw [← hg.childRequests_finishChild _ active final (covered before c _ hinit final)]
    unfold Family.finalOutput at hout
    split at hout
    · split at hout
      · assumption
      · cases hout
    · cases hout
      exact of_decide_eq_true hfin

/-- If a child that finishes early is the last active one, then the end is reported too early. -/
theorem covered_of_last (hnew : addRequest proc requestId promptTokenIds raw = .ok s₀)
    (run : Execution FamilyStep s₀ events s)
    (last : ∀ before made m, before ++ [.output made (some m)] <+: events → m.finished = true →
      (∃ c, made = some c ∧ c.finished = true) ∧
        AllFinished raw.n (before ++ [.output made (some m)])) : Covered raw.n events := by
  intro before c out hinit hc hlt
  by_contra hnone
  obtain ⟨t, _, hbefore, hstep⟩ := step_of_prefix run hinit
  have hg := gathered_of_run hnew hbefore
  have hg' := hg.step hstep
  cases effect_of_step hg hstep with
  | streamed unfinished =>
    rw [unfinished] at hc
    cases hc
  | @finished _ k active final =>
    have hempty : (t.finishChild c).parent.childRequests = ∅ := by
      rw [hg'.childRequests_eq_empty_iff]
      intro j hj
      obtain ⟨hj, hne⟩ := (active_final final).mp hj
      exact hnone ⟨j, hne, hj⟩
    obtain ⟨m, hm, hfin⟩ : ∃ m, (t.finishChild c).finalOutput c k = some m ∧
        m.finished = true := by
      unfold Family.finalOutput
      rw [hempty]
      split
      · exact ⟨_, if_pos rfl, rfl⟩
      · exact ⟨_, rfl, rfl⟩
    rw [hm] at hinit hg'
    have hall := (last before (some c) m hinit hfin).2
    refine hg'.not_allFinished_of_lt ?_ hall
    rw [← hg'.registered, registered_output]
    exact hlt

/-- Every child gets the caller's parameters. -/
theorem params_of_run {index : ℕ} {child : EngineCoreRequest π}
    (hnew : addRequest proc requestId promptTokenIds raw = .ok s₀)
    (run : Execution FamilyStep s₀ events s) (hmem : .register index child ∈ events) :
    child.samplingParams = raw.forChild index := by
  obtain ⟨before, later, rfl⟩ := append_of_mem hmem
  have hinit : before ++ [.register index child] <+: before ++ .register index child :: later :=
    ⟨later, by rw [append_assoc, singleton_append]⟩
  obtain ⟨_, _, hbefore, hstep⟩ := step_of_prefix run hinit
  have hg := gathered_of_run hnew hbefore
  cases hstep with
  | register more hok =>
    obtain ⟨_, _, hv, hparams, -⟩ := hg.register (hg.params ▸ more)
    cases hok.symm.trans hv
    exact hparams

/-- Children of completed parameters are children of the caller's iff the parameters are the
same. -/
theorem forChild_inj {index : ℕ} (hn : processed.n = raw.n) (hseed : processed.seed = raw.seed) :
    raw.forChild index = processed.forChild index ↔ processed = raw := by
  refine ⟨fun h => ?_, fun h => h ▸ rfl⟩
  simp only [SamplingParams.forChild, SamplingParams.mk.injEq] at h
  obtain ⟨-, -, h₁, h₂, h₃, h₄, h₅, h₆, h₇, h₈, h₉, h₁₀, h₁₁⟩ := h
  exact SamplingParams.ext hn hseed h₁.symm h₂.symm h₃.symm h₄.symm h₅.symm h₆.symm h₇.symm
    h₈.symm h₉.symm h₁₀.symm h₁₁.symm

/-- A run that registers a child aggregates the samples iff nothing was left to complete in the
caller's parameters, and the run is covered. No step of it fails. -/
theorem aggregates_iff_of_run (hn : 2 ≤ raw.n)
    (hnew : addRequest proc requestId promptTokenIds raw = .ok s₀)
    (run : Execution FamilyStep s₀ events s) (started : 0 < registered events) :
    (Aggregates raw.n raw.outputKind s₀.request.samplingParams events ↔
      proc.Settled promptTokenIds raw ∧ Covered raw.n events) ∧
    (s.next < raw.n → ∃ child t, s.register = .ok (child, t)) ∧
    ∀ (o : EngineCoreOutput κ) (d : Detokenized ρ), ∃ out t,
      s.processOutput o d = .ok (out, t) := by
  have hg := gathered_of_run hnew run
  refine ⟨?_, fun more => ?_, fun o d => ?_⟩
  · obtain ⟨_, hprocessed, hok⟩ := Fallible.bind_eq_ok.mp hnew
    cases hok
    have hcompletes := Processor.processParams_completes hprocessed
    rw [← Processor.processParams_eq_self_iff hprocessed]
    constructor
    · intro h
      -- The first child shows the parameters that it runs with.
      obtain ⟨event, hevent, hregister⟩ := countP_pos_iff.mp started
      cases event with
      | output => cases hregister
      | register index child =>
        refine ⟨?_, covered_of_last hnew run h.last⟩
        have hparams := h.params index child hevent
        rw [params_of_run hnew run hevent] at hparams
        exact (forChild_inj hcompletes.n hcompletes.seed).mp hparams
    · rintro ⟨hsettled, hcovered⟩
      refine ⟨.of_run (by omega) hnew run hcovered, fun before made m => ?_,
        fun index child hmem => ?_⟩
      · exact last_of_covered hnew run hcovered
      · rw [params_of_run hnew run hmem]
        exact (forChild_inj hcompletes.n hcompletes.seed).mpr hsettled
  · obtain ⟨child, t, hok, -⟩ := hg.register more
    exact ⟨child, t, hok⟩
  · obtain ⟨out, t, hok, -⟩ := hg.output o d
    exact ⟨out, t, hok⟩

section Example

/-- Two samples, of which only the final output is asked for. -/
def twoSamples : SamplingParams Unit where
  n := 2
  seed := some 7
  outputKind := .finalOnly
  maxTokens := none
  stopTokenIds := ∅
  ignoreEos := false
  allStopTokenIds := ∅
  badWords := []
  badWordsTokenIds := none
  genLength := 128
  outputLength := none
  promptLength := none
  rest := ()

/-- The same parameters with all that the processing completes for a prompt of three tokens. -/
def twoSettledSamples : SamplingParams Unit :=
  { twoSamples with
    maxTokens := some 5
    allStopTokenIds := {2}
    outputLength := some 128
    promptLength := some 3 }

def eightTokens : Processor := ⟨8, none, some 2, none⟩

/-- The family of a request with the prompt `[1, 1, 1]`. -/
def twoOf (params : SamplingParams Unit) : Family Unit ℕ :=
  ⟨⟨"r", [1, 1, 1], twoSettledSamples⟩, .new "r" params, ∅, 0⟩

/-- The final output of a child, with one token. -/
def finalOutputOf (index : ℕ) : EngineCoreOutput ℕ :=
  ⟨childRequestId index "r", [5], some .stop, none, none⟩

def detokenized (text : String) : Detokenized ℕ := ⟨none, text, [5], none, none⟩

def finalCompletion (index : ℕ) (text : String) : CompletionOutput ℕ :=
  ⟨index, text, [5], none, none, some "stop", none⟩

/-- Both children are registered, then they finish. -/
theorem aggregates_iff_of_run_two : ∃ (events : List (FamilyEvent Unit ℕ ℕ)) (s : Family Unit ℕ),
    Execution FamilyStep (twoOf twoSettledSamples) events s ∧
    (finals events).map CompletionOutput.index = [1, 0] ∧
    Aggregates 2 .finalOnly twoSettledSamples events := by
  obtain ⟨first, later, s, run, hfirst, hregistered, hfinals⟩ : ∃ (first later : List
      (FamilyEvent Unit ℕ ℕ)) (s : Family Unit ℕ),
      Execution FamilyStep (twoOf twoSettledSamples) (first ++ later) s ∧
      (∀ e ∈ first, e.isRegister = true) ∧ registered first = 2 ∧
      (finals (first ++ later)).map CompletionOutput.index = [1, 0] :=
    ⟨_, _, _, (((Execution.single (.register (by decide) rfl)).extend
      (.register (by decide) rfl)).append (((Execution.single
      (.output (o := finalOutputOf 1) (d := detokenized "b") rfl)).extend
      (.output (o := finalOutputOf 0) (d := detokenized "a") rfl)))),
      by decide +kernel, by decide +kernel, by decide +kernel⟩
  have hnew : addRequest eightTokens "r" [1, 1, 1] twoSettledSamples =
      .ok (twoOf twoSettledSamples) := rfl
  have started : 0 < registered (first ++ later) := by
    unfold registered at hregistered ⊢
    rw [countP_append, hregistered]
    omega
  have settled : eightTokens.Settled [1, 1, 1] twoSettledSamples := by
    refine ⟨rfl, rfl, rfl, fun id hid => ?_, nofun, nofun⟩
    cases hid
    decide
  exact ⟨_, s, run, hfinals, (aggregates_iff_of_run (le_refl 2) hnew run started).1.mpr
    ⟨settled, covered_of_registered hfirst hregistered.ge⟩⟩

/-- The first child finishes before the second one is registered. The stream is reported to be
finished twice, the first time with a completion missing, and no child has a bound of its
tokens. -/
theorem not_aggregates_of_run : ∃ (events : List (FamilyEvent Unit ℕ ℕ)) (s : Family Unit ℕ),
    addRequest eightTokens "r" [1, 1, 1] twoSamples = .ok (twoOf twoSamples) ∧
    Execution FamilyStep (twoOf twoSamples) events s ∧
    emitted events = [⟨[some (finalCompletion 0 "a"), none], true, none⟩,
      ⟨[some (finalCompletion 0 "a"), some (finalCompletion 1 "b")], true, none⟩] ∧
    (∀ index child, .register index child ∈ events → child.samplingParams.maxTokens = none) ∧
    twoSettledSamples.maxTokens = some 5 ∧
    ¬ Aggregates 2 .finalOnly twoSettledSamples events := by
  obtain ⟨events, s, run, hall, hemitted⟩ : ∃ (events : List (FamilyEvent Unit ℕ ℕ))
      (s : Family Unit ℕ), Execution FamilyStep (twoOf twoSamples) events s ∧
      (finals events).map CompletionOutput.index = [0, 1] ∧
      emitted events = [⟨[some (finalCompletion 0 "a"), none], true, none⟩,
        ⟨[some (finalCompletion 0 "a"), some (finalCompletion 1 "b")], true, none⟩] :=
    ⟨_, _, (((Execution.single (.register (by decide) rfl)).extend
      (.output (o := finalOutputOf 0) (d := detokenized "a") rfl)).extend
      (.register (by decide) rfl)).extend
      (.output (o := finalOutputOf 1) (d := detokenized "b") rfl),
      by decide +kernel, by decide +kernel⟩
  have hnew : addRequest eightTokens "r" [1, 1, 1] twoSamples = .ok (twoOf twoSamples) := rfl
  refine ⟨events, s, hnew, run, hemitted, fun index child hmem => ?_, rfl, fun h => ?_⟩
  · rw [params_of_run hnew run hmem]
    rfl
  · obtain ⟨_, _, hm, -⟩ := h.once rfl (by
      unfold AllFinished Finished
      rw [hall]
      decide)
    rw [hemitted] at hm
    cases hm

end Example

end Frontend
