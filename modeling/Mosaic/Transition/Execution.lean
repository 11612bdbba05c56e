import Mathlib.Data.List.Induction

/-!
# Executions of labelled transition systems

An execution is a finite run from a fixed state together with the events it performs, the
latest event at the end. Invariants may speak about the events so far as well as about the
state, so a property of the whole history is proved by one step lemma.
-/

namespace Transition

variable {σ ε : Type*}

/-- `Execution step s events t`: the events lead from `s` to `t`. -/
inductive Execution (step : σ → ε → σ → Prop) (s : σ) : List ε → σ → Prop where
  | start : Execution step s [] s
  | extend {events : List ε} {t u : σ} {event : ε}
      (run : Execution step s events t) (last : step t event u) :
      Execution step s (events ++ [event]) u

namespace Execution

variable {step : σ → ε → σ → Prop} {s t u : σ} {events later : List ε} {event : ε}

theorem single (h : step s event t) : Execution step s [event] t :=
  .extend .start h

theorem append (run : Execution step s events t) (rest : Execution step t later u) :
    Execution step s (events ++ later) u := by
  induction rest with
  | start => simpa using run
  | extend _ last ih =>
    rw [← List.append_assoc]
    exact ih.extend last

theorem concat_iff : Execution step s (events ++ [event]) u ↔
    ∃ t, Execution step s events t ∧ step t event u := by
  constructor
  · intro run
    generalize hall : events ++ [event] = all at run
    cases run with
    | start => simp at hall
    | extend run last =>
      -- the last event of a nonempty history is determined
      obtain ⟨rfl, hevent⟩ := List.append_inj' hall rfl
      obtain rfl : event = _ := by simpa using hevent
      exact ⟨_, run, last⟩
  · intro ⟨t, run, last⟩
    exact run.extend last

theorem single_iff : Execution step s [event] u ↔ step s event u := by
  refine ⟨fun run => ?_, single⟩
  obtain ⟨t, hstart, hlast⟩ := concat_iff.mp (show Execution step s ([] ++ [event]) u from run)
  generalize hnil : ([] : List ε) = none at hstart
  cases hstart with
  | start => exact hlast
  | extend => simp at hnil

theorem append_iff : Execution step s (events ++ later) u ↔
    ∃ t, Execution step s events t ∧ Execution step t later u := by
  constructor
  · intro run
    induction later using List.reverseRecOn generalizing u with
    | nil => exact ⟨u, by simpa using run, .start⟩
    | append_singleton later event ih =>
      rw [← List.append_assoc] at run
      obtain ⟨v, hv, hlast⟩ := concat_iff.mp run
      obtain ⟨t, ht, hrest⟩ := ih hv
      exact ⟨t, ht, hrest.extend hlast⟩
  · intro ⟨t, run, rest⟩
    exact run.append rest

/-- What holds at the start and is preserved by every step holds after every run. -/
theorem invariant {P : List ε → σ → Prop} (start : P [] s)
    (preserved : ∀ events t event u, P events t → step t event u → P (events ++ [event]) u)
    (run : Execution step s events t) : P events t := by
  induction run with
  | start => exact start
  | extend _ last ih => exact preserved _ _ _ _ ih last

/-- A state property that every step preserves survives every run. -/
theorem preserves {P : σ → Prop} (preserved : ∀ t event u, P t → step t event u → P u)
    (run : Execution step s events t) (start : P s) : P t := by
  induction run with
  | start => exact start
  | extend _ last ih => exact preserved _ _ _ ih last

theorem mono {step' : σ → ε → σ → Prop} (h : ∀ {s event t}, step s event t → step' s event t)
    (run : Execution step s events t) : Execution step' s events t := by
  induction run with
  | start => exact .start
  | extend _ last ih => exact ih.extend (h last)

/-- Commands that a partial function follows lead to the end of a run, if each of them makes a step
from a good state to a good one. -/
theorem exists_of_foldlM {κ : Type*} {f : σ → κ → Option σ} {P : σ → Prop} {commands : List κ}
    (each : ∀ s command t, command ∈ commands → P s → f s command = some t →
      ∃ event, step s event t ∧ P t)
    (start : P s) (h : commands.foldlM f s = some t) :
    ∃ events, Execution step s events t ∧ P t := by
  induction commands generalizing s with
  | nil =>
    cases h
    exact ⟨[], .start, start⟩
  | cons command rest ih =>
    obtain ⟨u, hfirst, hrest⟩ := Option.bind_eq_some_iff.mp h
    obtain ⟨event, hstep, hgood⟩ := each s command u List.mem_cons_self start hfirst
    obtain ⟨events, run, hlast⟩ :=
      ih (fun s command t hmem => each s command t (List.mem_cons_of_mem _ hmem)) hgood hrest
    exact ⟨event :: events, (single hstep).append run, hlast⟩

/-- Events that a partial function follows are those of a run. -/
theorem of_foldlM {f : σ → ε → Option σ} (each : ∀ s event t, f s event = some t → step s event t)
    (h : events.foldlM f s = some t) : Execution step s events t := by
  induction events generalizing s with
  | nil =>
    cases h
    exact .start
  | cons event rest ih =>
    obtain ⟨u, hfirst, hrest⟩ := Option.bind_eq_some_iff.mp h
    exact (single (each s event u hfirst)).append (ih hrest)

end Execution

end Transition
