import Mosaic.Control.Fallible
import Mathlib.Data.Rat.Defs
import Mathlib.Data.List.Nodup

/-!
# Outputs of a request

A request has one completion for each of its samples. An output lists what is new of some of the
completions, or all of them so far. Two outputs of one request are merged by the index of the
completion: deltas are appended, cumulative outputs are replaced.
-/

namespace Frontend

open List Fallible

/-- How the outputs of a request are put out. -/
inductive RequestOutputKind where
  | cumulative
  | delta
  | finalOnly
  deriving DecidableEq, Repr

/-- The exceptions of the front end. -/
inductive Fault where
  | assertionError
  | valueError
  | keyError
  deriving DecidableEq, Repr

/-- One completion of a request. The entries of the log probabilities are of type `ρ`. -/
structure CompletionOutput (ρ : Type) where
  index : ℕ
  text : String
  tokenIds : List ℤ
  cumulativeLogprob : Option ℚ
  logprobs : Option (List ρ)
  finishReason : Option String
  stopReason : Option (ℤ ⊕ String)
  deriving DecidableEq

/-- The completions of a request that an output reports. The parameters for a transfer of the
cache are of type `κ`. -/
structure RequestOutput (ρ κ : Type) where
  outputs : List (CompletionOutput ρ)
  finished : Bool
  kvTransferParams : Option κ
  deriving DecidableEq

variable {ρ κ α : Type}

namespace CompletionOutput

/-- Append log probabilities. If there are any, then the completion has to have a list of them. -/
def extendLogprobs : Option (List ρ) → Option (List ρ) → Except Fault (Option (List ρ))
  | own, none | own, some [] => .ok own
  | none, some (_ :: _) => .error .assertionError
  | some own, some (first :: rest) => .ok (some (own ++ first :: rest))

/-- Append a delta. -/
def merge (c next : CompletionOutput ρ) : Except Fault (CompletionOutput ρ) := do
  let logprobs ← extendLogprobs c.logprobs next.logprobs
  return { c with
    text := c.text ++ next.text
    tokenIds := c.tokenIds ++ next.tokenIds
    logprobs
    cumulativeLogprob := next.cumulativeLogprob
    finishReason := next.finishReason
    stopReason := next.stopReason }

/-- The log probabilities as a list. -/
def logprobList (c : CompletionOutput ρ) : List ρ := c.logprobs.getD []

/-- Log probabilities are there iff they were asked for. -/
def Answers (asked : ℕ → Bool) (c : CompletionOutput ρ) : Prop :=
  c.logprobs.isSome = asked c.index

variable {asked : ℕ → Bool} {c next m : CompletionOutput ρ}

/-- What a merge of two completions keeps, and what it appends. -/
structure Merged (c next m : CompletionOutput ρ) : Prop where
  index : m.index = c.index
  text : m.text = c.text ++ next.text
  tokenIds : m.tokenIds = c.tokenIds ++ next.tokenIds
  logprobs : m.logprobList = c.logprobList ++ next.logprobList
  isSome : m.logprobs.isSome = c.logprobs.isSome

theorem extendLogprobs_eq_ok {own more l : Option (List ρ)} (h : extendLogprobs own more = .ok l) :
    l.getD [] = own.getD [] ++ more.getD [] ∧ l.isSome = own.isSome := by
  match own, more with
  | own, none =>
    cases h
    simp
  | own, some [] =>
    cases h
    simp
  | none, some (_ :: _) => cases h
  | some own, some (first :: rest) =>
    cases h
    simp

theorem merge_eq_ok (h : c.merge next = .ok m) : Merged c next m := by
  obtain ⟨_, hlogprobs, h⟩ := bind_eq_ok.mp h
  cases h
  obtain ⟨hlist, hsome⟩ := extendLogprobs_eq_ok hlogprobs
  exact ⟨rfl, rfl, rfl, hlist, hsome⟩

/-- Completions with the same index can be merged. -/
theorem merge_isOk (hc : c.Answers asked) (hnext : next.Answers asked)
    (hidx : c.index = next.index) : ∃ m, c.merge next = .ok m := by
  have hsome : c.logprobs.isSome = next.logprobs.isSome := by rw [hc, hnext, hidx]
  obtain ⟨logprobs, hlogprobs⟩ : ∃ l, extendLogprobs c.logprobs next.logprobs = .ok l := by
    match hown : c.logprobs, hmore : next.logprobs with
    | own, none => exact ⟨own, by cases own <;> rfl⟩
    | own, some [] => exact ⟨own, by cases own <;> rfl⟩
    | none, some (_ :: _) => simp [hown, hmore] at hsome
    | some own, some (first :: rest) => exact ⟨_, rfl⟩
  exact ⟨_, bind_eq_ok.mpr ⟨logprobs, hlogprobs, rfl⟩⟩

end CompletionOutput

/-- Put a completion into the outputs: it is merged into the first one with its index, or takes
its place, or is appended. -/
def addCompletion (aggregate : Bool) (next : CompletionOutput ρ) :
    List (CompletionOutput ρ) → Except Fault (List (CompletionOutput ρ))
  | [] => .ok [next]
  | c :: rest =>
    if c.index = next.index then
      if aggregate then do
        let merged ← c.merge next
        return merged :: rest
      else
        return next :: rest
    else do
      let added ← addCompletion aggregate next rest
      return c :: added

namespace RequestOutput

/-- Merge a later output into this one. -/
def add (o next : RequestOutput ρ κ) (aggregate : Bool) : Except Fault (RequestOutput ρ κ) := do
  let outputs ← next.outputs.foldlM (fun outputs c => addCompletion aggregate c outputs) o.outputs
  return { outputs
           finished := o.finished || next.finished
           kvTransferParams := next.kvTransferParams }

end RequestOutput

/-! ### Completions of one index -/

/-- What `f` reads from the completions with index `i`, in order. -/
def collect (f : CompletionOutput ρ → List α) (i : ℕ) (l : List (CompletionOutput ρ)) : List α :=
  (l.filter fun c => c.index = i).flatMap f

section

variable (f : CompletionOutput ρ → List α)
include f

@[simp] theorem collect_nil (i : ℕ) : collect f i [] = [] := rfl

theorem collect_cons (i : ℕ) (c : CompletionOutput ρ) (l : List (CompletionOutput ρ)) :
    collect f i (c :: l) = (if c.index = i then f c else []) ++ collect f i l := by
  unfold collect
  by_cases h : c.index = i <;> simp [h]

theorem collect_append (i : ℕ) (l l' : List (CompletionOutput ρ)) :
    collect f i (l ++ l') = collect f i l ++ collect f i l' := by
  simp [collect]

theorem collect_eq_nil {i : ℕ} {l : List (CompletionOutput ρ)}
    (h : i ∉ l.map CompletionOutput.index) : collect f i l = [] := by
  induction l with
  | nil => rfl
  | cons c rest ih =>
    rw [map_cons, mem_cons, not_or] at h
    rw [collect_cons, if_neg (Ne.symm h.1), ih h.2, nil_append]

end

/-- A reading of completions that a merge appends. -/
def Additive (f : CompletionOutput ρ → List α) : Prop :=
  ∀ ⦃c next m⦄, CompletionOutput.Merged c next m → f m = f c ++ f next

theorem additive_text : Additive fun c : CompletionOutput ρ => c.text.toList :=
  fun c next m h => by
    dsimp only
    rw [h.text, String.toList_append]

theorem additive_tokenIds : Additive (@CompletionOutput.tokenIds ρ) :=
  fun _ _ _ h => h.tokenIds

theorem additive_logprobList : Additive (@CompletionOutput.logprobList ρ) :=
  fun _ _ _ h => h.logprobs

/-- The completions of an output: one for each index, with log probabilities if they were asked
for. -/
structure Listed (asked : ℕ → Bool) (l : List (CompletionOutput ρ)) : Prop where
  nodup : (l.map CompletionOutput.index).Nodup
  answers : ∀ c ∈ l, c.Answers asked

variable {asked : ℕ → Bool} {l l' : List (CompletionOutput ρ)} {c next : CompletionOutput ρ}

theorem Listed.tail (h : Listed asked (c :: l)) : Listed asked l where
  nodup := (nodup_cons.mp h.nodup).2
  answers d hd := h.answers d (mem_cons_of_mem _ hd)

/-- A completion that is put in is appended to what is there of its index. -/
theorem addCompletion_spec (hl : Listed asked l) (hnext : next.Answers asked) :
    ∃ l', addCompletion true next l = .ok l' ∧ Listed asked l' ∧
      (∀ i, i ∈ l'.map CompletionOutput.index ↔
        i ∈ l.map CompletionOutput.index ∨ i = next.index) ∧
      ∀ {α : Type} (f : CompletionOutput ρ → List α), Additive f → ∀ i,
        collect f i l' = collect f i l ++ collect f i [next] := by
  induction l with
  | nil =>
    refine ⟨[next], rfl, ⟨by simp, by simpa using hnext⟩, by simp, fun f _ i => ?_⟩
    rw [collect_nil, nil_append]
  | cons c rest ih =>
    have hnotMem := (nodup_cons.mp hl.nodup).1
    by_cases hidx : c.index = next.index
    · -- merged into the first one; no other completion has this index
      obtain ⟨m, hm⟩ := CompletionOutput.merge_isOk (hl.answers c mem_cons_self) hnext hidx
      have hmerged := CompletionOutput.merge_eq_ok hm
      refine ⟨m :: rest, ?_, ⟨?_, ?_⟩, fun i => ?_, fun f hf i => ?_⟩
      · rw [addCompletion, if_pos hidx, if_pos rfl, hm]
        rfl
      · rw [map_cons, hmerged.index]
        exact hl.nodup
      · rw [forall_mem_cons]
        refine ⟨?_, hl.tail.answers⟩
        unfold CompletionOutput.Answers
        rw [hmerged.isSome, hmerged.index]
        exact hl.answers c mem_cons_self
      · simp only [map_cons, mem_cons, hmerged.index, hidx]
        tauto
      · rw [collect_cons, collect_cons, collect_cons, collect_nil, hmerged.index]
        by_cases hi : c.index = i
        · subst hi
          rw [if_pos rfl, if_pos hidx.symm, if_pos rfl, collect_eq_nil f hnotMem, hf hmerged,
            append_nil, append_nil, append_nil]
        · rw [if_neg hi, if_neg hi, if_neg fun h => hi (hidx.trans h), append_nil, append_nil]
    · obtain ⟨l', hl', hlisted, hmem, hcollect⟩ := ih hl.tail
      refine ⟨c :: l', ?_, ⟨?_, ?_⟩, fun i => ?_, fun f hf i => ?_⟩
      · rw [addCompletion, if_neg hidx, hl']
        rfl
      · rw [map_cons, nodup_cons, hmem]
        exact ⟨not_or.mpr ⟨hnotMem, hidx⟩, hlisted.nodup⟩
      · exact forall_mem_cons.mpr ⟨hl.answers c mem_cons_self, hlisted.answers⟩
      · rw [map_cons, mem_cons, hmem, map_cons, mem_cons, or_assoc]
      · rw [collect_cons, collect_cons _ _ c rest, hcollect f hf, append_assoc]

/-- Completions that are put in one after the other are appended in their order. -/
theorem addCompletions_spec (hl : Listed asked l) (hnext : ∀ c ∈ l', c.Answers asked) :
    ∃ merged, l'.foldlM (fun outputs c => addCompletion true c outputs) l = .ok merged ∧
      Listed asked merged ∧
      ∀ {α : Type} (f : CompletionOutput ρ → List α), Additive f → ∀ i,
        collect f i merged = collect f i l ++ collect f i l' := by
  induction l' generalizing l with
  | nil => exact ⟨l, rfl, hl, fun f _ i => by rw [collect_nil, append_nil]⟩
  | cons c rest ih =>
    obtain ⟨hc, hrest⟩ := forall_mem_cons.mp hnext
    obtain ⟨first, hfirst, hlisted, -, hcollect⟩ := addCompletion_spec hl hc
    obtain ⟨merged, hmerged, hlisted', hcollect'⟩ := ih hlisted hrest
    refine ⟨merged, foldlM_cons_eq_ok.mpr ⟨first, hfirst, hmerged⟩, hlisted', ?_⟩
    intro α f hf i
    rw [hcollect' f hf, hcollect f hf, append_assoc, ← collect_append, singleton_append]

/-! ### Merges of outputs -/

namespace RequestOutput

/-- The completions with index `i` in a sequence of outputs, read by `f`. -/
def stream (f : CompletionOutput ρ → List α) (i : ℕ) (os : List (RequestOutput ρ κ)) : List α :=
  os.flatMap fun o => collect f i o.outputs

theorem stream_append (f : CompletionOutput ρ → List α) (i : ℕ)
    (os os' : List (RequestOutput ρ κ)) :
    stream f i (os ++ os') = stream f i os ++ stream f i os' :=
  flatMap_append

/-- The texts of the completion with index `i`, put together. -/
def textOf (i : ℕ) (os : List (RequestOutput ρ κ)) : String :=
  String.join (stream (fun c => [c.text]) i os)

def tokenIdsOf (i : ℕ) (os : List (RequestOutput ρ κ)) : List ℤ :=
  stream CompletionOutput.tokenIds i os

def logprobsOf (i : ℕ) (os : List (RequestOutput ρ κ)) : List ρ :=
  stream CompletionOutput.logprobList i os

theorem toList_textOf (i : ℕ) (os : List (RequestOutput ρ κ)) :
    (textOf i os).toList = stream (fun c => c.text.toList) i os := by
  unfold textOf stream collect
  rw [String.toList_join]
  simp only [flatMap_assoc, flatMap_singleton]

/-- An output in delta mode of a request: one completion for each index, and log probabilities iff
the request asks for them. -/
def Fits (asked : ℕ → Bool) (o : RequestOutput ρ κ) : Prop :=
  Listed asked o.outputs

/-- The output `o` is what becomes of a group of outputs: it lacks nothing of any completion, and
is finished iff one of them is. -/
structure Merges (group : List (RequestOutput ρ κ)) (o : RequestOutput ρ κ) : Prop where
  nonempty : group ≠ []
  finished : o.finished = true ↔ ∃ x ∈ group, x.finished = true
  stream : ∀ {α : Type} (f : CompletionOutput ρ → List α), Additive f → ∀ i,
    stream f i [o] = stream f i group

variable {o next : RequestOutput ρ κ} {group : List (RequestOutput ρ κ)}

theorem merges_singleton (o : RequestOutput ρ κ) : Merges [o] o where
  nonempty := cons_ne_nil _ _
  finished := by simp
  stream _ _ _ := rfl

/-- Outputs that fit are merged without an error. -/
theorem add_fits (ho : o.Fits asked) (hnext : next.Fits asked) :
    ∃ merged, o.add next true = .ok merged ∧ merged.Fits asked := by
  obtain ⟨outputs, houts, hlisted, -⟩ := addCompletions_spec ho hnext.answers
  exact ⟨_, bind_eq_ok.mpr ⟨outputs, houts, rfl⟩, hlisted⟩

/-- A later output that is merged in extends the group. -/
theorem Merges.add {merged : RequestOutput ρ κ} (h : Merges group o) (ho : o.Fits asked)
    (hnext : next.Fits asked) (hok : o.add next true = .ok merged) :
    Merges (group ++ [next]) merged := by
  obtain ⟨outputs, houts, -, hcollect⟩ := addCompletions_spec ho hnext.answers
  obtain ⟨outputs', houts', hok⟩ := bind_eq_ok.mp hok
  obtain rfl : outputs = outputs' := Except.ok.inj (houts.symm.trans houts')
  cases hok
  constructor
  · simp
  · simp only [Bool.or_eq_true, h.finished, mem_append, mem_singleton]
    constructor
    · rintro (⟨x, hx, hfin⟩ | hfin)
      · exact ⟨x, .inl hx, hfin⟩
      · exact ⟨next, .inr rfl, hfin⟩
    · rintro ⟨x, hx | rfl, hfin⟩
      · exact .inl ⟨x, hx, hfin⟩
      · exact .inr hfin
  · intro α f hf i
    rw [stream_append, ← h.stream f hf]
    simp only [RequestOutput.stream, flatMap_cons, flatMap_nil, append_nil, hcollect f hf]

end RequestOutput

end Frontend
