import Mosaic.Control.Fallible
import Mosaic.Frontend.Outputs
import Mathlib.Data.Finset.Erase
import Mathlib.Data.Finset.Lattice.Lemmas

/-!
# Processing of sampling parameters

Before a request is sent to the engine, a clone of its parameters is completed: the number of
tokens is bounded by the length of the model, the end markers of the model become stop tokens,
the bad words are encoded, and the lengths of the prompt and of the output are filled in. The
caller's own parameters stay as they were.
-/

namespace Frontend

open Finset

/-- The exceptions on the way of a request through the front end. -/
inductive RequestFault where
  | valueError
  | keyError
  | indexError
  deriving DecidableEq, Repr

/-- The parameters of a request. The fields that neither the processing nor a fan out touches are
of type `π`. -/
structure SamplingParams (π : Type) where
  n : ℕ
  seed : Option ℤ
  outputKind : RequestOutputKind
  maxTokens : Option ℤ
  stopTokenIds : Finset ℤ
  ignoreEos : Bool
  allStopTokenIds : Finset ℤ
  badWords : List String
  badWordsTokenIds : Option (List (List ℤ))
  genLength : ℤ
  outputLength : Option ℤ
  promptLength : Option ℤ
  rest : π
  deriving DecidableEq

attribute [ext] SamplingParams

structure Tokenizer where
  encode : String → List ℤ
  maxTokenId : ℤ

/-- What the processing knows of the model: its length, the end markers of its generation config,
and its own end marker. -/
structure Processor where
  maxModelLen : ℤ
  generationEosTokenIds : Option (Finset ℤ)
  eosTokenId : Option ℤ
  tokenizer : Option Tokenizer

variable {π : Type}

/-- White space in the sense of `str.isspace`. -/
def isSpace (c : Char) : Bool :=
  (0x9 ≤ c.toNat && c.toNat ≤ 0xd) || (0x1c ≤ c.toNat && c.toNat ≤ 0x20) ||
  (0x2000 ≤ c.toNat && c.toNat ≤ 0x200a) ||
  [0x85, 0xa0, 0x1680, 0x2028, 0x2029, 0x202f, 0x205f, 0x3000].contains c.toNat

def lstrip (s : String) : String := String.ofList (s.toList.dropWhile isSpace)

namespace Tokenizer

/-- The encoding with a space in front counts only if it starts with another token than the one
without and is as long. -/
def addPrefixed (plain spaced : List ℤ) (encodings : List (List ℤ)) :
    Except RequestFault (List (List ℤ)) :=
  match spaced, plain with
  | s :: _, p :: _ =>
    if s ≠ p ∧ spaced.length = plain.length then .ok (encodings ++ [spaced]) else .ok encodings
  | _, _ => .error .indexError

/-- The encodings of the bad words, at the beginning and in the middle of a text. -/
def encodeBadWords (t : Tokenizer) (badWords : List String) :
    Except RequestFault (List (List ℤ)) :=
  badWords.foldlM (fun encodings badWord =>
    let plain := t.encode (lstrip badWord)
    addPrefixed plain (t.encode (" " ++ lstrip badWord)) (encodings ++ [plain])) []

end Tokenizer

namespace SamplingParams

/-- Add the end markers of the generation config. The model's own one is handled separately. -/
def updateFromGenerationConfig (p : SamplingParams π) (generationEosTokenIds : Option (Finset ℤ))
    (modelEosTokenId : Option ℤ) : SamplingParams π :=
  let p := match modelEosTokenId with
    | none => p
    | some id => { p with allStopTokenIds := insert id p.allStopTokenIds }
  match generationEosTokenIds with
  | none => p
  | some eosIds =>
    let eosIds := match modelEosTokenId with
      | none => eosIds
      | some id => eosIds.erase id
    { p with
      allStopTokenIds := p.allStopTokenIds ∪ eosIds
      stopTokenIds := if p.ignoreEos then p.stopTokenIds else eosIds ∪ p.stopTokenIds }

def updateFromTokenizer (p : SamplingParams π) (t : Tokenizer) :
    Except RequestFault (SamplingParams π) :=
  if p.badWords = [] then .ok p
  else do
    let encodings ← t.encodeBadWords p.badWords
    if encodings.flatten.all fun id => 0 ≤ id && id ≤ t.maxTokenId then
      return { p with badWordsTokenIds := some encodings }
    else
      throw .valueError

end SamplingParams

namespace Processor

/-- Encode the bad words if there is a tokenizer. -/
def encodeBadWords (proc : Processor) (p : SamplingParams π) :
    Except RequestFault (SamplingParams π) :=
  match proc.tokenizer with
  | none => .ok p
  | some t => p.updateFromTokenizer t

/-- The completed clone of the parameters of a request. -/
def processParams (proc : Processor) (promptTokenIds : List ℤ) (params : SamplingParams π) :
    Except RequestFault (SamplingParams π) := do
  let p := { params with
    maxTokens := some (params.maxTokens.getD (proc.maxModelLen - promptTokenIds.length)) }
  let p := p.updateFromGenerationConfig proc.generationEosTokenIds proc.eosTokenId
  let p ← proc.encodeBadWords p
  return { p with
    promptLength := some promptTokenIds.length
    outputLength := some (p.outputLength.getD p.genLength) }

/-- Parameters in which nothing is left to complete. -/
structure Settled (proc : Processor) (promptTokenIds : List ℤ) (p : SamplingParams π) : Prop where
  maxTokens : p.maxTokens.isSome
  promptLength : p.promptLength = some promptTokenIds.length
  outputLength : p.outputLength.isSome
  modelEos : ∀ id, proc.eosTokenId = some id → id ∈ p.allStopTokenIds
  generationEos : ∀ eosIds, proc.generationEosTokenIds = some eosIds → ∀ id ∈ eosIds,
    proc.eosTokenId ≠ some id →
      id ∈ p.allStopTokenIds ∧ (p.ignoreEos = false → id ∈ p.stopTokenIds)
  badWords : ∀ t, proc.tokenizer = some t → p.badWords ≠ [] →
    ∀ encodings, t.encodeBadWords p.badWords = .ok encodings →
      p.badWordsTokenIds = some encodings

variable {proc : Processor} {promptTokenIds : List ℤ} {p q : SamplingParams π}

/-- The end markers of the generation config that are added to the stop tokens. -/
def addedEos (proc : Processor) : Finset ℤ :=
  match proc.generationEosTokenIds, proc.eosTokenId with
  | none, _ => ∅
  | some eosIds, none => eosIds
  | some eosIds, some id => eosIds.erase id

theorem mem_addedEos {id : ℤ} : id ∈ proc.addedEos ↔
    (∃ eosIds, proc.generationEosTokenIds = some eosIds ∧ id ∈ eosIds) ∧
      proc.eosTokenId ≠ some id := by
  unfold addedEos
  cases proc.generationEosTokenIds <;> cases proc.eosTokenId <;>
    simp [mem_erase, and_comm, eq_comm]

theorem updateFromGenerationConfig_eq (p : SamplingParams π) :
    p.updateFromGenerationConfig proc.generationEosTokenIds proc.eosTokenId =
      { p with
        allStopTokenIds := proc.eosTokenId.elim ∅ singleton ∪ p.allStopTokenIds ∪ proc.addedEos
        stopTokenIds := if p.ignoreEos then p.stopTokenIds
          else proc.addedEos ∪ p.stopTokenIds } := by
  unfold SamplingParams.updateFromGenerationConfig addedEos
  cases proc.generationEosTokenIds <;> cases proc.eosTokenId <;>
    simp

theorem some_getD_eq {α : Type} {o : Option α} {a : α} (h : o.isSome) : some (o.getD a) = o := by
  cases o with
  | none => cases h
  | some b => rfl

/-- What the completed clone has in each field. -/
structure Completes (proc : Processor) (promptTokenIds : List ℤ) (p q : SamplingParams π) :
    Prop where
  n : q.n = p.n
  seed : q.seed = p.seed
  outputKind : q.outputKind = p.outputKind
  maxTokens : q.maxTokens = some (p.maxTokens.getD (proc.maxModelLen - promptTokenIds.length))
  stopTokenIds : q.stopTokenIds =
    if p.ignoreEos then p.stopTokenIds else proc.addedEos ∪ p.stopTokenIds
  ignoreEos : q.ignoreEos = p.ignoreEos
  allStopTokenIds : q.allStopTokenIds =
    proc.eosTokenId.elim ∅ singleton ∪ p.allStopTokenIds ∪ proc.addedEos
  badWords : q.badWords = p.badWords
  encoded : ∀ t, proc.tokenizer = some t → p.badWords ≠ [] →
    ∃ encodings, t.encodeBadWords p.badWords = .ok encodings ∧
      q.badWordsTokenIds = some encodings
  unencoded : proc.tokenizer = none ∨ p.badWords = [] → q.badWordsTokenIds = p.badWordsTokenIds
  genLength : q.genLength = p.genLength
  outputLength : q.outputLength = some (p.outputLength.getD p.genLength)
  promptLength : q.promptLength = some promptTokenIds.length
  rest : q.rest = p.rest

theorem updateFromTokenizer_eq_ok {t : Tokenizer} (h : p.updateFromTokenizer t = .ok q) :
    q = { p with badWordsTokenIds := q.badWordsTokenIds } ∧
    (p.badWords ≠ [] → ∃ encodings, t.encodeBadWords p.badWords = .ok encodings ∧
      q.badWordsTokenIds = some encodings) ∧
    (p.badWords = [] → q.badWordsTokenIds = p.badWordsTokenIds) := by
  unfold SamplingParams.updateFromTokenizer at h
  split at h
  · rename_i hnil
    cases h
    exact ⟨rfl, fun hne => absurd hnil hne, fun _ => rfl⟩
  · rename_i hne
    obtain ⟨encodings, hencodings, h⟩ := Fallible.bind_eq_ok.mp h
    split at h
    · cases h
      exact ⟨rfl, fun _ => ⟨encodings, hencodings, rfl⟩, fun hnil => absurd hnil hne⟩
    · cases h

theorem processParams_completes (h : proc.processParams promptTokenIds p = .ok q) :
    Completes proc promptTokenIds p q := by
  unfold processParams at h
  dsimp only at h
  rw [updateFromGenerationConfig_eq] at h
  obtain ⟨_, hencoded, h⟩ := Fallible.bind_eq_ok.mp h
  cases h
  unfold encodeBadWords at hencoded
  split at hencoded
  · rename_i hnone
    cases hencoded
    constructor <;> first | rfl | skip
    · intro t ht
      cases hnone.symm.trans ht
    · exact fun _ => rfl
  · rename_i t ht
    obtain ⟨heq, hsome, hnil⟩ := updateFromTokenizer_eq_ok hencoded
    rw [heq]
    constructor <;> first | rfl | skip
    · intro t' ht' hne
      cases ht.symm.trans ht'
      exact hsome hne
    · rintro (hnone | hempty)
      · cases hnone.symm.trans ht
      · exact hnil hempty

/-- The completed clone equals the caller's parameters iff they are settled. -/
theorem processParams_eq_self_iff (h : proc.processParams promptTokenIds p = .ok q) :
    q = p ↔ proc.Settled promptTokenIds p := by
  have hq := processParams_completes h
  constructor
  · intro heq
    -- Unchanged by the completion: every field already holds what would be written to it.
    subst heq
    have hall : proc.eosTokenId.elim ∅ singleton ∪ q.allStopTokenIds ∪ proc.addedEos ⊆
        q.allStopTokenIds := hq.allStopTokenIds.symm.subset
    refine ⟨?_, hq.promptLength, ?_, fun id hid => ?_, fun eosIds heos id hid hne => ⟨?_, ?_⟩, ?_⟩
    · rw [hq.maxTokens]
      rfl
    · rw [hq.outputLength]
      rfl
    · apply hall
      rw [hid]
      simp
    · exact hall (mem_union_right _ (mem_addedEos.mpr ⟨⟨eosIds, heos, hid⟩, hne⟩))
    · intro hignore
      have hstop := hq.stopTokenIds
      rw [hignore, if_neg Bool.false_ne_true] at hstop
      rw [hstop]
      exact mem_union_left _ (mem_addedEos.mpr ⟨⟨eosIds, heos, hid⟩, hne⟩)
    · intro t ht hne encodings hencodings
      obtain ⟨_, hencodings', heq⟩ := hq.encoded t ht hne
      rw [heq, Except.ok.inj (hencodings.symm.trans hencodings')]
  · intro hs
    -- Settled: the stop tokens that would be added are there.
    have hadded : ∀ id ∈ proc.addedEos,
        id ∈ p.allStopTokenIds ∧ (p.ignoreEos = false → id ∈ p.stopTokenIds) := by
      intro id hid
      obtain ⟨⟨eosIds, heos, hmem⟩, hne⟩ := mem_addedEos.mp hid
      exact hs.generationEos eosIds heos id hmem hne
    apply SamplingParams.ext hq.n hq.seed hq.outputKind
    · rw [hq.maxTokens]
      exact some_getD_eq hs.maxTokens
    · rw [hq.stopTokenIds]
      split
      · rfl
      · rename_i hignore
        exact union_eq_right.mpr fun id hid =>
          (hadded id hid).2 (Bool.eq_false_of_not_eq_true hignore)
    · exact hq.ignoreEos
    · rw [hq.allStopTokenIds, union_eq_left.mpr fun id hid =>
        mem_union_right _ (hadded id hid).1]
      refine union_eq_right.mpr fun id hid => ?_
      cases heos : proc.eosTokenId with
      | none => simp [heos] at hid
      | some eos =>
        obtain rfl : id = eos := by simpa [heos] using hid
        exact hs.modelEos id heos
    · exact hq.badWords
    · by_cases hcase : proc.tokenizer = none ∨ p.badWords = []
      · exact hq.unencoded hcase
      · obtain ⟨htok, hne⟩ := not_or.mp hcase
        obtain ⟨t, ht⟩ := Option.ne_none_iff_exists'.mp htok
        obtain ⟨encodings, hencodings, heq⟩ := hq.encoded t ht hne
        rw [heq, hs.badWords t ht hne encodings hencodings]
    · exact hq.genLength
    · rw [hq.outputLength]
      exact some_getD_eq hs.outputLength
    · rw [hq.promptLength, hs.promptLength]
    · exact hq.rest

end Processor

end Frontend
