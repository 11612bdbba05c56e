import Mathlib.Data.List.Sort
import Mathlib.Data.Rat.Defs
import Mosaic.Control.Fallible

/-!
# Recording the changes of a persistent batch

`BatchUpdateBuilder` of `v1/sample/logits_processor.py`. While the batch of one step is formed it
collects which requests were removed from, added to and moved within the batch. The removed
indices double as the list of empty slots: they are sorted once, on their first reading, and
from then on the lowest one is taken from the end of the list.
-/

namespace Batch

open List

/-- The exceptions of the batch code. -/
inductive Fault where
  | assertionError
  | runtimeError
  | indexError
  | keyError
  | valueError
  | notImplementedError
  deriving DecidableEq, Repr

abbrev ReqId := ℕ

/-- The identity of a list of output tokens. The batch stores the list object itself, not a
copy of what it holds. -/
abbrev OutputRef := ℕ

/-- The sampling parameters that the batch and its logits processors read. -/
structure SamplingParams where
  temperature : ℚ := 1
  topP : ℚ := 1
  topK : ℤ := 0
  minP : ℚ := 0
  frequencyPenalty : ℚ := 0
  presencePenalty : ℚ := 0
  repetitionPenalty : ℚ := 1
  logprobs : Option ℤ := none
  promptLogprobs : Option ℤ := none
  allowedTokenIds : List ℕ := []
  badWordsTokenIds : List (List ℕ) := []
  logitBias : List (ℕ × ℚ) := []
  minTokens : ℕ := 0
  allStopTokenIds : List ℕ := []
  deriving DecidableEq, Repr

structure PoolingParams where
  requiresTokenIds : Bool := false
  deriving DecidableEq, Repr

/-- `Union[SamplingParams, PoolingParams]`. -/
inductive Params where
  | sampling (params : SamplingParams)
  | pooling (params : PoolingParams)
  deriving DecidableEq, Repr

inductive MoveDirectionality where
  | unidirectional
  | swap
  deriving DecidableEq, Repr

structure AddedRequest where
  index : ℕ
  params : Option Params
  outputTokIds : OutputRef
  deriving DecidableEq, Repr

structure MovedRequest where
  source : ℕ
  target : ℕ
  direction : MoveDirectionality
  deriving DecidableEq, Repr

/-- Persistent batch state change info for logits processors. -/
structure BatchUpdate where
  batchSize : ℕ
  removed : List ℕ
  moved : List MovedRequest
  added : List AddedRequest
  deriving DecidableEq, Repr

structure BatchUpdateBuilder where
  removedList : List ℕ := []
  isRemovedSorted : Bool := false
  moved : List MovedRequest := []
  added : List AddedRequest := []
  deriving DecidableEq, Repr

namespace BatchUpdateBuilder

/-- `_ensure_removed_sorted`: descending, the first time it is asked for in a step. -/
def ensureRemovedSorted (b : BatchUpdateBuilder) : BatchUpdateBuilder :=
  if b.isRemovedSorted then b
  else
    { b with
      removedList := b.removedList.insertionSort (· ≥ ·)
      isRemovedSorted := true }

/-- The property `removed`: reading it sorts. -/
def removed (b : BatchUpdateBuilder) : List ℕ × BatchUpdateBuilder :=
  (b.ensureRemovedSorted.removedList, b.ensureRemovedSorted)

def removedAppend (b : BatchUpdateBuilder) (index : ℕ) : Except Fault BatchUpdateBuilder :=
  if b.isRemovedSorted then .error .runtimeError
  else .ok { b with removedList := b.removedList ++ [index] }

def hasRemoved (b : BatchUpdateBuilder) : Bool := !b.removedList.isEmpty

def peekRemoved (b : BatchUpdateBuilder) : Option ℕ × BatchUpdateBuilder :=
  if b.hasRemoved then
    (b.ensureRemovedSorted.removedList.getLast?, b.ensureRemovedSorted)
  else (none, b)

def popRemoved (b : BatchUpdateBuilder) : Option ℕ × BatchUpdateBuilder :=
  if b.hasRemoved then
    (b.ensureRemovedSorted.removedList.getLast?,
      { b.ensureRemovedSorted with
        removedList := b.ensureRemovedSorted.removedList.dropLast })
  else (none, b)

def getAndReset (b : BatchUpdateBuilder) (batchSize : ℕ) :
    Option BatchUpdate × BatchUpdateBuilder :=
  if b.removedList.isEmpty && b.moved.isEmpty && b.added.isEmpty then
    (none, { b with isRemovedSorted := false })
  else
    (some { batchSize, removed := b.removedList, moved := b.moved, added := b.added },
      { removedList := [], isRemovedSorted := false, moved := [], added := [] })

theorem getAndReset_snd (b : BatchUpdateBuilder) (batchSize : ℕ) :
    (b.getAndReset batchSize).2 = {} := by
  unfold getAndReset
  split
  · rename_i hempty
    simp only [Bool.and_eq_true, List.isEmpty_iff] at hempty
    obtain ⟨⟨hremoved, hmoved⟩, hadded⟩ := hempty
    simp [hremoved, hmoved, hadded]
  · rfl

/-! ### The removed indices -/

/-- The removed indices are distinct, and descending once they have been read. -/
structure Sorted (b : BatchUpdateBuilder) : Prop where
  nodup : b.removedList.Nodup
  descending : b.isRemovedSorted = true → b.removedList.Pairwise (· ≥ ·)

section

variable (b : BatchUpdateBuilder)
include b

theorem ensureRemovedSorted_moved : b.ensureRemovedSorted.moved = b.moved := by
  unfold ensureRemovedSorted
  split <;> rfl

theorem ensureRemovedSorted_added : b.ensureRemovedSorted.added = b.added := by
  unfold ensureRemovedSorted
  split <;> rfl

theorem ensureRemovedSorted_isRemovedSorted : b.ensureRemovedSorted.isRemovedSorted = true := by
  unfold ensureRemovedSorted
  split
  · assumption
  · rfl

/-- Sorting only reorders the indices. -/
theorem ensureRemovedSorted_perm : b.ensureRemovedSorted.removedList.Perm b.removedList := by
  unfold ensureRemovedSorted
  split
  · exact List.Perm.refl _
  · exact perm_insertionSort _ _

end

theorem Sorted.ensureRemovedSorted {b : BatchUpdateBuilder} (h : b.Sorted) :
    b.ensureRemovedSorted.Sorted := by
  refine ⟨(ensureRemovedSorted_perm b).nodup_iff.mpr h.nodup, fun _ => ?_⟩
  unfold BatchUpdateBuilder.ensureRemovedSorted
  split
  · rename_i hsorted
    exact h.descending hsorted
  · exact pairwise_insertionSort (· ≥ ·) b.removedList

variable {b b' : BatchUpdateBuilder}

theorem Sorted.removedAppend {index : ℕ} (h : b.Sorted)
    (hnew : index ∉ b.removedList) (happend : b.removedAppend index = .ok b') : b'.Sorted := by
  unfold BatchUpdateBuilder.removedAppend at happend
  split at happend
  · cases happend
  · rename_i hunread
    cases happend
    refine ⟨?_, fun hread => absurd hread hunread⟩
    rw [nodup_append]
    refine ⟨h.nodup, nodup_singleton _, ?_⟩
    rintro i hi j hj rfl
    rw [mem_singleton] at hj
    exact hnew (hj ▸ hi)

/-- Before the removed indices are read, another one can be registered. -/
theorem removedAppend_eq_ok {index : ℕ} : b.removedAppend index = .ok b' ↔
      b.isRemovedSorted = false ∧ b' = { b with removedList := b.removedList ++ [index] } := by
  unfold removedAppend
  split
  · simp_all
  · rename_i hunread
    simp [Bool.eq_false_iff.mpr hunread, eq_comm]

/-- Popping takes the lowest removed index and leaves the others. -/
theorem popRemoved_spec {i : ℕ} (h : b.Sorted) (hpop : b.popRemoved = (some i, b')) :
    i ∈ b.removedList ∧ (∀ j ∈ b.removedList, i ≤ j) ∧
      (∀ j, j ∈ b'.removedList ↔ j ∈ b.removedList ∧ j ≠ i) ∧
      b'.removedList.length + 1 = b.removedList.length ∧ b'.Sorted ∧
      b'.isRemovedSorted = true ∧ b'.moved = b.moved ∧ b'.added = b.added := by
  unfold popRemoved at hpop
  split at hpop
  · obtain ⟨hlast, rfl⟩ := Prod.mk.inj hpop
    have hperm := ensureRemovedSorted_perm b
    have hsorted := h.ensureRemovedSorted
    have hread := ensureRemovedSorted_isRemovedSorted b
    -- the list is the remaining indices followed by the one that is taken
    have hsplit : b.ensureRemovedSorted.removedList =
        b.ensureRemovedSorted.removedList.dropLast ++ [i] :=
      (dropLast_append_getLast? i hlast).symm
    have hnodup := hsorted.nodup
    have hdesc := hsorted.descending hread
    rw [hsplit] at hperm hnodup hdesc
    rw [nodup_append] at hnodup
    rw [pairwise_append] at hdesc
    have hmem : ∀ j, j ∈ b.removedList ↔
        j ∈ b.ensureRemovedSorted.removedList.dropLast ∨ j = i := by
      intro j
      rw [← hperm.mem_iff, mem_append, mem_singleton]
    refine ⟨(hmem i).mpr (.inr rfl), ?_, ?_, ?_, ⟨hnodup.1, fun _ => hdesc.1⟩, hread,
      ensureRemovedSorted_moved b, ensureRemovedSorted_added b⟩
    · intro j hj
      rcases (hmem j).mp hj with hj | rfl
      · exact hdesc.2.2 j hj i (mem_singleton_self i)
      · exact le_refl j
    · intro j
      rw [hmem j]
      constructor
      · intro hj
        exact ⟨.inl hj, fun hji => hnodup.2.2 j hj i (mem_singleton_self i) hji⟩
      · rintro ⟨hj | hj, hne⟩
        · exact hj
        · exact absurd hj hne
    · rw [← hperm.length_eq, length_append, length_singleton]
  · cases hpop

/-- Nothing is popped from an empty list, and nothing changes. -/
theorem popRemoved_none (hpop : b.popRemoved = (none, b')) : b.removedList = [] ∧ b' = b := by
  unfold popRemoved at hpop
  split at hpop
  · rename_i hsome
    obtain ⟨hlast, -⟩ := Prod.mk.inj hpop
    have hnil : b.removedList = [] := by
      have := (ensureRemovedSorted_perm b).length_eq
      rw [getLast?_eq_none_iff.mp hlast] at this
      exact length_eq_zero_iff.mp this.symm
    simp [hasRemoved, hnil] at hsome
  · rename_i hnone
    obtain ⟨-, rfl⟩ := Prod.mk.inj hpop
    refine ⟨?_, rfl⟩
    simpa [hasRemoved] using hnone

end BatchUpdateBuilder

end Batch
