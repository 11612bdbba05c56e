import Mathlib.Algebra.Order.BigOperators.Group.List
import Mathlib.Algebra.Order.Group.Nat
import Mathlib.Data.Int.Order.Basic
import Mosaic.Control.Fallible
import Mosaic.Table.Cells

/-!
# Index arrays of a step with draft tokens

The requests of a step stand behind each other in the input tokens, each with its last sampled token
and its draft tokens at the end of its tokens. The runner computes the positions whose logits are
needed, and among these the ones that judge a draft token and the ones that give a bonus token.
-/

namespace SpecDecode

open List Ragged Fallible

variable {α : Type}

inductive SpecError where
  | indexError
  | valueError
  | assertionError
  deriving DecidableEq, Repr

structure SpecDecodeMetadata where
  draftTokenIds : List ℤ
  numDraftTokens : List ℕ
  cuNumDraftTokens : List ℕ
  targetLogitsIndices : List ℕ
  bonusLogitsIndices : List ℕ
  logitsIndices : List ℤ
  deriving DecidableEq, Repr

/-- The length of the longest draft. -/
def SpecDecodeMetadata.maxSpecLen (metadata : SpecDecodeMetadata) : ℕ :=
  metadata.numDraftTokens.foldr max 0

/-- `arangeSize` is the length of the runner's prepared range. -/
def getCumsumAndArange (arangeSize : ℕ) (numTokens : List ℕ) :
    Except SpecError (List ℕ × List ℕ) := do
  let cuNumTokens := cumsum numTokens
  let totalNumTokens ← match cuNumTokens.getLast? with
    | some total => pure total
    | none => throw .indexError
  let cumsumsOffsets := repeatEach (List.zipWith (· - ·) cuNumTokens numTokens) numTokens
  let arange := (List.range arangeSize).take totalNumTokens
  -- arrays of different lengths are not subtracted
  if arange.length ≠ cumsumsOffsets.length then throw .valueError
  pure (cuNumTokens, List.zipWith (· - ·) arange cumsumsOffsets)

def gather (xs : List α) (indices : List ℤ) : Except SpecError (List α) :=
  orError .indexError (indices.mapM (itemAt xs))

def calcSpecDecodeMetadata (arangeSize : ℕ) (inputIds : List ℤ)
    (numDraftTokens cuNumScheduledTokens : List ℕ) : Except SpecError SpecDecodeMetadata := do
  let numSampledTokens := numDraftTokens.map (· + 1)
  let (cuNumSampledTokens, arange) ← getCumsumAndArange arangeSize numSampledTokens
  let logitsIndices := List.zipWith (fun (x : ℤ) (j : ℕ) => x + j)
    (repeatEach (List.zipWith (fun (cu n : ℕ) => (cu : ℤ) - n) cuNumScheduledTokens
      numSampledTokens) numSampledTokens) arange
  let bonusLogitsIndices := cuNumSampledTokens.map (· - 1)
  let (cuNumDraftTokens, arange) ← getCumsumAndArange arangeSize numDraftTokens
  let targetLogitsIndices := List.zipWith (· + ·)
    (repeatEach (List.zipWith (· - ·) cuNumSampledTokens numSampledTokens) numDraftTokens) arange
  let draftTokenIds ← gather inputIds logitsIndices
  let draftTokenIds ← gather draftTokenIds (targetLogitsIndices.map fun (i : ℕ) => (i : ℤ) + 1)
  pure
    { draftTokenIds, numDraftTokens, cuNumDraftTokens, targetLogitsIndices, bonusLogitsIndices
      logitsIndices }

/-! ### Requests -/

/-- The tokens of one request in a step. The draft tokens are the last of them, behind a token that
is not a draft. -/
structure Scheduled where
  tokens : List ℤ
  numDraft : ℕ
  fits : numDraft < tokens.length

namespace Scheduled

/-- The number of tokens whose logits are not needed. -/
def skipped (r : Scheduled) : ℕ :=
  r.tokens.length - (r.numDraft + 1)

def drafts (r : Scheduled) : List ℤ :=
  r.tokens.drop (r.skipped + 1)

theorem skipped_add (r : Scheduled) : r.skipped + (r.numDraft + 1) = r.tokens.length := by
  have := r.fits
  rw [skipped]
  omega

/-- The number of needed entries, of anything with one entry for each token. -/
theorem length_needed (r : Scheduled) {cells : List α} (h : cells.length = r.tokens.length) :
    (cells.drop r.skipped).length = r.numDraft + 1 := by
  have := r.skipped_add
  rw [length_drop]
  omega

theorem length_drafts (r : Scheduled) : r.drafts.length = r.numDraft := by
  have := r.skipped_add
  rw [drafts, length_drop]
  omega

end Scheduled

/-! ### The arrays -/

theorem getCumsumAndArange_eq_ok {arangeSize : ℕ} {numTokens : List ℕ} (hne : numTokens ≠ [])
    (hsize : numTokens.sum ≤ arangeSize) :
    getCumsumAndArange arangeSize numTokens = .ok (cumsum numTokens, aranges numTokens) := by
  have hlast : (cumsum numTokens).getLast? = some numTokens.sum := by
    rw [cumsum, getLast?_cumsumFrom hne, zero_add]
  have hrange : (List.range arangeSize).take numTokens.sum = List.range' 0 numTokens.sum := by
    rw [take_range, min_eq_left hsize, range_eq_range']
  have hlen : (repeatEach (List.zipWith (· - ·) (cumsum numTokens) numTokens)
      numTokens).length = numTokens.sum := by
    refine length_repeatEach ?_
    rw [length_zipWith, cumsum, length_cumsumFrom, min_self]
  rw [getCumsumAndArange, hlast]
  simp only [pure_bind, hrange, hlen, length_range', ne_eq, not_true, if_false]
  exact congrArg (fun arange => Except.ok (cumsum numTokens, arange))
    (zipWith_range_repeatEach numTokens 0)

theorem gather_eq_ok {xs ys : List α} {indices : List ℕ}
    (h : indices.map (fun i => xs[i]?) = ys.map some) :
    gather xs (indices.map Nat.cast) = .ok ys :=
  orError_eq_ok.mpr (mapM_itemAt_natCast h)

section Arrays

variable {reqs : List Scheduled} {arangeSize : ℕ}

def schedLen (r : Scheduled) : ℕ := r.tokens.length

def numSampled (r : Scheduled) : ℕ := r.numDraft + 1

/-- The positions of a step whose logits are needed. -/
def logitsPositions (reqs : List Scheduled) : List ℕ :=
  placed schedLen (fun s r => (List.range (numSampled r)).map fun j => s + r.skipped + j) 0 reqs

/-- The needed logits that judge a draft token. -/
def targetPositions (reqs : List Scheduled) : List ℕ :=
  placed numSampled (fun s r => (List.range r.numDraft).map fun j => s + j) 0 reqs

/-- The last of the needed logits of each request. -/
def bonusPositions (reqs : List Scheduled) : List ℕ :=
  placed numSampled (fun s r => [s + r.numDraft]) 0 reqs

theorem bonusLogitsIndices_eq (reqs : List Scheduled) :
    (cumsum (reqs.map numSampled)).map (· - 1) = bonusPositions reqs := by
  rw [cumsum, cumsumFrom_eq_placed, map_placed]
  rfl

theorem logitsIndices_eq (reqs : List Scheduled) :
    List.zipWith (fun (x : ℤ) (j : ℕ) => x + j)
        (repeatEach (List.zipWith (fun (cu n : ℕ) => (cu : ℤ) - n) (cumsum (reqs.map schedLen))
          (reqs.map numSampled)) (reqs.map numSampled)) (aranges (reqs.map numSampled)) =
      (logitsPositions reqs).map Nat.cast := by
  rw [cumsum, zipWith_cumsumFrom, zipWith_repeatEach_aranges, logitsPositions, map_placed]
  refine placed_congr fun s r _ => ?_
  rw [map_map]
  refine map_congr_left fun j _ => ?_
  have hlen := r.skipped_add
  simp only [schedLen, numSampled, Function.comp_apply]
  omega

theorem targetLogitsIndices_eq (reqs : List Scheduled) :
    List.zipWith (· + ·)
        (repeatEach (List.zipWith (· - ·) (cumsum (reqs.map numSampled)) (reqs.map numSampled))
          (reqs.map Scheduled.numDraft)) (aranges (reqs.map Scheduled.numDraft)) =
      targetPositions reqs := by
  rw [cumsum, zipWith_cumsumFrom, zipWith_repeatEach_aranges, targetPositions]
  refine placed_congr fun s r _ => ?_
  rw [Nat.add_sub_cancel]

section Reading

variable {ρ : Type} {rs : List ρ} {sched : ρ → Scheduled} {cells : ρ → List α}

/-- The needed entries of anything that has one entry for each scheduled token. -/
theorem gather_logitsPositions (hcells : ∀ r ∈ rs, (cells r).length = schedLen (sched r))
    (after : List α) :
    gather (rs.flatMap cells ++ after) ((logitsPositions (rs.map sched)).map Nat.cast) =
      .ok (rs.flatMap fun r => (cells r).drop (sched r).skipped) := by
  have hfits : ∀ r ∈ rs, (sched r).skipped + numSampled (sched r) ≤ schedLen (sched r) := fun r _ =>
    le_of_eq (sched r).skipped_add
  have hread := map_getElem?_placed (fun r => (sched r).skipped) (fun r => numSampled (sched r))
    hcells hfits [] after
  rw [logitsPositions, placed_map]
  refine gather_eq_ok (hread.trans (congrArg _ (flatMap_congr fun r hr => ?_)))
  have hlen := hcells r hr
  have hsum := (sched r).skipped_add
  refine take_of_length_le ?_
  rw [schedLen] at hlen
  rw [length_drop, numSampled]
  omega

section

variable (hcells : ∀ r ∈ rs, (cells r).length = numSampled (sched r))
include hcells

/-- Of the needed entries, the ones that judge a draft token. -/
theorem gather_targetPositions :
    gather (rs.flatMap cells) ((targetPositions (rs.map sched)).map Nat.cast) =
      .ok (rs.flatMap fun r => (cells r).take (sched r).numDraft) := by
  have hread := map_getElem?_placed (fun _ => 0) (fun r => (sched r).numDraft) hcells
    (fun r _ => by rw [numSampled]; omega) [] []
  rw [append_nil] at hread
  rw [targetPositions, placed_map]
  exact gather_eq_ok hread

/-- Of the needed entries, the ones behind those that judge a draft token. -/
theorem gather_targetPositions_succ : gather (rs.flatMap cells)
        ((targetPositions (rs.map sched)).map fun (i : ℕ) => (i : ℤ) + 1) =
      .ok (rs.flatMap fun r => (cells r).drop 1) := by
  have hread := map_getElem?_placed (fun _ => 1) (fun r => (sched r).numDraft) hcells
    (fun r _ => by rw [numSampled]; omega) [] []
  rw [append_nil] at hread
  have hidxs : ((targetPositions (rs.map sched)).map fun (i : ℕ) => (i : ℤ) + 1) =
      (placed (fun r => numSampled (sched r))
        (fun s r => (List.range (sched r).numDraft).map fun j => s + 1 + j) 0 rs).map Nat.cast := by
    rw [targetPositions, placed_map, map_placed, map_placed]
    refine placed_congr fun s r _ => ?_
    rw [map_map, map_map]
    refine map_congr_left fun j _ => ?_
    simp only [Function.comp_apply]
    omega
  rw [hidxs]
  refine gather_eq_ok (hread.trans (congrArg _ (flatMap_congr fun r hr => ?_)))
  refine take_of_length_le ?_
  rw [length_drop, hcells r hr, numSampled]
  omega

/-- The last of the needed entries of each request. -/
theorem gather_bonusPositions :
    gather (rs.flatMap cells) ((bonusPositions (rs.map sched)).map Nat.cast) =
      .ok (rs.flatMap fun r => (cells r).drop (sched r).numDraft) := by
  have hread := map_getElem?_placed (fun r => (sched r).numDraft) (fun _ => 1) hcells
    (fun r _ => le_of_eq rfl) [] []
  rw [append_nil] at hread
  rw [bonusPositions, placed_map]
  refine gather_eq_ok (hread.trans (congrArg _ (flatMap_congr fun r hr => ?_)))
  refine take_of_length_le ?_
  rw [length_drop, hcells r hr, numSampled]
  omega

end

end Reading

theorem calcSpecDecodeMetadata_eq_ok (hne : reqs ≠ [])
    (hsize : (reqs.map schedLen).sum ≤ arangeSize) (after : List ℤ) :
    calcSpecDecodeMetadata arangeSize (reqs.flatMap Scheduled.tokens ++ after)
        (reqs.map Scheduled.numDraft) (cumsum (reqs.map schedLen)) =
      .ok
        { draftTokenIds := reqs.flatMap Scheduled.drafts
          numDraftTokens := reqs.map Scheduled.numDraft
          cuNumDraftTokens := cumsum (reqs.map Scheduled.numDraft)
          targetLogitsIndices := targetPositions reqs
          bonusLogitsIndices := bonusPositions reqs
          logitsIndices := (logitsPositions reqs).map Nat.cast } := by
  have hsampled : (reqs.map Scheduled.numDraft).map (· + 1) = reqs.map numSampled := by
    rw [map_map]
    rfl
  have hsampledSum : (reqs.map numSampled).sum ≤ arangeSize :=
    (sum_le_sum fun r _ => r.fits).trans hsize
  have hdraftSum : (reqs.map Scheduled.numDraft).sum ≤ arangeSize :=
    (sum_le_sum fun r _ => Nat.le_succ r.numDraft).trans hsampledSum
  have hneed : ∀ r ∈ reqs, (r.tokens.drop r.skipped).length = numSampled (id r) := fun r _ =>
    r.length_needed rfl
  have hlog : gather (reqs.flatMap Scheduled.tokens ++ after)
      ((logitsPositions (reqs.map id)).map Nat.cast) =
        .ok (reqs.flatMap fun r => r.tokens.drop r.skipped) :=
    gather_logitsPositions (fun _ _ => rfl) after
  have htargets := gather_targetPositions_succ hneed
  rw [map_id] at hlog htargets
  have hdrafts : reqs.flatMap (fun r => (r.tokens.drop r.skipped).drop 1) =
      reqs.flatMap Scheduled.drafts :=
    flatMap_congr fun r _ => drop_drop
  rw [calcSpecDecodeMetadata, hsampled, getCumsumAndArange_eq_ok
    (fun h => hne (map_eq_nil_iff.mp h)) hsampledSum, getCumsumAndArange_eq_ok
    (fun h => hne (map_eq_nil_iff.mp h)) hdraftSum]
  simp only [bind, Except.bind, logitsIndices_eq, targetLogitsIndices_eq, bonusLogitsIndices_eq]
  rw [hlog]
  simp only [htargets, hdrafts]
  rfl

end Arrays

end SpecDecode
