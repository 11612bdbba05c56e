import Mosaic.Batch.SwapStates

/-!
# Exchanging two requests of the batch

`swap_states` is meant to exchange all that stands at two indices. It does so for every column but
two: the assignment to the rows of the mask reads the row that it has just written, so that both
indices end up with the mask of the second one, and the flags `logits_processing_needs_token_ids`
are not exchanged at all.
-/

namespace Batch

open Function Option

/-! ### Full exchanges -/

namespace Columns

/-- The columns with their rows renamed: row `k` is what row `σ k` was. -/
def permute (c : Columns) (σ : ℕ → ℕ) : Columns where
  tokenIdsCpu := fun k => c.tokenIdsCpu (σ k)
  numTokens := fun k => c.numTokens (σ k)
  numTokensNoSpec := fun k => c.numTokensNoSpec (σ k)
  numPromptTokens := fun k => c.numPromptTokens (σ k)
  numComputedTokensCpu := fun k => c.numComputedTokensCpu (σ k)
  blockTables := c.blockTables.map fun t => { t with
    numBlocksPerRow := fun k => t.numBlocksPerRow (σ k)
    blockTableNp := fun k => t.blockTableNp (σ k) }
  temperatureCpu := fun k => c.temperatureCpu (σ k)
  topPCpu := fun k => c.topPCpu (σ k)
  topKCpu := fun k => c.topKCpu (σ k)
  frequencyPenaltiesCpu := fun k => c.frequencyPenaltiesCpu (σ k)
  presencePenaltiesCpu := fun k => c.presencePenaltiesCpu (σ k)
  repetitionPenaltiesCpu := fun k => c.repetitionPenaltiesCpu (σ k)
  requestLoraMapping := fun k => c.requestLoraMapping (σ k)
  generators := fun k => c.generators (σ k)
  allowedTokenIdsMask := c.allowedTokenIdsMask.map fun mask k => mask (σ k)
  badWordsTokenIds := fun k => c.badWordsTokenIds (σ k)
  logitsProcessingNeedsTokenIds := fun k => c.logitsProcessingNeedsTokenIds (σ k)

/-- All columns are renamed, the mask as far as it reaches: a row of it has one entry for each token
of the vocabulary. -/
structure Renamed (cfg : Config) (c c' : Columns) (σ : ℕ → ℕ) : Prop where
  columns : c' = { c.permute σ with allowedTokenIdsMask := c'.allowedTokenIdsMask }
  allocated : c'.allowedTokenIdsMask.isSome = c.allowedTokenIdsMask.isSome
  mask : ∀ k, ∀ token < cfg.vocabSize, c'.mask k token = c.mask (σ k) token

/-- Two indices agree in what `swap_states` does not exchange. -/
def Agree (cfg : Config) (c : Columns) (i₁ i₂ : ℕ) : Prop :=
  (∀ token < cfg.vocabSize, c.mask i₁ token = c.mask i₂ token) ∧
    c.logitsProcessingNeedsTokenIds i₁ = c.logitsProcessingNeedsTokenIds i₂

theorem swapAt_eq {α : Type} (f : ℕ → α) (a b : ℕ) :
    swapAt f a b = fun k => f (Equiv.swap a b k) :=
  funext (InputBatch.swapAt_apply f a b)

/-- Everything but the mask and the flags is exchanged. -/
theorem swapRequests_eq (c : Columns) (a b : ℕ) :
    c.swapRequests a b = { c.permute (Equiv.swap a b) with
      allowedTokenIdsMask := (c.swapRequests a b).allowedTokenIdsMask
      logitsProcessingNeedsTokenIds := c.logitsProcessingNeedsTokenIds } := by
  unfold swapRequests permute BlockTable.swapRow
  simp only [swapAt_eq]

/-- Both indices have the mask of the second one afterwards. -/
theorem mask_swapRequests (c : Columns) (a b : ℕ) :
    (c.swapRequests a b).mask = update c.mask a (c.mask b) := by
  funext k
  unfold mask swapRequests
  cases c.allowedTokenIdsMask with
  | none =>
    by_cases hk : k = a
    · rw [hk, update_self]
      rfl
    · rw [update_of_ne hk]
      rfl
  | some m => rfl

/-- The columns of two indices are exchanged iff the indices agree in mask and flag. -/
theorem renamed_swapRequests_iff (cfg : Config) (c : Columns) (a b : ℕ) :
    Renamed cfg c (c.swapRequests a b) (Equiv.swap a b) ↔ c.Agree cfg a b := by
  constructor
  · rintro ⟨hcols, -, hmask⟩
    constructor
    · -- the row of the second index was not written
      intro token htoken
      have hrow := hmask b token htoken
      rw [mask_swapRequests, Equiv.swap_apply_right] at hrow
      by_cases hab : b = a
      · rw [hab]
      · rw [update_of_ne hab] at hrow
        exact hrow.symm
    · have hflags := congrFun (congrArg logitsProcessingNeedsTokenIds hcols) b
      rw [swapRequests_eq] at hflags
      dsimp only [permute] at hflags
      rw [Equiv.swap_apply_right] at hflags
      exact hflags.symm
  · rintro ⟨hmask, hflag⟩
    have hflags : c.logitsProcessingNeedsTokenIds =
        fun k => c.logitsProcessingNeedsTokenIds (Equiv.swap a b k) := by
      funext k
      rw [Equiv.swap_apply_def]
      split
      · rename_i hk
        rw [hk, hflag]
      · split
        · rename_i hk
          rw [hk, hflag]
        · rfl
    refine ⟨?_, ?_, ?_⟩
    · calc c.swapRequests a b
          = { c.permute (Equiv.swap a b) with
              allowedTokenIdsMask := (c.swapRequests a b).allowedTokenIdsMask
              logitsProcessingNeedsTokenIds := c.logitsProcessingNeedsTokenIds } :=
            swapRequests_eq c a b
        _ = { c.permute (Equiv.swap a b) with
              allowedTokenIdsMask := (c.swapRequests a b).allowedTokenIdsMask } := by
            rw [hflags]
            rfl
    · unfold swapRequests
      exact isSome_map
    · intro k token htoken
      rw [mask_swapRequests, Equiv.swap_apply_def]
      by_cases hka : k = a
      · rw [if_pos hka, hka, update_self]
      · rw [update_of_ne hka, if_neg hka]
        split
        · rename_i hkb
          rw [hkb, hmask token htoken]
        · rfl

end Columns

namespace InputBatch

variable {cfg : Config} {widths : List ℕ} {s s' : InputBatch} {live : List CachedRequestState}
  {r : CachedRequestState} {i a b : ℕ} {id id₁ id₂ : ReqId}

/-- What stood at the first index stands at the second one, and the other way round; nothing else
has changed. The sets of requests do not depend on the indices. -/
structure Exchanged (cfg : Config) (s s' : InputBatch) (i₁ i₂ : ℕ) : Prop where
  reqIds : ∀ k, s'.reqIds[k]? = s.reqIds[Equiv.swap i₁ i₂ k]?
  outputs : ∀ k, s'.reqOutputTokenIds[k]? = s.reqOutputTokenIds[Equiv.swap i₁ i₂ k]?
  index : ∀ id, s'.reqIdToIndex.lookup id = (s.reqIdToIndex.lookup id).map (Equiv.swap i₁ i₂)
  sets : s'.sets = s.sets
  columns : Columns.Renamed cfg s.columns s'.columns (Equiv.swap i₁ i₂)

/-- Writing two entries of a list crosswise. -/
theorem getElem?_set_set {α : Type} {xs : List α} {x y : α} (hx : xs[a]? = some x)
    (hy : xs[b]? = some y) (k : ℕ) : ((xs.set a y).set b x)[k]? = xs[Equiv.swap a b k]? := by
  have hlt₁ := (List.getElem?_eq_some_iff.mp hx).1
  have hlt₂ := (List.getElem?_eq_some_iff.mp hy).1
  rw [List.getElem?_set, List.length_set, Equiv.swap_apply_def]
  by_cases hb : b = k
  · subst hb
    rw [if_pos rfl, if_pos hlt₂]
    by_cases ha : b = a
    · rw [if_pos ha, hy]
      rw [ha, hx] at hy
      exact hy
    · rw [if_neg ha, if_pos rfl, hx]
  · rw [if_neg hb, List.getElem?_set]
    by_cases ha : a = k
    · subst ha
      rw [if_pos rfl, if_pos hlt₁, if_pos rfl, hy]
    · rw [if_neg ha, if_neg (Ne.symm ha), if_neg (Ne.symm hb)]

/-- What `swap_states` makes of the batch when both indices are in use. -/
def swapped (s : InputBatch) (a b : ℕ) (id₁ id₂ : ReqId) : InputBatch :=
  { s with
    builder := { s.builder with moved := s.builder.moved ++ [⟨a, b, .swap⟩] }
    reqIds := (s.reqIds.set a (some id₂)).set b (some id₁)
    reqOutputTokenIds :=
      (s.reqOutputTokenIds.set a (s.reqOutputTokenIds[b]?).join).set b
        (s.reqOutputTokenIds[a]?).join
    reqIdToIndex := (s.reqIdToIndex.insert id₁ b).insert id₂ a
    columns := s.columns.swapRequests a b }

theorem swapStates_eq (h : s.Placed live) (h₁ : s.StandsAt id₁ a) (h₂ : s.StandsAt id₂ b) :
    s.swapStates a b = .ok (s.swapped a b id₁ id₂) := by
  have hget₁ := (h.inverse id₁ a).mpr h₁
  have hget₂ := (h.inverse id₂ b).mpr h₂
  unfold StandsAt at h₁ h₂
  unfold swapStates
  simp only [h₁, h₂, hget₁, hget₂]
  rfl

/-- A swap that returns was asked for two indices in use. -/
theorem swapStates_stands (hok : s.swapStates a b = .ok s') :
    ∃ id₁ id₂, s.StandsAt id₁ a ∧ s.StandsAt id₂ b := by
  unfold swapStates at hok
  split at hok
  case h_1 id₁ id₂ h₁ h₂ => exact ⟨id₁, id₂, h₁, h₂⟩
  case h_2 => cases hok
  case h_3 => cases hok

theorem getElem?_swapped_reqIds (h₁ : s.StandsAt id₁ a) (h₂ : s.StandsAt id₂ b) (k : ℕ) :
    (s.swapped a b id₁ id₂).reqIds[k]? = s.reqIds[Equiv.swap a b k]? :=
  getElem?_set_set h₁ h₂ k

section

variable (h : s.Placed live) (h₁ : s.StandsAt id₁ a) (h₂ : s.StandsAt id₂ b)
include h h₁ h₂

theorem getElem?_swapped_outputs (k : ℕ) : (s.swapped a b id₁ id₂).reqOutputTokenIds[k]? =
      s.reqOutputTokenIds[Equiv.swap a b k]? := by
  have hentry : ∀ {i}, i < s.reqIds.length →
      s.reqOutputTokenIds[i]? = some (s.reqOutputTokenIds[i]?).join := by
    intro i hi
    rw [← h.lengths] at hi
    rw [List.getElem?_eq_getElem hi]
    rfl
  exact getElem?_set_set (hentry h₁.lt_length) (hentry h₂.lt_length) k

/-- The index map follows the exchange. -/
theorem lookup_swapped (id : ReqId) : (s.swapped a b id₁ id₂).reqIdToIndex.lookup id =
      (s.reqIdToIndex.lookup id).map (Equiv.swap a b) := by
  have hget₁ := (h.inverse id₁ a).mpr h₁
  have hget₂ := (h.inverse id₂ b).mpr h₂
  unfold swapped
  by_cases hid₂ : id = id₂
  · subst hid₂
    rw [AList.lookup_insert, hget₂, map_some, Equiv.swap_apply_right]
  · rw [AList.lookup_insert_ne hid₂]
    by_cases hid₁ : id = id₁
    · subst hid₁
      rw [AList.lookup_insert, hget₁, map_some, Equiv.swap_apply_left]
    · rw [AList.lookup_insert_ne hid₁]
      cases hget : s.reqIdToIndex.lookup id with
      | none => rfl
      | some k =>
        -- another request stands neither at the one index nor at the other
        have hk := (h.inverse id k).mp hget
        have hne₁ : k ≠ a := by
          rintro rfl
          exact hid₁ (some.inj (some.inj (hk.symm.trans h₁)))
        have hne₂ : k ≠ b := by
          rintro rfl
          exact hid₂ (some.inj (some.inj (hk.symm.trans h₂)))
        rw [map_some, Equiv.swap_apply_of_ne_of_ne hne₁ hne₂]

/-- Two requests are exchanged iff they agree in mask and flag. -/
theorem exchanged_iff : s.Exchanged cfg (s.swapped a b id₁ id₂) a b ↔ s.columns.Agree cfg a b := by
  rw [← Columns.renamed_swapRequests_iff]
  constructor
  · intro hexchanged
    exact hexchanged.columns
  · intro hcols
    exact ⟨getElem?_swapped_reqIds h₁ h₂, getElem?_swapped_outputs h h₁ h₂,
      lookup_swapped h h₁ h₂, rfl, hcols⟩

end

end InputBatch

end Batch
