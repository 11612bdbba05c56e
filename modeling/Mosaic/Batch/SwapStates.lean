import Mosaic.Batch.Steps

/-!
# Swapping two requests of the batch

Swapping renames the rows of the columns and keeps every request at its place in them, but for the
rows of the mask.
-/

namespace Batch

open List Function

namespace InputBatch

variable {s s' : InputBatch} {live : List CachedRequestState}

theorem swapAt_apply {α : Type} (f : ℕ → α) (a b k : ℕ) :
    swapAt f a b k = f (Equiv.swap a b k) := by
  unfold swapAt
  rw [Equiv.swap_apply_def]
  by_cases hb : k = b
  · subst hb
    rw [update_self]
    by_cases ha : k = a
    · rw [if_pos ha, ha]
    · rw [if_neg ha, if_pos rfl]
  · rw [update_of_ne hb]
    by_cases ha : k = a
    · rw [ha, update_self, if_pos rfl]
    · rw [update_of_ne ha, if_neg ha, if_neg hb]

theorem row_swapRow (t : BlockTable) (a b k : ℕ) :
    (t.swapRow a b).row k = t.row (Equiv.swap a b k) := by
  unfold BlockTable.row BlockTable.swapRow
  dsimp only
  rw [swapAt_apply]
  unfold rowPrefix
  rw [swapAt_apply]

/-- Swapping exchanges the rows, the mask apart. -/
theorem row_swapRequests (c : Columns) (a b k : ℕ) :
    (c.swapRequests a b).row k =
      { c.row (Equiv.swap a b k) with mask := (c.swapRequests a b).mask k } := by
  unfold Columns.row
  simp only [Columns.swapRequests, swapAt_apply, rowPrefix, map_map, comp_def, row_swapRow]

/-- What swapping two requests does. -/
structure Swap (s s' : InputBatch) (a b : ℕ) : Prop where
  stands₁ : ∃ id, s.StandsAt id a
  stands₂ : ∃ id, s.StandsAt id b
  standsAt : ∀ id k, s'.StandsAt id k ↔ s.StandsAt id (Equiv.swap a b k)
  columns : s'.columns = s.columns.swapRequests a b
  sets : s'.sets = s.sets
  lengths : s'.reqIds.length = s.reqIds.length
  outputs : s'.reqOutputTokenIds.length = s.reqOutputTokenIds.length
  removed : s'.builder.removedList = s.builder.removedList
  added : s'.builder.added = s.builder.added
  moved : s'.builder.moved = s.builder.moved ++ [⟨a, b, .swap⟩]

variable {a b : ℕ}

theorem swapStates_spec (h : s.Placed live) (hok : s.swapStates a b = .ok s') :
    Swap s s' a b ∧ s'.Placed live := by
  unfold swapStates at hok
  split at hok
  case h_2 => cases hok
  case h_3 => cases hok
  rename_i id₁ id₂ h₁ h₂
  have hget₁ := (h.inverse id₁ a).mpr h₁
  have hget₂ := (h.inverse id₂ b).mpr h₂
  simp only [hget₁, hget₂] at hok
  cases hok
  have hlt₁ : a < s.reqIds.length := StandsAt.lt_length h₁
  have hlt₂ : b < s.reqIds.length := StandsAt.lt_length h₂
  -- Whoever stands at `k` afterwards stood at the other side of the swap before.
  have hstands : ∀ id k, ((s.reqIds.set a (some id₂)).set b (some id₁))[k]? = some (some id) ↔
      s.StandsAt id (Equiv.swap a b k) := by
    intro id k
    unfold StandsAt
    rw [getElem?_set, length_set, Equiv.swap_apply_def]
    by_cases hb : k = b
    · subst hb
      rw [if_pos rfl, if_pos hlt₂]
      by_cases ha : k = a
      · rw [if_pos ha, ← h₁, ha]
      · rw [if_neg ha, if_pos rfl, ← h₁]
    · rw [if_neg (Ne.symm hb), getElem?_set]
      by_cases ha : k = a
      · subst ha
        simp [hlt₁, h₂]
      · simp [ha, Ne.symm ha, hb]
  refine ⟨⟨⟨id₁, h₁⟩, ⟨id₂, h₂⟩, hstands, rfl, rfl, ?_, ?_, rfl, rfl, rfl⟩, h.distinct, ?_, ?_, ?_⟩
  · dsimp only
    rw [length_set, length_set]
  · dsimp only
    rw [length_set, length_set]
  · -- inverse: the index of a moved request is its new position, that of another stays.
    intro id k
    refine Iff.trans ?_ (hstands id k).symm
    have hkey : ∀ {id : ReqId} {j : ℕ}, s.StandsAt id j →
        (s.StandsAt id (Equiv.swap a b k) ↔ Equiv.swap a b k = j) :=
      fun hj => ⟨fun hk => h.index_unique hk hj, fun hk => hk ▸ hj⟩
    by_cases hid₂ : id = id₂
    · subst hid₂
      rw [AList.lookup_insert, hkey h₂, Equiv.swap_apply_eq_iff, Equiv.swap_apply_right]
      exact ⟨fun heq => (Option.some.inj heq).symm, fun heq => congrArg some heq.symm⟩
    · rw [AList.lookup_insert_ne hid₂]
      by_cases hid₁ : id = id₁
      · subst hid₁
        rw [AList.lookup_insert, hkey h₁, Equiv.swap_apply_eq_iff, Equiv.swap_apply_left]
        exact ⟨fun heq => (Option.some.inj heq).symm, fun heq => congrArg some heq.symm⟩
      · rw [AList.lookup_insert_ne hid₁, h.inverse]
        -- A third request stands at neither side, where the swap does nothing.
        have hnot₁ : ∀ {j}, s.StandsAt id j → j ≠ a := by
          rintro j hj rfl
          exact hid₁ (Option.some.inj (Option.some.inj (hj.symm.trans h₁)))
        have hnot₂ : ∀ {j}, s.StandsAt id j → j ≠ b := by
          rintro j hj rfl
          exact hid₂ (Option.some.inj (Option.some.inj (hj.symm.trans h₂)))
        constructor
        · intro hk
          rw [Equiv.swap_apply_of_ne_of_ne (hnot₁ hk) (hnot₂ hk)]
          exact hk
        · intro hk
          have hsame : Equiv.swap a b (Equiv.swap a b k) = Equiv.swap a b k :=
            Equiv.swap_apply_of_ne_of_ne (hnot₁ hk) (hnot₂ hk)
          rw [Equiv.swap_apply_self] at hsame
          rw [hsame]
          exact hk
  · intro id
    rw [AList.mem_insert, AList.mem_insert, h.present]
    constructor
    · rintro (rfl | rfl | hmem)
      · exact h.mem_of_standsAt h₂
      · exact h.mem_of_standsAt h₁
      · exact hmem
    · exact fun hmem => .inr (.inr hmem)
  · dsimp only
    rw [length_set, length_set, length_set, length_set, h.lengths]

/-- Swapping keeps what holds of the batch at any time. -/
theorem Swap.core (h : Swap s s' a b) (hs : s.Core cfg widths live)
    (hplaced : s'.Placed live) : s'.Core cfg widths live := by
  have hrow : ∀ k, s'.columns.row k =
      { s.columns.row (Equiv.swap a b k) with mask := s'.columns.mask k } := by
    intro k
    rw [h.columns]
    exact row_swapRequests s.columns a b k
  refine ⟨hplaced, ?_, ?_, ?_, ?_, h.lengths ▸ hs.capacity⟩
  · intro k r hr hk
    have hfits := hs.fits _ r hr ((h.standsAt _ k).mp hk)
    rw [hrow]
    refine ⟨hfits.tokens, hfits.numTokens, hfits.numTokensNoSpec, hfits.numPromptTokens,
      hfits.numComputedTokens, hfits.blocks, hfits.lora, fun p hp => ?_⟩
    obtain ⟨h₁, h₂, h₃, h₄, h₅, h₆, h₇, h₈⟩ := hfits.samples p hp
    exact ⟨h₁, h₂, h₃, h₄, h₅, h₆, h₇, h₈⟩
  · intro k hk
    rw [hrow]
    exact hs.clean _ fun id hid => hk id ((h.standsAt id k).mpr hid)
  · unfold Adapted
    rw [h.sets]
    exact hs.adapted
  · rw [h.columns, ← hs.widths]
    simp only [Columns.widths, Columns.swapRequests, map_map, comp_def, BlockTable.swapRow]

theorem Swap.full (h : Swap s s' a b) (hs : s.Full) : s'.Full := by
  intro k hk
  have hlt : Equiv.swap a b k < s.reqIds.length := by
    rw [h.lengths] at hk
    obtain ⟨_, h₁⟩ := h.stands₁
    obtain ⟨_, h₂⟩ := h.stands₂
    rw [Equiv.swap_apply_def]
    split
    · exact h₂.lt_length
    · split
      · exact h₁.lt_length
      · exact hk
  obtain ⟨id, hid⟩ := hs _ hlt
  exact ⟨id, (h.standsAt id k).mpr hid⟩

end InputBatch

end Batch
