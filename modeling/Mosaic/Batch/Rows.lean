import Mosaic.Batch.InputBatch

/-!
# The rows of the batch

What all columns together say about one index, and what the operations of the batch do to it.
-/

namespace Batch

open List Fallible Function

/-! ### Slices of an array -/

/-- The first `count` values of a row. -/
def rowPrefix (array : ℕ → ℕ → ℕ) (row count : ℕ) : List ℕ :=
  (List.range count).map (array row)

theorem rowPrefix_congr {a b : ℕ → ℕ → ℕ} {i j count : ℕ}
    (heq : ∀ column < count, a i column = b j column) :
    rowPrefix a i count = rowPrefix b j count := by
  unfold rowPrefix
  apply map_congr_left
  intro column hcol
  exact heq column (mem_range.mp hcol)

/-- A slice that fits the array is written behind what stands before it. -/
theorem writeSlice_fits {width start : ℕ} {values : List ℕ} (array : ℕ → ℕ → ℕ) (row : ℕ)
    (fits : start + values.length ≤ width) :
    ∃ written, writeSlice width array row start values = .ok written ∧
      rowPrefix written row (start + values.length) = rowPrefix array row start ++ values ∧
      ∀ j, j ≠ row → written j = array j := by
  refine ⟨_, if_pos (.inl fits), ?_, fun j hj => update_of_ne hj _ _⟩
  unfold rowPrefix
  rw [range_add, map_append, map_map, update_self]
  congr 1
  · apply map_congr_left
    intro column hcol
    have hlt := mem_range.mp hcol
    exact if_neg fun h => absurd h.1 (by omega)
  · apply ext_getElem
    · simp
    · intro k hk hvalue
      have hin : start ≤ start + k ∧ start + k < start + values.length ∧ start + k < width := by
        omega
      simp [hin, hvalue]

theorem rowPrefix_copySlice (array : ℕ → ℕ → ℕ) (src tgt count : ℕ) :
    rowPrefix (copySlice array src tgt count) tgt count = rowPrefix array src count := by
  apply rowPrefix_congr
  intro column hcol
  rw [copySlice, update_self, if_pos hcol]

theorem copySlice_of_ne {array : ℕ → ℕ → ℕ} {src tgt count j : ℕ} (hj : j ≠ tgt) :
    copySlice array src tgt count j = array j :=
  update_of_ne hj _ _

/-! ### Block tables -/

namespace BlockTable

/-- The blocks of one row. -/
def row (t : BlockTable) (i : ℕ) : List ℕ := rowPrefix t.blockTableNp i (t.numBlocksPerRow i)

/-- Appending puts the blocks behind those of the row, whose number counts them all. -/
theorem appendRow_spec {t : BlockTable} {blockIds : List ℕ} {i : ℕ}
    (fits : t.numBlocksPerRow i + blockIds.length ≤ t.maxNumBlocksPerReq) :
    ∃ t', t.appendRow blockIds i = .ok t' ∧ t'.row i = t.row i ++ blockIds ∧
      (∀ j, j ≠ i → t'.row j = t.row j) ∧ t'.maxNumBlocksPerReq = t.maxNumBlocksPerReq := by
  unfold appendRow
  split
  · rename_i hnil
    exact ⟨t, rfl, by rw [hnil, append_nil], fun _ _ => rfl, rfl⟩
  · obtain ⟨written, hok, hrow, hother⟩ := writeSlice_fits t.blockTableNp i fits
    refine ⟨_, bind_eq_ok.mpr ⟨written, hok, rfl⟩, ?_, ?_, rfl⟩
    · simpa only [row, update_self] using hrow
    · intro j hj
      simp only [row, rowPrefix, update_of_ne hj, hother j hj]

theorem addRow_spec {t : BlockTable} {blockIds : List ℕ} {i : ℕ}
    (fits : blockIds.length ≤ t.maxNumBlocksPerReq) :
    ∃ t', t.addRow blockIds i = .ok t' ∧ t'.row i = blockIds ∧
      (∀ j, j ≠ i → t'.row j = t.row j) ∧ t'.maxNumBlocksPerReq = t.maxNumBlocksPerReq := by
  obtain ⟨t', hok, hrow, hother, hwidth⟩ := appendRow_spec
    (t := { t with numBlocksPerRow := update t.numBlocksPerRow i 0 }) (i := i)
    (show _ + blockIds.length ≤ t.maxNumBlocksPerReq by simpa using fits)
  refine ⟨t', hok, ?_, ?_, hwidth⟩
  · simpa [row, rowPrefix] using hrow
  · intro j hj
    rw [hother j hj]
    simp [row, hj]

theorem row_moveRow (t : BlockTable) (src tgt : ℕ) : (t.moveRow src tgt).row tgt = t.row src := by
  simp only [row, moveRow, update_self, rowPrefix_copySlice]

theorem row_moveRow_of_ne {t : BlockTable} {src tgt j : ℕ} (hj : j ≠ tgt) :
    (t.moveRow src tgt).row j = t.row j := by
  simp only [row, moveRow, rowPrefix, update_of_ne hj, copySlice_of_ne hj]

end BlockTable

/-- The tables of all groups get the blocks of their group. -/
theorem addRows_spec {tables : List BlockTable} {blockIds : List (List ℕ)} {i : ℕ}
    (fits : List.Forall₂ (fun t blocks => blocks.length ≤ t)
      (tables.map BlockTable.maxNumBlocksPerReq) blockIds) :
    ∃ tables', addRows tables blockIds i = .ok tables' ∧
      tables'.map (fun t => t.row i) = blockIds ∧
      (∀ j, j ≠ i → tables'.map (fun t => t.row j) = tables.map fun t => t.row j) ∧
      tables'.map BlockTable.maxNumBlocksPerReq = tables.map BlockTable.maxNumBlocksPerReq := by
  induction tables generalizing blockIds with
  | nil =>
    cases fits
    exact ⟨[], rfl, rfl, fun _ _ => rfl, rfl⟩
  | cons t tables ih =>
    cases fits with
    | cons hblocks hrest =>
      obtain ⟨t', hok, hrow, hother, hwidth⟩ := BlockTable.addRow_spec (t := t) (i := i) hblocks
      obtain ⟨tables', hoks, hrows, hothers, hwidths⟩ := ih hrest
      refine ⟨t' :: tables',
        bind_eq_ok.mpr ⟨t', hok, bind_eq_ok.mpr ⟨tables', hoks, rfl⟩⟩, ?_, ?_, ?_⟩
      · rw [map_cons, hrow, hrows]
      · intro j hj
        rw [map_cons, map_cons, hother j hj, hothers j hj]
      · rw [map_cons, map_cons, hwidth, hwidths]

/-! ### Rows -/

/-- The values of all columns at one index. -/
structure Row where
  tokenIds : List ℕ
  numTokens : ℕ
  numTokensNoSpec : ℕ
  numPromptTokens : ℕ
  numComputedTokens : ℕ
  blockIds : List (List ℕ)
  temperature : ℚ
  topP : ℚ
  topK : ℤ
  frequencyPenalty : ℚ
  presencePenalty : ℚ
  repetitionPenalty : ℚ
  loraId : ℕ
  generator : Option GeneratorRef
  badWordsTokenIds : Option (List (List ℕ))
  mask : ℕ → Bool

namespace Columns

/-- The mask row at an index; before the tensor is allocated nothing is masked. -/
def mask (c : Columns) (i : ℕ) : ℕ → Bool :=
  (c.allowedTokenIdsMask.getD fun _ _ => false) i

def row (c : Columns) (i : ℕ) : Row where
  tokenIds := rowPrefix c.tokenIdsCpu i (c.numTokens i)
  numTokens := c.numTokens i
  numTokensNoSpec := c.numTokensNoSpec i
  numPromptTokens := c.numPromptTokens i
  numComputedTokens := c.numComputedTokensCpu i
  blockIds := c.blockTables.map fun t => t.row i
  temperature := c.temperatureCpu i
  topP := c.topPCpu i
  topK := c.topKCpu i
  frequencyPenalty := c.frequencyPenaltiesCpu i
  presencePenalty := c.presencePenaltiesCpu i
  repetitionPenalty := c.repetitionPenaltiesCpu i
  loraId := c.requestLoraMapping i
  generator := c.generators i
  badWordsTokenIds := c.badWordsTokenIds i
  mask := c.mask i

/-- The number of blocks that a row of each group has room for. -/
def widths (c : Columns) : List ℕ := c.blockTables.map BlockTable.maxNumBlocksPerReq

end Columns

/-- The sampling columns of a row are those of the parameters. -/
structure Row.Samples (cfg : Config) (row : Row) (r : CachedRequestState) (p : SamplingParams) :
    Prop where
  temperature : row.temperature = Columns.effectiveTemperature p
  topP : row.topP = p.topP
  topK : row.topK = Columns.effectiveTopK cfg p
  frequencyPenalty : row.frequencyPenalty = p.frequencyPenalty
  presencePenalty : row.presencePenalty = p.presencePenalty
  repetitionPenalty : row.repetitionPenalty = p.repetitionPenalty
  generator : row.generator = r.generator
  badWords : row.badWordsTokenIds =
    if p.badWordsTokenIds = [] then none else some p.badWordsTokenIds

/-- The row is the one of the request; its mask is a matter of its own. A pooling request has no
sampling columns. -/
structure Row.Fits (cfg : Config) (row : Row) (r : CachedRequestState) : Prop where
  tokens : row.tokenIds = r.promptTokenIds ++ r.outputTokenIds
  numTokens : row.numTokens = r.numTokens
  numTokensNoSpec : row.numTokensNoSpec = r.numTokens
  numPromptTokens : row.numPromptTokens = r.promptTokenIds.length
  numComputedTokens : row.numComputedTokens = r.numComputedTokens
  blocks : row.blockIds = r.blockIds
  lora : row.loraId = (r.loraRequest.map LoRARequest.loraIntId).getD 0
  samples : ∀ p, r.samplingParams = some p → row.Samples cfg r p

/-- The tokens that the parameters forbid: none, or all but the allowed ones. -/
def SamplingParams.forbidden (p : SamplingParams) (cfg : Config) : ℕ → Bool :=
  if p.allowedTokenIds = [] then fun _ => false else Columns.maskRow cfg p.allowedTokenIds

/-- The mask of the row is the one of the request. -/
def Row.MaskFits (cfg : Config) (row : Row) (r : CachedRequestState) : Prop :=
  ∀ p, r.samplingParams = some p →
    ∀ token < cfg.vocabSize, row.mask token = p.forbidden cfg token

/-- The request needs no mask and so does not write its mask row. -/
def CachedRequestState.Unrestricted (r : CachedRequestState) : Prop :=
  ∃ p, r.samplingParams = some p ∧ p.allowedTokenIds = []

/-- A request that the arrays of the batch have room for. -/
structure CachedRequestState.FitsIn (cfg : Config) (widths : List ℕ) (r : CachedRequestState) :
    Prop where
  params : r.params.isSome = true
  tokens : r.numTokens ≤ cfg.maxModelLen
  blocks : List.Forall₂ (fun width blocks => blocks.length ≤ width) widths r.blockIds
  allowed : ∀ p, r.samplingParams = some p → ∀ t ∈ p.allowedTokenIds, t < cfg.vocabSize

instance (cfg : Config) (widths : List ℕ) (r : CachedRequestState) :
    Decidable (r.FitsIn cfg widths) :=
  decidable_of_iff (r.params.isSome = true ∧ r.numTokens ≤ cfg.maxModelLen ∧
      List.Forall₂ (fun width blocks => blocks.length ≤ width) widths r.blockIds ∧
      ∀ p ∈ r.samplingParams, ∀ t ∈ p.allowedTokenIds, t < cfg.vocabSize)
    ⟨fun h => ⟨h.1, h.2.1, h.2.2.1, h.2.2.2⟩, fun h => ⟨h.params, h.tokens, h.blocks, h.allowed⟩⟩

namespace Columns

variable {cfg : Config} {c : Columns} {r : CachedRequestState} {i : ℕ}

/-! ### Adding a request -/

theorem addTokens_spec (fits : r.FitsIn cfg c.widths) :
    ∃ c', c.addTokens cfg i r = .ok c' ∧
      (∀ j, j ≠ i → c'.row j = c.row j) ∧
      (c'.row i).tokenIds = r.promptTokenIds ++ r.outputTokenIds ∧
      (c'.row i).numTokens = r.numTokens ∧ (c'.row i).numTokensNoSpec = r.numTokens ∧
      (c'.row i).numPromptTokens = r.promptTokenIds.length ∧
      (c'.row i).numComputedTokens = r.numComputedTokens ∧
      (c'.row i).blockIds = r.blockIds ∧
      (c'.row i).generator = (c.row i).generator ∧
      (c'.row i).badWordsTokenIds = (c.row i).badWordsTokenIds ∧
      (c'.row i).mask = (c.row i).mask ∧ c'.widths = c.widths := by
  have htokens := fits.tokens
  unfold CachedRequestState.numTokens at htokens
  obtain ⟨prompt, hprompt, hpromptRow, hpromptOther⟩ :=
    writeSlice_fits c.tokenIdsCpu i
      (show 0 + r.promptTokenIds.length ≤ cfg.maxModelLen by omega)
  obtain ⟨tokens, htoks, htokensRow, htokensOther⟩ :=
    writeSlice_fits prompt i htokens
  obtain ⟨tables, htables, hblocks, hblocksOther, hwidths⟩ := addRows_spec (i := i) fits.blocks
  rw [Nat.zero_add] at hpromptRow
  refine ⟨_, bind_eq_ok.mpr ⟨prompt, hprompt, bind_eq_ok.mpr
    ⟨tokens, htoks, bind_eq_ok.mpr ⟨tables, htables, rfl⟩⟩⟩, ?_, ?_, ?_, ?_, ?_, ?_,
    hblocks, rfl, rfl, rfl, hwidths⟩
  · intro j hj
    simp only [row, mask, rowPrefix, update_of_ne hj, htokensOther j hj,
      hpromptOther j hj, hblocksOther j hj]
  · dsimp only [row]
    rw [update_self, CachedRequestState.numTokens, htokensRow, hpromptRow]
    rfl
  all_goals exact update_self i _ _

/-- Only a request with allowed tokens writes its mask row. -/
theorem addAllowed_spec {p : SamplingParams}
    (allowed : ∀ t ∈ p.allowedTokenIds, t < cfg.vocabSize) :
    ∃ c', c.addAllowed cfg i p = .ok c' ∧
      c' = { c with allowedTokenIdsMask := c'.allowedTokenIdsMask } ∧
      (∀ j, j ≠ i → c'.mask j = c.mask j) ∧
      c'.mask i = if p.allowedTokenIds = [] then c.mask i else maskRow cfg p.allowedTokenIds := by
  unfold addAllowed
  by_cases hnil : p.allowedTokenIds = []
  · simp only [hnil, if_true]
    exact ⟨c, rfl, rfl, fun _ _ => rfl, rfl⟩
  · have hall : p.allowedTokenIds.all (fun t => decide (t < cfg.vocabSize)) = true := by
      simpa using allowed
    simp only [hnil, if_false, hall, if_true]
    refine ⟨_, rfl, rfl, ?_, ?_⟩
    · intro j hj
      simp [mask, hj]
    · simp [mask]

theorem addSampling_spec {p : SamplingParams} (hp : r.samplingParams = some p)
    (fits : r.FitsIn cfg c.widths) (hgen : c.generators i = none)
    (hbad : c.badWordsTokenIds i = none) :
    ∃ c', c.addSampling cfg i r p = .ok c' ∧
      (∀ j, j ≠ i → c'.row j = c.row j) ∧
      (c'.row i).tokenIds = (c.row i).tokenIds ∧
      (c'.row i).numTokens = (c.row i).numTokens ∧
      (c'.row i).numTokensNoSpec = (c.row i).numTokensNoSpec ∧
      (c'.row i).numPromptTokens = (c.row i).numPromptTokens ∧
      (c'.row i).numComputedTokens = (c.row i).numComputedTokens ∧
      (c'.row i).blockIds = (c.row i).blockIds ∧
      (c'.row i).Samples cfg r p ∧
      (c'.row i).mask = (if p.allowedTokenIds = [] then (c.row i).mask
        else maskRow cfg p.allowedTokenIds) ∧ c'.widths = c.widths := by
  obtain ⟨c₁, hc₁, hsame, hother, hmask⟩ :=
    addAllowed_spec (c := c) (i := i) (fits.allowed p hp)
  rw [hsame] at hc₁
  refine ⟨_, bind_eq_ok.mpr ⟨_, hc₁, rfl⟩, ?_, rfl, rfl, rfl, rfl, rfl, rfl, ?_, hmask,
    rfl⟩
  · intro j hj
    have hmask : c₁.mask j = c.mask j := hother j hj
    have hgenerators : (if r.generator.isSome then update c.generators i r.generator
        else c.generators) j = c.generators j := by
      split
      · exact update_of_ne hj _ _
      · rfl
    have hbads : (if p.badWordsTokenIds = [] then c.badWordsTokenIds
        else update c.badWordsTokenIds i (some p.badWordsTokenIds)) j =
        c.badWordsTokenIds j := by
      split
      · rfl
      · exact update_of_ne hj _ _
    unfold mask at hmask
    simp only [row, mask, update_of_ne hj, hmask, hgenerators, hbads]
  · constructor
    case generator =>
      cases hr : r.generator with
      | none => exact hgen
      | some g => exact update_self i _ _
    case badWords =>
      dsimp only [row]
      by_cases hnil : p.badWordsTokenIds = []
      · rw [if_pos hnil, if_pos hnil, hbad]
      · rw [if_neg hnil, if_neg hnil, update_self]
    all_goals exact update_self i _ _

theorem addLora_row (c : Columns) (i : ℕ) (r : CachedRequestState) :
    (c.addLora i r).row i =
      { c.row i with loraId := (r.loraRequest.map LoRARequest.loraIntId).getD 0 } := by
  simp only [row, mask, addLora, update_self]

theorem addLora_row_of_ne {j : ℕ} (hj : j ≠ i) : (c.addLora i r).row j = c.row j := by
  simp only [row, mask, addLora, update_of_ne hj]

/-- An added request gets its row and no other row changes. Its mask is right unless it does not
need one and the row was not clean. -/
theorem addRequest_spec (fits : r.FitsIn cfg c.widths) (hgen : c.generators i = none)
    (hbad : c.badWordsTokenIds i = none) :
    ∃ c', c.addRequest cfg i r = .ok c' ∧ (∀ j, j ≠ i → c'.row j = c.row j) ∧
      (c'.row i).Fits cfg r ∧ c'.widths = c.widths ∧
      ∀ p, r.samplingParams = some p →
        (c'.row i).mask = if p.allowedTokenIds = [] then c.mask i
          else maskRow cfg p.allowedTokenIds := by
  obtain ⟨c₁, hc₁, hother, htokens, hnum, hnoSpec, hprompt, hcomp, hblocks, hgen₁, hbad₁,
    hmask₁, hwidths⟩ := addTokens_spec (i := i) fits
  have hparams := fits.params
  unfold CachedRequestState.params at hparams
  unfold addRequest
  cases hp : r.samplingParams with
  | some p =>
    obtain ⟨c₂, hc₂, hother₂, htoks₂, hnum₂, hnoSpec₂, hprompt₂, hcomp₂, hblocks₂, hsamples,
      hmask₂, hwidths₂⟩ := addSampling_spec (c := c₁) (i := i) hp (hwidths ▸ fits)
        (hgen₁.trans hgen) (hbad₁.trans hbad)
    refine ⟨_, bind_eq_ok.mpr ⟨c₁, hc₁, bind_eq_ok.mpr ⟨c₂, hc₂, rfl⟩⟩, ?_, ?_,
      hwidths₂.trans hwidths, ?_⟩
    · intro j hj
      rw [addLora_row_of_ne hj, hother₂ j hj, hother j hj]
    · rw [addLora_row]
      refine ⟨htoks₂.trans htokens, hnum₂.trans hnum, hnoSpec₂.trans hnoSpec,
        hprompt₂.trans hprompt, hcomp₂.trans hcomp, hblocks₂.trans hblocks, rfl, ?_⟩
      intro q hq
      cases hp.symm.trans hq
      exact ⟨hsamples.1, hsamples.2, hsamples.3, hsamples.4, hsamples.5, hsamples.6, hsamples.7,
        hsamples.8⟩
    · intro q hq
      cases hq
      rw [addLora_row]
      exact hmask₂.trans (by rw [hmask₁]; rfl)
  | none =>
    rw [hp] at hparams
    obtain ⟨q, hq⟩ := Option.isSome_iff_exists.mp (Option.isSome_map.symm.trans hparams)
    rw [hq]
    refine ⟨_, bind_eq_ok.mpr ⟨c₁, hc₁, rfl⟩, ?_, ?_, hwidths, nofun⟩
    · intro j hj
      rw [addLora_row_of_ne hj, ← hother j hj]
      rfl
    · rw [addLora_row]
      exact ⟨htokens, hnum, hnoSpec, hprompt, hcomp, hblocks, rfl,
        fun p hsome => absurd (hp.symm.trans hsome) nofun⟩

/-! ### Removing and moving a request -/

theorem row_removeRequest {j : ℕ} (hj : j ≠ i) : (c.removeRequest i).row j = c.row j := by
  have hmask : (c.removeRequest i).mask j = c.mask j := by
    unfold mask removeRequest
    cases c.allowedTokenIdsMask with
    | none => rfl
    | some m => exact update_of_ne hj _ _
  unfold row
  rw [hmask]
  simp only [removeRequest, update_of_ne hj]

/-- A removed index has no generator, no bad words and a clean mask. -/
theorem removeRequest_clean (c : Columns) (i : ℕ) :
    (c.removeRequest i).generators i = none ∧ (c.removeRequest i).badWordsTokenIds i = none ∧
      (c.removeRequest i).mask i = fun _ => false := by
  refine ⟨update_self i _ _, update_self i _ _, ?_⟩
  unfold mask removeRequest
  cases c.allowedTokenIdsMask with
  | none => rfl
  | some m => exact update_self i _ _

theorem moveEntry_target {α : Type} {d : ℕ → Option α} {src tgt : ℕ} (hne : src ≠ tgt)
    (hclean : d tgt = none) : moveEntry d src tgt tgt = d src := by
  unfold moveEntry
  cases hsrc : d src with
  | some v => exact update_self tgt _ _
  | none => exact (update_of_ne hne.symm _ _).trans hclean

theorem moveEntry_source {α : Type} {d : ℕ → Option α} {src tgt : ℕ} (hne : src ≠ tgt) :
    moveEntry d src tgt src = none := by
  unfold moveEntry
  cases d src with
  | some v =>
    dsimp only
    rw [update_of_ne hne, update_self]
  | none => exact update_self src _ _

variable {src tgt j : ℕ}

theorem moveEntry_of_ne {α : Type} {d : ℕ → Option α} (hsrc : j ≠ src)
    (htgt : j ≠ tgt) : moveEntry d src tgt j = d j := by
  unfold moveEntry
  cases d src with
  | some v =>
    dsimp only
    rw [update_of_ne htgt, update_of_ne hsrc]
  | none => exact update_of_ne hsrc _ _

theorem mask_moveRequest (c : Columns) (src tgt : ℕ) :
    (c.moveRequest src tgt).mask tgt = c.mask src := by
  unfold mask moveRequest
  cases c.allowedTokenIdsMask with
  | none => rfl
  | some m => exact update_self tgt _ _

theorem mask_moveRequest_of_ne (hj : j ≠ tgt) : (c.moveRequest src tgt).mask j = c.mask j := by
  unfold mask moveRequest
  cases c.allowedTokenIdsMask with
  | none => rfl
  | some m => exact update_of_ne hj _ _

/-- The whole row goes from the source to the target, if the target is clean. -/
theorem row_moveRequest {src tgt : ℕ} (hne : src ≠ tgt) (hgen : c.generators tgt = none)
    (hbad : c.badWordsTokenIds tgt = none) : (c.moveRequest src tgt).row tgt = c.row src := by
  unfold row
  rw [mask_moveRequest]
  simp only [moveRequest, update_self, rowPrefix_copySlice, map_map,
    moveEntry_target hne hgen, moveEntry_target hne hbad, comp_def,
    BlockTable.row_moveRow]

theorem row_moveRequest_of_ne (hsrc : j ≠ src) (htgt : j ≠ tgt) :
    (c.moveRequest src tgt).row j = c.row j := by
  unfold row
  rw [mask_moveRequest_of_ne htgt]
  simp only [moveRequest, update_of_ne htgt, rowPrefix, copySlice_of_ne htgt,
    map_map, moveEntry_of_ne hsrc htgt, comp_def, BlockTable.row_moveRow_of_ne htgt]

theorem widths_moveRequest (c : Columns) (src tgt : ℕ) :
    (c.moveRequest src tgt).widths = c.widths := by
  simp only [widths, moveRequest, map_map, comp_def, BlockTable.moveRow]

end Columns

end Batch
