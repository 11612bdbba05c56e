import Mosaic.Attention.Reorder
import Mosaic.Table.Cells
import Mathlib.Tactic.Ring

/-!
# Chunked local attention by virtual batches

A model with chunked local attention lets a query see the keys of its own chunk only, up to itself.
Each request is turned into virtual batches, one for each chunk that has a query of it, and ordinary
causal attention is run over these. The lengths of the virtual batches and their rows of the block
table are computed by arithmetic on whole arrays.

A position of an array is a cell: a request and the number of one of its virtual batches. The
arithmetic is followed cell by cell.
-/

namespace Attention

open List Fallible Function Ragged Int

variable {σ : Type}

/-! ### The arithmetic -/

/-- The metadata of a batch whose keys stand in blocks. -/
structure PagedMetadata (σ : Type) extends CommonAttentionMetadata where
  seqLensCpu : List ℤ
  numComputedTokensCpu : List ℤ
  blockTableTensor : List (List ℕ)
  slotMapping : σ
  causal : Bool

def cdiv (a b : ℤ) : ℤ :=
  -(a.fdiv (-b))

/-- The lengths of the queries of the virtual batches: the first of a request may be a partial one,
and so may the last. -/
def seqlensQLocal (chunk : ℤ) (arange : List ℕ) (rest qTokensInFirstBlock : List ℤ) :
    Except Error (List ℤ) := do
  let seqlens ← orError .valueError (assignWhere (arange.map (· == 0)) rest qTokensInFirstBlock)
  let later := arange.map fun a => decide (0 < a)
  orError .valueError (assignWhere later seqlens (selectWhere later
    (List.zipWith (fun (len : ℤ) (a : ℕ) => min (len - chunk * ((a : ℤ) - 1)) chunk) seqlens
      arange)))

/-- The rows of the block table for the virtual batches. Its second dimension is `width`. -/
def blockTableLocal (pagesPerLocalBatch width actualBatchSize virtualBatches : ℕ)
    (blockTable : List (List ℕ)) (localBlocks : List ℕ) (blockStarts : List ℤ) :
    Except Error (List (List ℕ)) := do
  let blockIndices := (blockStarts.flatMap fun start =>
    (List.range pagesPerLocalBatch).map fun j : ℕ => (j : ℤ) + start).map
      fun k => min k ((width : ℤ) - 1)
  let batchIndices := repeatEach (List.range actualBatchSize)
    (localBlocks.map (· * pagesPerLocalBatch))
  let entries ← (batchIndices.zip blockIndices).mapM fun e => do
    let row ← orError .indexError blockTable[e.1]?
    orError .indexError (itemAt row e.2)
  .ok (view virtualBatches entries)

/-- `make_local_attention_virtual_batches`. The second dimension of the block table is `width`. -/
def makeLocalAttentionVirtualBatches (attnChunkSize blockSize width : ℕ)
    (metadata : PagedMetadata σ) : Except Error (PagedMetadata σ) := do
  let chunk : ℤ := attnChunkSize
  let qSeqlens := queryLens metadata.queryStartLocCpu
  let seqLens := metadata.seqLensCpu
  let qTokensInFirstBlock :=
    List.zipWith (fun s q => min (chunk - (s - q).fmod chunk) q) seqLens qSeqlens
  let tokensInLastBlock := seqLens.map fun s => chunk + s.fmod (-chunk)
  let localBlocks ← orError .valueError ((List.zipWith
    (fun q first => 1 + cdiv (q - first) chunk) qSeqlens qTokensInFirstBlock).mapM repetitions)
  let cuNumBlocks := cumsum localBlocks
  let virtualBatches ← orError .indexError cuNumBlocks.getLast?
  let blockOffsets := repeatEach (List.zipWith (· - ·) cuNumBlocks localBlocks) localBlocks
  let arange := List.zipWith (· - ·) (List.range' 0 virtualBatches) blockOffsets
  let rarange := List.zipWith (fun n a : ℕ => (n : ℤ) - a - 1) (repeatEach localBlocks localBlocks)
    arange
  let seqlensQLocal ← seqlensQLocal chunk arange
    (repeatEach (List.zipWith (· - ·) qSeqlens qTokensInFirstBlock) localBlocks) qTokensInFirstBlock
  -- all but the last virtual batch of a request have the keys of a whole chunk
  let seqlensKLocal ← orError .indexError (scatter (List.replicate virtualBatches chunk)
    (cuNumBlocks.map fun n : ℕ => (n : ℤ) - 1) tokensInLastBlock)
  let kSeqstartsAbsolute := List.zipWith (· - ·) (repeatEach seqLens localBlocks)
    (List.zipWith (fun r last => r * chunk + last) rarange
      (repeatEach tokensInLastBlock localBlocks))
  let blockStarts := kSeqstartsAbsolute.map fun k => k.fdiv blockSize
  if attnChunkSize % blockSize ≠ 0 then
    .error (.assertionError "attn_chunk_size % block_size == 0")
  else do
    let blockTableLocal ← blockTableLocal (attnChunkSize / blockSize) width seqLens.length
      virtualBatches metadata.blockTableTensor localBlocks blockStarts
    let maxQueryLen ← orError .valueError seqlensQLocal.max?
    .ok {
      queryStartLocCpu := seqlensQLocal.scanl (· + ·) 0
      seqLensCpu := seqlensKLocal
      numComputedTokensCpu := List.zipWith (· - ·) seqlensKLocal seqlensQLocal
      numReqs := seqlensKLocal.length
      numActualTokens := metadata.numActualTokens
      maxQueryLen := maxQueryLen
      blockTableTensor := blockTableLocal
      slotMapping := metadata.slotMapping
      causal := true }

/-! ### Requests and their views -/

/-- A request of the batch. It has a query, and its row of the block table has `width` entries. -/
structure Entry (width : ℕ) where
  queryLen : ℕ
  seqLen : ℕ
  blocks : List ℕ
  queryLen_pos : 1 ≤ queryLen
  queryLen_le : queryLen ≤ seqLen
  length_blocks : blocks.length = width

/-- The metadata of a batch. -/
def metadataOf {width : ℕ} (reqs : List (Entry width)) (slotMapping : σ) : PagedMetadata σ where
  toCommonAttentionMetadata := .ofTokens (reqs.map (·.queryLen))
  seqLensCpu := reqs.map fun r => (r.seqLen : ℤ)
  numComputedTokensCpu := reqs.map fun r => (r.seqLen : ℤ) - r.queryLen
  blockTableTensor := reqs.map (·.blocks)
  slotMapping := slotMapping
  causal := true

/-- The queries of a request that lie in one chunk: the positions from `first` on, with the keys
from the start of the chunk on. -/
structure View where
  request : ℕ
  chunk : ℕ
  first : ℕ
  queryLen : ℕ
  keyLen : ℕ

namespace Entry

variable {width : ℕ} (r : Entry width) (C : ℕ)

def computed : ℕ :=
  r.seqLen - r.queryLen

def firstChunk : ℕ :=
  r.computed / C

def numViews : ℕ :=
  (r.seqLen - 1) / C - r.firstChunk C + 1

/-- The view of the chunk with number `j` among those that have a query of the request. -/
def view (i j : ℕ) : View :=
  let chunk := r.firstChunk C + j
  let first := max r.computed (chunk * C)
  let stop := min r.seqLen ((chunk + 1) * C)
  { request := i, chunk, first, queryLen := stop - first, keyLen := stop - chunk * C }

/-- The queries in the first chunk, as the source computes them. -/
def qTokensInFirstBlock : ℤ :=
  min ((C : ℤ) - ((r.seqLen : ℤ) - r.queryLen).fmod C) r.queryLen

/-- The keys in the last chunk, as the source computes them. -/
def tokensInLastBlock : ℤ :=
  (C : ℤ) + (r.seqLen : ℤ).fmod (-(C : ℤ))

/-- Where the first query and the end of the request stand in their chunks. -/
structure Parts (c d a b : ℕ) : Prop where
  firstChunk : r.firstChunk C = c
  numViews : r.numViews C = d + 1
  computed : r.computed = c * C + a
  seqLen : r.seqLen = c * C + d * C + b + 1
  a_lt : a < C
  b_lt : b < C
  queryLen : (r.queryLen : ℤ) = r.seqLen - r.computed

theorem exists_parts (hC : 0 < C) : ∃ c d a b, r.Parts C c d a b := by
  have hpos := r.queryLen_pos
  have hle := r.queryLen_le
  have hdef : r.computed = r.seqLen - r.queryLen := rfl
  have hmono : r.computed / C ≤ (r.seqLen - 1) / C := Nat.div_le_div_right (by omega)
  obtain ⟨d, hd⟩ := Nat.exists_eq_add_of_le hmono
  have hfirst := Nat.div_add_mod r.computed C
  have hlast := Nat.div_add_mod (r.seqLen - 1) C
  rw [hd, mul_add, mul_comm C, mul_comm C d] at hlast
  rw [mul_comm C] at hfirst
  refine ⟨r.computed / C, d, r.computed % C, (r.seqLen - 1) % C, rfl, ?_, hfirst.symm, by omega,
    Nat.mod_lt _ hC, Nat.mod_lt _ hC, by omega⟩
  unfold numViews firstChunk
  omega

end Entry

/-! ### The arithmetic, cell by cell -/

theorem cdiv_eq {x y t : ℤ} {C : ℕ} (hx : x + t = y * C) (ht : 0 ≤ t) (htlt : t < C) :
    cdiv x C = y := by
  have huniq := (Int.fdiv_fmod_unique' (a := x) (b := -(C : ℤ)) (r := -t) (q := -y) (by omega)).mpr
    ⟨by rw [Int.neg_mul_neg, Int.mul_comm]; omega, by omega, by omega⟩
  rw [cdiv, huniq.1, Int.neg_neg]

namespace Entry

variable {width : ℕ} {r : Entry width} {C c d a b : ℕ}

theorem Parts.qTokensInFirstBlock (h : r.Parts C c d a b) :
    r.qTokensInFirstBlock C = min ((C : ℤ) - a) r.queryLen := by
  have hcomp : (r.seqLen : ℤ) - r.queryLen = a + (c : ℤ) * C := by
    have := h.queryLen
    push_cast [h.computed] at *
    omega
  rw [Entry.qTokensInFirstBlock, hcomp, add_mul_fmod_self_right,
    fmod_eq_of_lt (natCast_nonneg a) (ofNat_lt.mpr h.a_lt)]

theorem Parts.tokensInLastBlock (h : r.Parts C c d a b) : r.tokensInLastBlock C = b + 1 := by
  have hb := h.b_lt
  have huniq := (Int.fdiv_fmod_unique' (a := r.seqLen) (b := -(C : ℤ)) (r := (b : ℤ) + 1 - C)
    (q := -((c : ℤ) + d + 1)) (by omega)).mpr ⟨by
      rw [h.seqLen, Int.neg_mul_neg]
      push_cast
      ring, by omega, by omega⟩
  rw [Entry.tokensInLastBlock, huniq.2]
  omega

theorem localBlocks (r : Entry width) (hC : 0 < C) :
    1 + cdiv ((r.queryLen : ℤ) - r.qTokensInFirstBlock C) C = (r.numViews C : ℕ) := by
  obtain ⟨_, d, a, b, h⟩ := r.exists_parts C hC
  rw [h.qTokensInFirstBlock]
  have ha := h.a_lt
  have hb := h.b_lt
  have hq := h.queryLen
  rw [h.seqLen, h.computed] at hq
  rw [h.numViews]
  rcases Nat.eq_zero_or_pos d with rfl | hd
  · -- all queries lie in the first chunk
    have hmin : min ((C : ℤ) - a) r.queryLen = r.queryLen := by omega
    rw [hmin, cdiv_eq (y := 0) (t := 0) (by omega) (by omega) (by omega)]
    rfl
  · obtain ⟨n, rfl⟩ := Nat.exists_eq_add_of_lt hd
    rw [zero_add, add_mul, one_mul] at hq
    have hmin : min ((C : ℤ) - a) r.queryLen = (C : ℤ) - a := by omega
    rw [hmin, cdiv_eq (y := (n : ℤ) + 1) (t := (C : ℤ) - 1 - b) _ (by omega) (by omega)]
    · omega
    · rw [add_mul]
      omega

/-- The positions of a view, in multiples of the chunk. -/
theorem Parts.view_eq (h : r.Parts C c d a b) (i : ℕ) {j : ℕ} (hj : j < r.numViews C) :
    r.view C i j =
      { request := i
        chunk := c + j
        first := if j = 0 then c * C + a else c * C + j * C
        queryLen := (if j = d then c * C + d * C + b + 1 else c * C + j * C + C) -
          if j = 0 then c * C + a else c * C + j * C
        keyLen := if j = d then b + 1 else C } := by
  rw [h.numViews] at hj
  have ha := h.a_lt
  have hb := h.b_lt
  have hfirst : max (c * C + a) (c * C + j * C) = if j = 0 then c * C + a else c * C + j * C := by
    rcases Nat.eq_zero_or_pos j with rfl | hpos
    · rw [if_pos rfl]
      omega
    · have := Nat.le_mul_of_pos_left C hpos
      rw [if_neg (ne_of_gt hpos)]
      omega
  have hstop : min (c * C + d * C + b + 1) (c * C + j * C + 1 * C) =
      if j = d then c * C + d * C + b + 1 else c * C + j * C + C := by
    rcases Nat.eq_or_lt_of_le (Nat.le_of_lt_succ hj) with rfl | hlt
    · rw [if_pos rfl]
      omega
    · have := Nat.mul_le_mul_right C hlt
      rw [Nat.succ_mul] at this
      rw [if_neg (ne_of_lt hlt)]
      omega
  unfold view
  dsimp only
  rw [h.firstChunk, h.computed, h.seqLen, add_mul, add_mul, add_mul, hfirst, hstop]
  congr 1
  rcases Nat.eq_or_lt_of_le (Nat.le_of_lt_succ hj) with rfl | hlt
  · rw [if_pos rfl, if_pos rfl]
    omega
  · rw [if_neg (ne_of_lt hlt), if_neg (ne_of_lt hlt)]
    omega

theorem queryLen_view (r : Entry width) (hC : 0 < C) (i : ℕ) {j : ℕ} (hj : j < r.numViews C) :
    (if 0 < j then min ((if j = 0 then r.qTokensInFirstBlock C else
        (r.queryLen : ℤ) - r.qTokensInFirstBlock C) - C * ((j : ℤ) - 1)) C
      else if j = 0 then r.qTokensInFirstBlock C else
        (r.queryLen : ℤ) - r.qTokensInFirstBlock C) = (r.view C i j).queryLen := by
  obtain ⟨_, d, a, _, h⟩ := r.exists_parts C hC
  rw [h.view_eq i hj, h.qTokensInFirstBlock]
  rw [h.numViews] at hj
  have ha := h.a_lt
  have hb := h.b_lt
  have hq := h.queryLen
  rw [h.seqLen, h.computed] at hq
  rcases Nat.eq_zero_or_pos j with rfl | hpos
  · rw [if_neg (lt_irrefl 0), if_pos rfl]
    dsimp only
    rw [if_pos rfl]
    rcases Nat.eq_zero_or_pos d with rfl | hd
    · rw [if_pos rfl]
      omega
    · have := Nat.le_mul_of_pos_left C hd
      rw [if_neg (ne_of_lt hd)]
      omega
  · -- a later view starts with its chunk
    have hmul := Nat.le_mul_of_pos_left C hpos
    have hle := Nat.mul_le_mul_right C (Nat.le_of_lt_succ hj)
    have hmin : min ((C : ℤ) - a) r.queryLen = (C : ℤ) - a := by omega
    rw [if_pos hpos, if_neg (ne_of_gt hpos), hmin, mul_sub, mul_one, mul_comm (C : ℤ)]
    dsimp only
    rw [if_neg (ne_of_gt hpos)]
    rcases Nat.eq_or_lt_of_le (Nat.le_of_lt_succ hj) with rfl | hlt
    · rw [if_pos rfl]
      omega
    · have := Nat.mul_le_mul_right C hlt
      rw [Nat.succ_mul] at this
      rw [if_neg (ne_of_lt hlt)]
      omega

theorem keyLen_view (r : Entry width) (hC : 0 < C) (i : ℕ) {j : ℕ} (hj : j < r.numViews C) :
    (if j + 1 = r.numViews C then r.tokensInLastBlock C else C) = (r.view C i j).keyLen := by
  obtain ⟨_, d, _, _, h⟩ := r.exists_parts C hC
  rw [h.view_eq i hj, h.numViews, h.tokensInLastBlock]
  dsimp only
  by_cases hlast : j = d
  · rw [if_pos (by rw [hlast]), if_pos hlast]
    rfl
  · rw [if_neg (by omega), if_neg hlast]

/-- The keys of a view start with its chunk. -/
theorem keyStart_view (r : Entry width) (hC : 0 < C) (i : ℕ) {j : ℕ} (hj : j < r.numViews C) :
    (r.seqLen : ℤ) - (((r.numViews C : ℤ) - j - 1) * C + r.tokensInLastBlock C) =
      (((r.view C i j).chunk * C : ℕ) : ℤ) := by
  obtain ⟨_, _, _, _, h⟩ := r.exists_parts C hC
  rw [h.view_eq i hj, h.numViews, h.seqLen, h.tokensInLastBlock]
  push_cast
  ring

theorem numViews_pos (r : Entry width) : 0 < r.numViews C :=
  Nat.succ_pos _

end Entry

section Batch

variable {width : ℕ} (C : ℕ) (reqs : List (Entry width))

/-- One cell for each virtual batch: a request with its index, and a number. -/
def viewCells : List ((Entry width × ℕ) × ℕ) :=
  cells (fun e => e.1.numViews C) reqs.zipIdx

/-- The views of all requests. -/
def views : List View :=
  (viewCells C reqs).map fun e => e.1.1.view C e.1.2 e.2

variable {C reqs} {e : (Entry width × ℕ) × ℕ}

theorem getElem?_of_mem_viewCells (h : e ∈ viewCells C reqs) :
    reqs[e.1.2]? = some e.1.1 ∧ e.2 < e.1.1.numViews C := by
  obtain ⟨hmem, hlt⟩ := mem_cells.mp h
  exact ⟨mem_zipIdx_iff_getElem?.mp hmem, hlt⟩

theorem map_eq_map_zipIdx {α β : Type} (f : α → β) (xs : List α) :
    xs.map f = xs.zipIdx.map fun e => f e.1 := by
  conv_lhs => rw [← zipIdx_map_fst 0 xs]
  rw [map_map]
  rfl

/-- Where the block with number `j` of the chunk stands in the row of the request. -/
def blockColumn (C pages : ℕ) (e : (Entry width × ℕ) × ℕ) (j : ℕ) : ℕ :=
  min ((e.1.1.view C e.1.2 e.2).chunk * pages + j) (width - 1)

/-- The row of the block table for a virtual batch: the blocks of its chunk, as far as the table
has any. -/
def blockRow (C pages : ℕ) (e : (Entry width × ℕ) × ℕ) : List ℕ :=
  (List.range pages).map fun j => e.1.1.blocks.getD (blockColumn C pages e j) 0

theorem blocks_of_mem_viewCells (h : e ∈ viewCells C reqs) :
    (reqs.map Entry.blocks)[e.1.2]? = some e.1.1.blocks := by
  rw [getElem?_map, (getElem?_of_mem_viewCells h).1]
  rfl

theorem blocks_getD (h : e ∈ viewCells C reqs) :
    (reqs.map Entry.blocks).getD e.1.2 [] = e.1.1.blocks := by
  rw [getD_eq_getElem?_getD, blocks_of_mem_viewCells h]
  rfl

theorem blockTableLocal_eq_ok (pages : ℕ) (hwidth : 0 < width) (hreqs : viewCells C reqs ≠ []) :
    blockTableLocal pages width reqs.length (viewCells C reqs).length (reqs.map Entry.blocks)
        (reqs.zipIdx.map fun e => e.1.numViews C)
        ((viewCells C reqs).map fun e => (((e.1.1.view C e.1.2 e.2).chunk * pages : ℕ) : ℤ)) =
      .ok ((viewCells C reqs).map (blockRow C pages)) := by
  -- The column that each cell reads, after it is clamped to the table.
  have hidxs : (((viewCells C reqs).map
      fun e => (((e.1.1.view C e.1.2 e.2).chunk * pages : ℕ) : ℤ)).flatMap fun start =>
        (List.range pages).map fun j : ℕ => (j : ℤ) + start).map
          (fun k => min k ((width : ℤ) - 1)) =
      (viewCells C reqs).flatMap fun e => (List.range pages).map fun j =>
        (blockColumn C pages e j : ℤ) := by
    rw [flatMap_map, map_flatMap]
    congr 1
    funext e
    rw [map_map]
    apply map_congr_left
    intro j _
    simp only [comp_apply, blockColumn]
    omega
  -- The row that each cell reads: a request once for each page of each of its views.
  have hbatches : repeatEach (List.range reqs.length)
      ((reqs.zipIdx.map fun e => e.1.numViews C).map (· * pages)) =
      (viewCells C reqs).flatMap fun e => List.replicate pages e.1.2 := by
    rw [range_eq_range', ← zipIdx_map_snd 0 reqs, map_map]
    exact (repeatEach_map _ _ _).trans (cells_mul (fun e => e.2) _ pages reqs.zipIdx)
  have hzip : ∀ e : (Entry width × ℕ) × ℕ, (List.replicate pages e.1.2).zip ((List.range pages).map
      fun j => (blockColumn C pages e j : ℤ)) =
      (List.range pages).map fun j => (e.1.2,
        (blockColumn C pages e j : ℤ)) := by
    intro e
    apply ext_getElem
    · simp
    · intro k hk hk'
      simp
  unfold blockTableLocal
  dsimp only
  rw [hidxs, hbatches, zip_flatMap (by simp), flatMap_congr fun e _ => hzip e]
  -- Rows and columns are in range, so that the gather reads and never raises.
  have hread : ∀ e ∈ (viewCells C reqs).flatMap fun e => (List.range pages).map fun j => (e.1.2,
      (blockColumn C pages e j : ℤ)),
      (do
        let row ← orError Error.indexError (reqs.map Entry.blocks)[e.1]?
        orError Error.indexError (itemAt row e.2)) =
          .ok (((reqs.map Entry.blocks).getD e.1 []).getD e.2.toNat 0) := by
    intro e he
    obtain ⟨cell, hcell, he⟩ := mem_flatMap.mp he
    obtain ⟨j, -, rfl⟩ := mem_map.mp he
    have hlt : blockColumn C pages cell j < cell.1.1.blocks.length := by
      rw [cell.1.1.length_blocks, blockColumn]
      omega
    rw [orError_eq_ok.mpr (blocks_of_mem_viewCells hcell), blocks_getD hcell, toNat_natCast]
    refine (orError_eq_ok.mpr (itemAt_natCast (getElem?_eq_getElem hlt))).trans ?_
    rw [getD_eq_getElem?_getD, getElem?_eq_getElem hlt]
    rfl
  rw [mapM_eq_ok _ hread]
  refine congrArg Except.ok ?_
  rw [map_flatMap]
  have hrows : ∀ e ∈ viewCells C reqs, ((List.range pages).map fun j => (e.1.2,
      (blockColumn C pages e j : ℤ))).map
        (fun e => ((reqs.map Entry.blocks).getD e.1 []).getD e.2.toNat 0) = blockRow C pages e := by
    intro e he
    rw [map_map]
    apply map_congr_left
    intro j _
    simp only [comp_apply]
    rw [blocks_getD he, toNat_natCast]
  rw [flatMap_congr hrows]
  exact view_flatMap _ hreqs fun e _ => by rw [blockRow, length_map, length_range]

theorem seqlensQLocal_eq_ok (hC : 0 < C) :
    seqlensQLocal C (aranges (reqs.zipIdx.map fun e => e.1.numViews C))
        (repeatEach (reqs.zipIdx.map fun e => (e.1.queryLen : ℤ) - e.1.qTokensInFirstBlock C)
          (reqs.zipIdx.map fun e => e.1.numViews C))
        (reqs.zipIdx.map fun e => e.1.qTokensInFirstBlock C) =
      .ok ((views C reqs).map fun v => (v.queryLen : ℤ)) := by
  have hfirst := assignWhere_first (fun e : Entry width × ℕ => e.1.numViews C) reqs.zipIdx
    (fun e => e.1.qTokensInFirstBlock C)
    (fun e => (e.1.1.queryLen : ℤ) - e.1.1.qTokensInFirstBlock C) fun e _ => e.1.numViews_pos
  unfold seqlensQLocal
  rw [aranges_map, repeatEach_map, map_map, map_map]
  refine bind_eq_ok.mpr ⟨_, congrArg (orError _) hfirst, ?_⟩
  rw [zipWith_map, zipWith_self]
  refine (congrArg (orError _) (assignWhere_selectWhere _ _ _ _)).trans (congrArg Except.ok ?_)
  rw [views, map_map]
  apply map_congr_left
  intro e he
  simp only [comp_apply, decide_eq_true_eq]
  exact e.1.1.queryLen_view hC e.1.2 (getElem?_of_mem_viewCells he).2

/-- The numbers of the virtual batches inside their requests. -/
theorem arange_eq {counts : List ℕ} :
    List.zipWith (· - ·) (List.range' 0 counts.sum)
      (repeatEach (List.zipWith (· - ·) (cumsum counts) counts) counts) = aranges counts :=
  zipWith_range_repeatEach counts 0

theorem seqlensKLocal_eq (hC : 0 < C) :
    scatter (List.replicate (viewCells C reqs).length (C : ℤ))
        ((cumsum (reqs.zipIdx.map fun e => e.1.numViews C)).map fun n : ℕ => (n : ℤ) - 1)
        (reqs.zipIdx.map fun e => e.1.tokensInLastBlock C) =
      some ((views C reqs).map fun v => (v.keyLen : ℤ)) := by
  have hlast := scatter_last (fun e : Entry width × ℕ => e.1.numViews C) reqs.zipIdx
    (fun e => e.1.tokensInLastBlock C) (fun _ => (C : ℤ)) fun e _ => e.1.numViews_pos
  rw [map_const'] at hlast
  refine hlast.trans (congrArg some ?_)
  rw [views, map_map]
  apply map_congr_left
  intro e he
  exact e.1.1.keyLen_view hC e.1.2 (getElem?_of_mem_viewCells he).2

theorem kSeqstartsAbsolute_eq (hC : 0 < C) :
    List.zipWith (· - ·)
        (repeatEach (reqs.zipIdx.map fun e => (e.1.seqLen : ℤ))
          (reqs.zipIdx.map fun e => e.1.numViews C))
        (List.zipWith (fun r last : ℤ => r * C + last)
          (List.zipWith (fun n a : ℕ => (n : ℤ) - a - 1)
            (repeatEach (reqs.zipIdx.map fun e => e.1.numViews C)
              (reqs.zipIdx.map fun e => e.1.numViews C))
            (aranges (reqs.zipIdx.map fun e => e.1.numViews C)))
          (repeatEach (reqs.zipIdx.map fun e => e.1.tokensInLastBlock C)
            (reqs.zipIdx.map fun e => e.1.numViews C))) =
      (viewCells C reqs).map fun e => (((e.1.1.view C e.1.2 e.2).chunk * C : ℕ) : ℤ) := by
  rw [repeatEach_map, repeatEach_map, repeatEach_map, aranges_map, zipWith_map,
    zipWith_self, zipWith_map, zipWith_self, zipWith_map, zipWith_self]
  apply map_congr_left
  intro e he
  exact e.1.1.keyStart_view hC e.1.2 (getElem?_of_mem_viewCells he).2

/-- The metadata of the virtual batches. -/
def localMetadata (C pages : ℕ) (reqs : List (Entry width)) (slotMapping : σ) :
    PagedMetadata σ where
  queryStartLocCpu := ((views C reqs).map fun v => (v.queryLen : ℤ)).scanl (· + ·) 0
  seqLensCpu := (views C reqs).map fun v => (v.keyLen : ℤ)
  numComputedTokensCpu := (views C reqs).map fun v => (v.keyLen : ℤ) - v.queryLen
  numReqs := (views C reqs).length
  numActualTokens := ((reqs.map (·.queryLen)).sum : ℕ)
  maxQueryLen := ((views C reqs).map fun v => (v.queryLen : ℤ)).max?.getD 0
  blockTableTensor := (viewCells C reqs).map (blockRow C pages)
  slotMapping := slotMapping
  causal := true

theorem viewCells_ne_nil (hreqs : reqs ≠ []) : viewCells C reqs ≠ [] := by
  obtain ⟨r, _, rfl⟩ := exists_cons_of_ne_nil hreqs
  rw [viewCells, zipIdx_cons, cells_cons]
  refine append_ne_nil_of_left_ne_nil (fun h => ?_) _
  have hlen := congrArg List.length h
  rw [length_map, length_range] at hlen
  exact ne_of_gt r.numViews_pos hlen

/-- The whole arithmetic. -/
theorem makeLocalAttentionVirtualBatches_eq_ok {blockSize pages : ℕ} (hblock : 0 < blockSize)
    (hpages : 0 < pages) (hwidth : 0 < width) (hreqs : reqs ≠ []) (slotMapping : σ) :
    makeLocalAttentionVirtualBatches (pages * blockSize) blockSize width
        (metadataOf reqs slotMapping) =
      .ok (localMetadata (pages * blockSize) pages reqs slotMapping) := by
  have hC : 0 < pages * blockSize := mul_pos hpages hblock
  generalize hchunk : pages * blockSize = C at hC ⊢
  let rs := reqs.zipIdx
  let counts := rs.map fun e => e.1.numViews C
  -- What the metadata records, over the requests with their indices.
  have hq : queryLens (metadataOf reqs slotMapping).queryStartLocCpu =
      rs.map fun e => (e.1.queryLen : ℤ) := by
    refine (queryLens_cumsumFrom 0 _).trans ?_
    rw [map_map]
    exact map_eq_map_zipIdx _ reqs
  have hs : (metadataOf reqs slotMapping).seqLensCpu = rs.map fun e => (e.1.seqLen : ℤ) :=
    map_eq_map_zipIdx _ reqs
  -- The number of views of each request, and the total.
  have hcounts : (rs.map fun e => ((e.1.numViews C : ℕ) : ℤ)).mapM repetitions = some counts := by
    have hrepetitions := mapM_repetitions_natCast counts
    rwa [map_map] at hrepetitions
  have hvirtual : (cumsum counts).getLast? = some (viewCells C reqs).length := by
    have hne : counts ≠ [] := by
      intro h
      rw [map_eq_nil_iff, zipIdx_eq_nil_iff] at h
      exact hreqs h
    rw [viewCells, length_cells]
    exact (getLast?_cumsumFrom hne 0).trans (by rw [zero_add])
  have hsum : (viewCells C reqs).length = counts.sum := length_cells _ _
  have hlocal : List.zipWith (fun q first => 1 + cdiv (q - first) C)
      (rs.map fun e => (e.1.queryLen : ℤ)) (rs.map fun e => e.1.qTokensInFirstBlock C) =
        rs.map fun e => ((e.1.numViews C : ℕ) : ℤ) := by
    rw [zipWith_map, zipWith_self]
    exact map_congr_left fun e _ => e.1.localBlocks hC
  -- The first page of the chunk that a view lies in.
  have hstarts : ((viewCells C reqs).map fun e =>
      (((e.1.1.view C e.1.2 e.2).chunk * C : ℕ) : ℤ)).map (fun k => k.fdiv blockSize) =
        (viewCells C reqs).map fun e =>
          (((e.1.1.view C e.1.2 e.2).chunk * pages : ℕ) : ℤ) := by
    rw [map_map]
    apply map_congr_left
    intro e _
    rw [comp_apply, ← hchunk, ← mul_assoc, ← ofNat_fdiv,
      Nat.mul_div_cancel _ hblock]
  have hmax : orError Error.valueError ((views C reqs).map fun v => (v.queryLen : ℤ)).max? =
      .ok (((views C reqs).map fun v => (v.queryLen : ℤ)).max?.getD 0) := by
    cases hcases : ((views C reqs).map fun v => (v.queryLen : ℤ)).max? with
    | none =>
      rw [max?_eq_none_iff, map_eq_nil_iff, views, map_eq_nil_iff] at hcases
      exact absurd hcases (viewCells_ne_nil hreqs)
    | some m => rfl
  -- Then the arrays of the source, one after the other.
  unfold makeLocalAttentionVirtualBatches
  dsimp only
  rw [hq, hs, zipWith_map, zipWith_self, map_map]
  refine bind_eq_ok.mpr ⟨counts, orError_eq_ok.mpr ((congrArg _ hlocal).trans hcounts), ?_⟩
  refine bind_eq_ok.mpr ⟨_, congrArg _ hvirtual, ?_⟩
  rw [hsum, arange_eq, zipWith_map, zipWith_self]
  refine bind_eq_ok.mpr ⟨_, seqlensQLocal_eq_ok hC, ?_⟩
  rw [← hsum]
  refine bind_eq_ok.mpr ⟨_, congrArg _ (seqlensKLocal_eq hC), ?_⟩
  rw [← hchunk, if_neg (not_not_intro (Nat.mul_mod_left _ _)), Nat.mul_div_cancel _ hblock, hchunk]
  have htable := blockTableLocal_eq_ok pages hwidth (viewCells_ne_nil (C := C) hreqs)
  have hblocks := (congrArg (List.map fun k => k.fdiv blockSize) (kSeqstartsAbsolute_eq hC)).trans
    hstarts
  refine bind_eq_ok.mpr ⟨(viewCells C reqs).map (blockRow C pages), ?_, ?_⟩
  · refine (congrArg (blockTableLocal _ _ _ _ _ _) hblocks).trans ?_
    rw [length_map, length_zipIdx]
    exact htable
  · refine bind_eq_ok.mpr ⟨_, hmax, ?_⟩
    rw [zipWith_map, zipWith_self, length_map]
    rfl

end Batch

/-! ### Chunk-local attention -/

/-- Causal attention of `queryLen` queries to `keyLen` keys, the last query at the last key. -/
def BottomRightCausal (queryLen keyLen query key : ℕ) : Prop :=
  key < keyLen ∧ key + queryLen ≤ query + keyLen

/-- A query sees the keys of its own chunk up to itself. -/
def ChunkLocal (C query key : ℕ) : Prop :=
  key ≤ query ∧ key / C = query / C

namespace View

variable {C : ℕ} {v : View}

/-- The queries of the view lie in its chunk, and its keys reach from the start of the chunk up to
the last query. -/
structure InChunk (C : ℕ) (v : View) : Prop where
  start_le : v.chunk * C ≤ v.first
  le_stop : v.first + v.queryLen ≤ v.chunk * C + C
  queryLen_pos : 0 < v.queryLen
  keys : v.chunk * C + v.keyLen = v.first + v.queryLen

theorem div_eq_of_mem {c p : ℕ} (hle : c * C ≤ p) (hlt : p < c * C + C) : p / C = c :=
  Nat.div_eq_of_lt_le hle (by rwa [Nat.succ_mul])

theorem InChunk.div_eq (h : v.InChunk C) {p : ℕ} (hle : v.first ≤ p)
    (hlt : p < v.first + v.queryLen) : p / C = v.chunk :=
  div_eq_of_mem (le_trans h.start_le hle) (lt_of_lt_of_le hlt h.le_stop)

/-- Causal attention inside the view is chunk-local attention. -/
theorem InChunk.attends_iff (h : v.InChunk C) {a : ℕ} (ha : a < v.queryLen) (m : ℕ) :
    (∃ k, BottomRightCausal v.queryLen v.keyLen a k ∧ m = v.chunk * C + k) ↔
      ChunkLocal C (v.first + a) m := by
  have hstart := h.start_le
  have hstop := h.le_stop
  have hkeys := h.keys
  have hquery : (v.first + a) / C = v.chunk := h.div_eq (by omega) (by omega)
  constructor
  · rintro ⟨k, ⟨hk, hcausal⟩, rfl⟩
    refine ⟨by omega, ?_⟩
    rw [hquery]
    exact div_eq_of_mem (by omega) (by omega)
  · rintro ⟨hle, hdiv⟩
    rw [hquery] at hdiv
    have hmem : v.chunk * C ≤ m := hdiv ▸ Nat.div_mul_le_self m C
    refine ⟨m - v.chunk * C, ⟨by omega, by omega⟩, by omega⟩

end View

namespace Entry

variable {width C : ℕ}

theorem inChunk_view (r : Entry width) (hC : 0 < C) (i : ℕ) {j : ℕ} (hj : j < r.numViews C) :
    (r.view C i j).InChunk C := by
  obtain ⟨_, d, _, _, h⟩ := r.exists_parts C hC
  rw [h.view_eq i hj]
  rw [h.numViews] at hj
  have ha := h.a_lt
  have hb := h.b_lt
  have hq := h.queryLen
  have hpos := r.queryLen_pos
  rw [h.seqLen, h.computed] at hq
  have hle := Nat.mul_le_mul_right C (Nat.le_of_lt_succ hj)
  have hend : j ≠ d → j * C + C ≤ d * C := by
    intro hne
    have := Nat.mul_le_mul_right C (lt_of_le_of_ne (Nat.le_of_lt_succ hj) hne)
    rwa [Nat.succ_mul] at this
  have hzero : j = 0 → j * C = 0 := fun h => by rw [h, zero_mul]
  have hlast : j = d → j * C = d * C := fun h => by rw [h]
  constructor
  case start_le =>
    dsimp only
    rw [add_mul]
    split_ifs <;> omega
  case le_stop =>
    dsimp only
    rw [add_mul]
    split_ifs <;> omega
  case queryLen_pos =>
    dsimp only
    split_ifs <;> omega
  case keys =>
    dsimp only
    rw [add_mul]
    split_ifs <;> omega

/-- The views of a request have its queries, in order. -/
theorem flatMap_view (r : Entry width) (hC : 0 < C) (i : ℕ) :
    (List.range (r.numViews C)).flatMap
        (fun j => List.range' (r.view C i j).first (r.view C i j).queryLen) =
      List.range' r.computed r.queryLen := by
  obtain ⟨c, d, a, _, h⟩ := r.exists_parts C hC
  have ha := h.a_lt
  have hb := h.b_lt
  have hq := h.queryLen
  have hpos := r.queryLen_pos
  rw [h.seqLen, h.computed] at hq
  -- a view reaches up to the start of the next chunk, the last one to the end of the request
  let bound : ℕ → ℕ := fun j =>
    if j = 0 then r.computed else if j = d + 1 then r.seqLen else c * C + j * C
  have hbounds : ∀ j < r.numViews C, (r.view C i j).first = bound j ∧
      (r.view C i j).first + (r.view C i j).queryLen = bound (j + 1) := by
    intro j hj
    rw [h.view_eq i hj]
    rw [h.numViews] at hj
    have hle := Nat.mul_le_mul_right C (Nat.le_of_lt_succ hj)
    have hzero : j = 0 → j * C = 0 := fun h => by rw [h, zero_mul]
    have hlast : j = d → j * C = d * C := fun h => by rw [h]
    simp only [bound, h.computed, h.seqLen, Nat.succ_mul, if_neg (Nat.succ_ne_zero j)]
    constructor
    · split_ifs <;> omega
    · split_ifs <;> omega
  rw [(flatMap_range' bound hbounds).2, h.numViews]
  have hlen : bound (d + 1) - bound 0 = r.queryLen := by
    simp only [bound, if_neg (Nat.succ_ne_zero d), if_true, h.computed, h.seqLen]
    omega
  rw [hlen]
  rfl

end Entry

section Batch

variable {width : ℕ} {reqs : List (Entry width)} {C : ℕ}

/-- The queries of the batch, request by request. -/
def queries (reqs : List (Entry width)) : List (ℕ × ℕ) :=
  reqs.zipIdx.flatMap fun e =>
    (List.range' (e.1.seqLen - e.1.queryLen) e.1.queryLen).map (e.2, ·)

/-- The views have the queries of the batch, in order. -/
theorem flatMap_views (hC : 0 < C) :
    (views C reqs).flatMap (fun v => (List.range' v.first v.queryLen).map (v.request, ·)) =
      queries reqs := by
  unfold views viewCells cells queries
  rw [flatMap_map, flatMap_assoc]
  apply flatMap_congr
  intro e _
  have hviews := congrArg (List.map (e.2, ·)) (e.1.flatMap_view hC e.2)
  rw [map_flatMap] at hviews
  rw [flatMap_map]
  exact hviews

/-- The row of a virtual batch lists the blocks of its chunk that the request has. -/
theorem blockRow_spec {pages : ℕ} {e : (Entry width × ℕ) × ℕ} :
    (blockRow C pages e).length = pages ∧
      ∀ j < pages, (e.1.1.view C e.1.2 e.2).chunk * pages + j < width →
        (blockRow C pages e)[j]? =
          e.1.1.blocks[(e.1.1.view C e.1.2 e.2).chunk * pages + j]? := by
  refine ⟨by rw [blockRow, length_map, length_range], fun j hj hlt => ?_⟩
  have hcol : blockColumn C pages e j = (e.1.1.view C e.1.2 e.2).chunk * pages + j :=
    min_eq_left (by omega)
  have hblocks : (e.1.1.view C e.1.2 e.2).chunk * pages + j < e.1.1.blocks.length :=
    Nat.lt_of_lt_of_eq hlt e.1.1.length_blocks.symm
  rw [blockRow, getElem?_map, getElem?_range hj, Option.map_some, hcol,
    getD_eq_getElem?_getD, getElem?_eq_getElem hblocks]
  rfl

end Batch

/-- The arithmetic returns for every batch with a request. Its virtual batches have the queries of
the requests, in order. The queries of a virtual batch lie in one chunk, its keys reach from the
start of this chunk up to its last query, and its row of the block table lists the blocks of the
chunk. Causal attention inside the virtual batches is chunk-local attention. -/
theorem localAttention_spec {width : ℕ} (blockSize pages : ℕ) (hblock : 0 < blockSize)
    (hpages : 0 < pages) (hwidth : 0 < width) (reqs : List (Entry width)) (hreqs : reqs ≠ [])
    (slotMapping : σ) :
    ∃ (result : PagedMetadata σ) (vs : List View),
      makeLocalAttentionVirtualBatches (pages * blockSize) blockSize width
        (metadataOf reqs slotMapping) = .ok result ∧
      result.causal = true ∧
      result.queryStartLocCpu = (vs.map fun v => (v.queryLen : ℤ)).scanl (· + ·) 0 ∧
      result.seqLensCpu = (vs.map fun v => (v.keyLen : ℤ)) ∧
      vs.flatMap (fun v => (List.range' v.first v.queryLen).map (v.request, ·)) = queries reqs ∧
      ∀ (n : ℕ) (v : View), vs[n]? = some v →
        0 < v.queryLen ∧
        (∀ p, v.first ≤ p → p < v.first + v.queryLen → p / (pages * blockSize) = v.chunk) ∧
        v.chunk * (pages * blockSize) + v.keyLen = v.first + v.queryLen ∧
        (∃ r row, reqs[v.request]? = some r ∧ result.blockTableTensor[n]? = some row ∧
          row.length = pages ∧ ∀ j < pages, v.chunk * pages + j < width →
            row[j]? = r.blocks[v.chunk * pages + j]?) ∧
        ∀ a < v.queryLen, ∀ m,
          (∃ k, BottomRightCausal v.queryLen v.keyLen a k ∧
            m = v.chunk * (pages * blockSize) + k) ↔
          ChunkLocal (pages * blockSize) (v.first + a) m := by
  have hC : 0 < pages * blockSize := mul_pos hpages hblock
  refine ⟨_, views (pages * blockSize) reqs,
    makeLocalAttentionVirtualBatches_eq_ok hblock hpages hwidth hreqs slotMapping, rfl, rfl, rfl,
    flatMap_views hC, fun n v hv => ?_⟩
  rw [views, getElem?_map] at hv
  obtain ⟨e, he, rfl⟩ := Option.map_eq_some_iff.mp hv
  obtain ⟨hreq, hlt⟩ := getElem?_of_mem_viewCells (mem_of_getElem? he)
  have hchunk := e.1.1.inChunk_view hC e.1.2 hlt
  refine ⟨hchunk.queryLen_pos, fun p => hchunk.div_eq, hchunk.keys,
    ⟨e.1.1, blockRow (pages * blockSize) pages e, hreq, ?_, blockRow_spec⟩,
    fun a ha => hchunk.attends_iff ha⟩
  exact (getElem?_map ..).trans (congrArg (Option.map _) he)

/-- Two requests, the first with a query that starts in the middle of a chunk. -/
theorem localAttention_spec_two : ∃ result, makeLocalAttentionVirtualBatches 4 2 3
    (metadataOf [⟨4, 6, [0, 1, 2], by decide, by decide, rfl⟩,
      ⟨1, 4, [3, 4, 5], by decide, by decide, rfl⟩] ()) = .ok result := by
  obtain ⟨result, _, hok, -⟩ := localAttention_spec 2 2 (by decide) (by decide) (by decide)
    [⟨4, 6, [0, 1, 2], by decide, by decide, rfl⟩,
      ⟨1, 4, [3, 4, 5], by decide, by decide, rfl⟩] (by simp) ()
  exact ⟨result, hok⟩

end Attention
