import Mosaic.Block.ChunkLoops
import Mosaic.Block.ForwardSafety

/-!
# Chunks change nothing

The chunk loops and the graph builder compute the size of a chunk on their own. They agree, so the
scratch tensors of the chunkwise graph have room for every round, and as the operators work row by
row, the rounds together produce what one pass over all rows produces.
-/

namespace Block

open List Fallible Function Chunks Graph

section Rows

variable {ρ γ σ : Type} {views : Views} {t u : Activations ρ}

/-! ### Stores -/

theorem length_put (rows new : List ρ) {lo : ℕ} (h : lo + new.length ≤ rows.length) :
    (put rows lo new).length = rows.length := by
  simp only [put, length_append, List.length_take, length_drop]
  omega

theorem take_put (rows new : List ρ) {lo : ℕ} (h : lo ≤ rows.length) :
    (put rows lo new).take (lo + new.length) = rows.take lo ++ new := by
  have hlen : (rows.take lo ++ new).length = lo + new.length := by
    rw [length_append, List.length_take, min_eq_left h]
  rw [put, ← hlen, take_left]

theorem piece_put (rows new : List ρ) {lo : ℕ} (h : lo ≤ rows.length) :
    piece (put rows lo new) lo (lo + new.length) = new := by
  have hlen : (rows.take lo).length = lo := by rw [List.length_take, min_eq_left h]
  rw [piece, put, append_assoc, drop_left' hlen, Nat.add_sub_cancel_left, take_left]

/-- A store that succeeded: the view holds the new rows, and other tensors are as before. -/
structure Written (views : Views) (out : TensorName) (rows : List ρ) (t u : Activations ρ) :
    Prop where
  view : views.read u out = rows
  tensor : u out = put (t out) (views out).1 rows
  length : ∀ name, (u name).length = (t name).length
  others : ∀ name, name ≠ out → u name = t name

variable {lo n : ℕ} {out : TensorName}

theorem exists_write (t : Activations ρ) (rows : List ρ)
    (hview : views out = (lo, lo + n)) (hroom : lo + n ≤ (t out).length)
    (hrows : rows.length = n) :
    ∃ u, views.write out rows t = .ok u ∧ Written views out rows t u := by
  have hread : (views.read t out).length = rows.length := by
    rw [Views.read, hview, length_piece hroom, hrows, Nat.add_sub_cancel_left]
  refine ⟨_, if_pos hread, ⟨?_, update_self .., fun name => ?_, fun name hne =>
    update_of_ne hne ..⟩⟩
  · rw [Views.read, update_self, hview, ← hrows]
    exact piece_put _ _ (by omega)
  · by_cases hname : name = out
    · subst hname
      rw [update_self, hview, length_put _ _ (by omega)]
    · rw [update_of_ne hname]

theorem Written.read_of_ne {out name : TensorName} {rows : List ρ}
    (h : Written views out rows t u) (hne : name ≠ out) :
    views.read u name = views.read t name := by
  rw [Views.read, Views.read, h.others name hne]

theorem length_read {name : TensorName} (hview : views name = (lo, lo + n))
    (hroom : lo + n ≤ (t name).length) : (views.read t name).length = n := by
  rw [Views.read, hview, length_piece hroom, Nat.add_sub_cancel_left]

/-! ### One round -/

/-- A round computes `n` rows of the output from the same rows of the input. -/
structure Round (f : ρ → ρ) (out : TensorName) (lo n : ℕ) (t u : Activations ρ) : Prop where
  output : u out = put (t out) lo ((piece (t .xNormed2) lo (lo + n)).map f)
  input : u .xNormed2 = t .xNormed2
  length : ∀ name, (u name).length = (t name).length

/-- A gated feed-forward part on views that fit is a round. -/
theorem mlpOn_round (views : Views) (ops : MlpOps ρ) {gate up gated : TensorName}
    (distinct : [.xNormed2, gate, up, gated, .mlpOutput].Nodup)
    (hinput : views .xNormed2 = (lo, lo + n)) (houtput : views .mlpOutput = (lo, lo + n))
    (hscratch : ∀ name ∈ [gate, up, gated], views name = (0, 0 + n))
    (hx : lo + n ≤ (t .xNormed2).length) (hout : lo + n ≤ (t .mlpOutput).length)
    (hroom : ∀ name ∈ [gate, up, gated], 0 + n ≤ (t name).length) :
    ∃ u, mlpOn ops gate up gated views t = .ok u ∧ Round ops.row .mlpOutput lo n t u := by
  simp only [nodup_cons, mem_cons, not_mem_nil, or_false, not_or] at distinct
  obtain ⟨⟨hxg, hxu, hxd, hxo⟩, ⟨hgu, -, hgo⟩, ⟨-, huo⟩, hdo, -⟩ := distinct
  have hvg := hscratch gate (by simp)
  have hvu := hscratch up (by simp)
  have hvd := hscratch gated (by simp)
  have hlx := length_read hinput hx
  -- the five stores, one after the other
  obtain ⟨t₁, h₁, w₁⟩ := exists_write t ((views.read t .xNormed2).map ops.gateProj) hvg
    (hroom gate (by simp)) (by rw [length_map, hlx])
  obtain ⟨t₂, h₂, w₂⟩ := exists_write t₁ ((views.read t₁ .xNormed2).map ops.upProj) hvu
    (by rw [w₁.length]; exact hroom up (by simp))
    (by rw [w₁.read_of_ne hxg, length_map, hlx])
  obtain ⟨t₃, h₃, w₃⟩ := exists_write t₂ ((views.read t₂ gate).map ops.silu) hvg
    (by rw [w₂.length, w₁.length]; exact hroom gate (by simp))
    (by rw [w₂.read_of_ne hgu, w₁.view, length_map, length_map, hlx])
  have hgate : views.read t₃ gate =
      (views.read t .xNormed2).map fun x => ops.silu (ops.gateProj x) := by
    rw [w₃.view, w₂.read_of_ne hgu, w₁.view, List.map_map]
    rfl
  have hup : views.read t₃ up = (views.read t .xNormed2).map ops.upProj := by
    rw [w₃.read_of_ne (Ne.symm hgu), w₂.view, w₁.read_of_ne hxg]
  have hmul : List.zipWith ops.mul (views.read t₃ gate) (views.read t₃ up) =
      (views.read t .xNormed2).map fun x =>
        ops.mul (ops.silu (ops.gateProj x)) (ops.upProj x) := by
    rw [hgate, hup, zipWith_map, zipWith_self]
  obtain ⟨t₄, h₄, w₄⟩ := exists_write t₃
    (List.zipWith ops.mul (views.read t₃ gate) (views.read t₃ up)) hvd
    (by rw [w₃.length, w₂.length, w₁.length]; exact hroom gated (by simp))
    (by rw [hmul, length_map, hlx])
  obtain ⟨t₅, h₅, w₅⟩ := exists_write t₄
    ((views.read t₄ gated).map ops.downProj) houtput
    (by rw [w₄.length, w₃.length, w₂.length, w₁.length]; exact hout)
    (by rw [w₄.view, hmul, length_map, length_map, hlx])
  refine ⟨t₅, ?_, ⟨?_, ?_, fun name => ?_⟩⟩
  · exact bind_eq_ok.mpr ⟨t₁, h₁, bind_eq_ok.mpr ⟨t₂, h₂,
      bind_eq_ok.mpr ⟨t₃, h₃, bind_eq_ok.mpr ⟨t₄, h₄, h₅⟩⟩⟩⟩
  · rw [w₅.tensor, w₄.others _ (Ne.symm hdo), w₃.others _ (Ne.symm hgo),
      w₂.others _ (Ne.symm huo), w₁.others _ (Ne.symm hgo), w₄.view, hmul, List.map_map, houtput,
      Views.read, hinput]
    rfl
  · rw [w₅.others _ hxo, w₄.others _ hxd, w₃.others _ hxg, w₂.others _ hxu, w₁.others _ hxg]
  · rw [w₅.length, w₄.length, w₃.length, w₂.length, w₁.length]

/-- Rows that come from tokens in groups of `k`, in their groups again. -/
theorem groups_flatMap {k : ℕ} {f : ρ → List ρ} (hf : ∀ x, (f x).length = k) (rows : List ρ) :
    groups k rows.length (rows.flatMap f) = rows.map f := by
  induction rows with
  | nil => rfl
  | cons x rest ih =>
    have first : piece (f x ++ rest.flatMap f) (0 * k) (0 * k + k) = f x := by
      rw [piece, Nat.zero_mul, drop_zero, Nat.zero_add, Nat.sub_zero, take_left' (hf x)]
    have later : ∀ i, piece (f x ++ rest.flatMap f) ((i + 1) * k) ((i + 1) * k + k) =
        piece (rest.flatMap f) (i * k) (i * k + k) := by
      intro i
      rw [piece, piece, Nat.add_sub_cancel_left, Nat.add_sub_cancel_left, Nat.add_one_mul,
        Nat.add_comm (i * k) k, ← hf x, drop_length_add_append]
    rw [flatMap_cons, groups, length_cons, range_succ_eq_map, map_cons, first,
      List.map_map, map_cons, ← ih, groups]
    exact congrArg _ (map_congr_left fun i _ => later i)

/-- The experts on views that fit are a round. -/
theorem expertsOn_round (views : Views) (ops : MoeOps ρ γ) {router : List γ}
    (hinput : views .xNormed2 = (lo, lo + n)) (houtput : views .moeOutput = (lo, lo + n))
    (hcache₁ : views .moeCache1 = (0, 0 + n)) (hcache₂ : views .moeCache2 = (0, 0 + n * topK))
    (hcache₃ : views .moeCache3 = (0, 0 + n))
    (hx : lo + n ≤ (t .xNormed2).length) (hout : lo + n ≤ (t .moeOutput).length)
    (hroom₁ : 0 + n ≤ (t .moeCache1).length) (hroom₂ : 0 + n * topK ≤ (t .moeCache2).length)
    (hroom₃ : 0 + n ≤ (t .moeCache3).length)
    (hrouter : router = (piece (t .xNormed2) lo (lo + n)).map ops.gate) :
    ∃ u, expertsOn ops views router t = .ok u ∧ Round ops.row .moeOutput lo n t u := by
  have hlx := length_read hinput hx
  have hrouter' : router = (views.read t .xNormed2).map ops.gate := by
    rw [hrouter, Views.read, hinput]
  have hlr : router.length = n := by rw [hrouter', length_map, hlx]
  -- the four stores, one after the other
  have hgemm₁ : List.zipWith ops.moeGemm1 (views.read t .xNormed2) router =
      (views.read t .xNormed2).map fun x => ops.moeGemm1 x (ops.gate x) := by
    rw [hrouter', zipWith_map_right, zipWith_self]
  obtain ⟨t₁, h₁, w₁⟩ := exists_write t
    (List.zipWith ops.moeGemm1 (views.read t .xNormed2) router) hcache₁ hroom₁
    (by rw [hgemm₁, length_map, hlx])
  obtain ⟨t₂, h₂, w₂⟩ := exists_write t₁ ((views.read t₁ .moeCache1).flatMap ops.siluAndMul)
    hcache₂ (by rw [w₁.length]; exact hroom₂)
    (by
      simp only [w₁.view, hgemm₁, length_flatMap, ops.length_siluAndMul, map_const',
        length_map, hlx, sum_replicate_nat])
  have hgroups : groups topK router.length (views.read t₂ .moeCache2) =
      (views.read t .xNormed2).map fun x => ops.siluAndMul (ops.moeGemm1 x (ops.gate x)) := by
    have hcount : router.length =
        ((views.read t .xNormed2).map fun x => ops.moeGemm1 x (ops.gate x)).length := by
      rw [length_map, hlx, hlr]
    rw [w₂.view, w₁.view, hgemm₁, hcount, groups_flatMap ops.length_siluAndMul, List.map_map]
    rfl
  have hgemm₂ : List.zipWith ops.moeGemm2
      (groups topK router.length (views.read t₂ .moeCache2)) router =
      (views.read t .xNormed2).map fun x =>
        ops.moeGemm2 (ops.siluAndMul (ops.moeGemm1 x (ops.gate x))) (ops.gate x) := by
    rw [hgroups, hrouter', zipWith_map, zipWith_self]
  obtain ⟨t₃, h₃, w₃⟩ := exists_write t₂ (List.zipWith ops.moeGemm2
      (groups topK router.length (views.read t₂ .moeCache2)) router) hcache₃
    (by rw [w₂.length, w₁.length]; exact hroom₃) (by rw [hgemm₂, length_map, hlx])
  obtain ⟨t₄, h₄, w₄⟩ := exists_write t₃ ((views.read t₃ .moeCache3).map ops.moeSum) houtput
    (by rw [w₃.length, w₂.length, w₁.length]; exact hout)
    (by rw [w₃.view, hgemm₂, length_map, length_map, hlx])
  refine ⟨t₄, ?_, ⟨?_, ?_, fun name => ?_⟩⟩
  · exact bind_eq_ok.mpr ⟨t₁, h₁, bind_eq_ok.mpr ⟨t₂, h₂, bind_eq_ok.mpr ⟨t₃, h₃, h₄⟩⟩⟩
  · rw [w₄.tensor, w₃.others _ (by decide), w₂.others _ (by decide), w₁.others _ (by decide),
      w₃.view, hgemm₂, List.map_map, houtput, Views.read, hinput]
    rfl
  · rw [w₄.others _ (by decide), w₃.others _ (by decide), w₂.others _ (by decide),
      w₁.others _ (by decide)]
  · rw [w₄.length, w₃.length, w₂.length, w₁.length]

/-! ### All rounds -/

/-- A round extends the computed rows of the output. -/
theorem Round.take_output {f : ρ → ρ} (round : Round f out lo n t u)
    (hx : lo + n ≤ (t .xNormed2).length) (hout : lo + n ≤ (t out).length)
    (done : (t out).take lo = ((t .xNormed2).map f).take lo) :
    (u out).take (lo + n) = ((t .xNormed2).map f).take (lo + n) := by
  have hlen : ((piece (t .xNormed2) lo (lo + n)).map f).length = n := by
    rw [length_map, length_piece hx, Nat.add_sub_cancel_left]
  have htake := take_put (t out) ((piece (t .xNormed2) lo (lo + n)).map f)
    (Nat.le_of_add_right_le hout)
  rw [hlen] at htake
  rw [round.output, htake, done, ← piece_map, take_append_piece _ (Nat.le_add_right lo n)]

/-- A loop that has computed the output up to a row. -/
structure Done (f : ρ → ρ) (out : TensorName) (t : Activations ρ) (rows : ℕ)
    (s : Activations ρ) : Prop where
  input : s .xNormed2 = t .xNormed2
  length : ∀ name, (s name).length = (t name).length
  output : (s out).take rows = ((t .xNormed2).map f).take rows

/-- Rounds over all chunks compute every row. -/
theorem rounds_output {f : ρ → ρ} {tile : ℕ} (htile : 0 < tile)
    {body : ℕ → ℕ → Activations ρ → Except RowError (Activations ρ)}
    (hout : (t out).length = (t .xNormed2).length)
    (round : ∀ lo n s, 0 < n → n ≤ tile → lo + n ≤ (t .xNormed2).length →
      s .xNormed2 = t .xNormed2 → (∀ name, (s name).length = (t name).length) →
      ∃ u, body lo (lo + n) s = .ok u ∧ Round f out lo n s u) :
    ∃ u, forChunks (t .xNormed2).length tile body t = .ok u ∧
      u out = (t .xNormed2).map f := by
  have loop : ∃ u, (bounds (t .xNormed2).length tile).foldlM (fun s b => body b.1 b.2 s) t =
      .ok u ∧ Done f out t (t .xNormed2).length u := by
    refine foldlM_bounds htile ⟨rfl, fun _ => rfl, rfl⟩ fun lo hi s hlt hle htile done => ?_
    obtain ⟨n, rfl⟩ := Nat.exists_eq_add_of_le hlt.le
    obtain ⟨u, hbody, hround⟩ := round lo n s (by omega) (by omega) hle done.input done.length
    have hdone := done.output
    rw [← done.input] at hdone hle
    have houtput :=
      hround.take_output hle (by rw [done.length, hout, ← done.input]; exact hle) hdone
    exact ⟨u, hbody, hround.input.trans done.input,
      fun name => (hround.length name).trans (done.length name), done.input ▸ houtput⟩
  obtain ⟨u, hrun, done⟩ := loop
  refine ⟨u, (if_neg htile.ne').trans hrun, ?_⟩
  have hall := done.output
  rwa [take_of_length_le (by rw [done.length, hout]),
    take_of_length_le (by rw [length_map])] at hall

theorem maxChunkSize_pos {count k : ℕ} (hcount : 0 < count) (hk : 0 < k) :
    0 < maxChunkSize count k :=
  Nat.div_pos (by omega) hk

/-- The scratch tensors of a gated feed-forward part. -/
structure Scratch (gate up gated : TensorName) : Prop where
  distinct : [.xNormed2, gate, up, gated, .mlpOutput].Nodup
  view : ∀ name ∈ [gate, up, gated], ∀ lo n, Views.chunk 1 lo (lo + n) name = (0, 0 + n)

theorem scratch_llada : Scratch .mlpX .mlpXUp .mlpGated where
  distinct := by decide
  view := by simp [Views.chunk]

theorem scratch_dream : Scratch .xGate .xUp .xMlp where
  distinct := by decide
  view := by simp [Views.chunk]

section FeedForward

variable {gate up gated : TensorName} {k : ℕ}

/-- A gated feed-forward part in chunks, with scratch tensors of one chunk. -/
theorem mlpForward_chunked (ops : MlpOps ρ) (scratch : Scratch gate up gated)
    (hN : 0 < (t .xNormed2).length) (hk : 0 < k)
    (hout : (t .mlpOutput).length = (t .xNormed2).length)
    (hroom : ∀ name ∈ [gate, up, gated], (t name).length = maxChunkSize (t .xNormed2).length k)
    (chunkLogits : Bool) (numChunksLogits : ℕ) :
    ∃ u, mlpForward ops gate up gated (some ⟨chunkLogits, true, numChunksLogits, k⟩) t = .ok u ∧
      u .mlpOutput = (t .xNormed2).map ops.row := by
  simp only [mlpForward]
  refine rounds_output (maxChunkSize_pos hN hk) hout fun lo n s _ htile hle hinput hlen => ?_
  refine mlpOn_round _ ops scratch.distinct rfl rfl (fun name hname => scratch.view name hname lo n)
    (by rw [hinput]; exact hle) (by rw [hlen, hout]; exact hle) fun name hname => ?_
  rw [hlen, hroom name hname, zero_add]
  exact htile

/-- A gated feed-forward part in one piece, with scratch tensors of all rows. -/
theorem mlpForward_whole (ops : MlpOps ρ) (scratch : Scratch gate up gated)
    (hout : (t .mlpOutput).length = (t .xNormed2).length)
    (hroom : ∀ name ∈ [gate, up, gated], (t name).length = (t .xNormed2).length) :
    ∃ u, mlpForward ops gate up gated none t = .ok u ∧
      u .mlpOutput = (t .xNormed2).map ops.row := by
  have hview : ∀ name, (t name).length = (t .xNormed2).length →
      Views.whole t name = (0, 0 + (t .xNormed2).length) := fun name h => by
    rw [Views.whole, h, zero_add]
  obtain ⟨u, hrun, round⟩ := mlpOn_round (.whole t) ops scratch.distinct (hview _ rfl)
    (hview _ hout) (fun name hname => hview name (hroom name hname)) (zero_add _).le
    (by rw [hout, zero_add]) fun name hname => by rw [hroom name hname, zero_add]
  refine ⟨u, hrun, ?_⟩
  have hall := round.take_output (zero_add _).le (by rw [hout, zero_add]) rfl
  rwa [zero_add, take_of_length_le (by rw [round.length, hout]),
    take_of_length_le (by rw [length_map])] at hall

/-- The experts in chunks, with caches of one chunk. -/
theorem moeBlock_chunked (ops : MoeOps ρ γ) (hN : 0 < (t .xNormed2).length) (hk : 0 < k)
    (hout : (t .moeOutput).length = (t .xNormed2).length)
    (hroom₁ : (t .moeCache1).length = maxChunkSize (t .xNormed2).length k)
    (hroom₂ : (t .moeCache2).length = maxChunkSize (t .xNormed2).length k * topK)
    (hroom₃ : (t .moeCache3).length = maxChunkSize (t .xNormed2).length k)
    (chunkLogits : Bool) (numChunksLogits : ℕ) :
    ∃ u, moeBlock ops (some ⟨chunkLogits, true, numChunksLogits, k⟩) t = .ok u ∧
      u .moeOutput = (t .xNormed2).map ops.row := by
  simp only [moeBlock]
  refine rounds_output (maxChunkSize_pos hN hk) hout fun lo n s _ htile hle hinput hlen => ?_
  have hcount : lo + n - lo = 0 + n := by omega
  refine expertsOn_round _ ops rfl rfl (congrArg (Prod.mk 0) hcount)
    (congrArg (fun m => (0, m)) ?_) (congrArg (Prod.mk 0) hcount) (by rw [hinput]; exact hle)
    (by rw [hlen, hout]; exact hle) (by rw [hlen, hroom₁, zero_add]; exact htile)
    (by rw [hlen, hroom₂, zero_add]; exact Nat.mul_le_mul_right _ htile)
    (by rw [hlen, hroom₃, zero_add]; exact htile) (by rw [hinput, piece_map])
  rw [Nat.add_sub_cancel_left, zero_add]

/-- The experts in one piece, with caches of all rows. -/
theorem moeBlock_whole (ops : MoeOps ρ γ) (hout : (t .moeOutput).length = (t .xNormed2).length)
    (hroom₁ : (t .moeCache1).length = (t .xNormed2).length)
    (hroom₂ : (t .moeCache2).length = (t .xNormed2).length * topK)
    (hroom₃ : (t .moeCache3).length = (t .xNormed2).length) :
    ∃ u, moeBlock ops none t = .ok u ∧ u .moeOutput = (t .xNormed2).map ops.row := by
  have hview : ∀ name m, (t name).length = m → Views.whole t name = (0, 0 + m) := fun name m h => by
    rw [Views.whole, h, zero_add]
  obtain ⟨u, hrun, round⟩ := expertsOn_round (.whole t) ops (hview _ _ rfl)
    (hview _ _ hout) (hview _ _ hroom₁) (hview _ _ hroom₂) (hview _ _ hroom₃)
    (zero_add _).le (by rw [hout, zero_add]) (by rw [hroom₁, zero_add])
    (by rw [hroom₂, zero_add]) (by rw [hroom₃, zero_add])
    (by rw [zero_add, piece_all])
  refine ⟨u, hrun, ?_⟩
  have hall := round.take_output (zero_add _).le (by rw [hout, zero_add]) rfl
  rwa [zero_add, take_of_length_le (by rw [round.length, hout]),
    take_of_length_le (by rw [length_map])] at hall

end FeedForward

/-! ### Logits -/

/-- The logits of some tokens, in the first rows of the logits tensor. -/
theorem logitsOn_spec (views : Views) (hidden : ℕ → ρ) (lmHead : ρ → ρ) (sample : ρ → σ)
    (indices : List ℕ) (hview : views .logits = (0, 0 + indices.length))
    (hroom : 0 + indices.length ≤ (t .logits).length) :
    ∃ u, logitsOn hidden lmHead sample views indices t =
      .ok (u, indices.map fun i => sample (lmHead (hidden i))) ∧
        ∀ name, (u name).length = (t name).length := by
  obtain ⟨u, hwrite, written⟩ := exists_write t (indices.map fun i => lmHead (hidden i)) hview hroom
    (length_map _)
  refine ⟨u, bind_eq_ok.mpr ⟨u, hwrite, ?_⟩, written.length⟩
  rw [written.view, List.map_map]
  rfl

/-- The logits in chunks, with a logits tensor of one chunk. -/
theorem logitsLoop_chunked (hidden : ℕ → ρ) (lmHead : ρ → ρ) (sample : ρ → σ)
    {maskIndices : List ℕ} {k : ℕ} (hM : 0 < maskIndices.length) (hk : 0 < k)
    (hroom : (t .logits).length = maxChunkSize maskIndices.length k)
    (chunkMlp : Bool) (numChunksMlp : ℕ) :
    ∃ u, logitsLoop hidden lmHead sample (some ⟨true, chunkMlp, k, numChunksMlp⟩) maskIndices t =
      .ok (u, maskIndices.map fun i => sample (lmHead (hidden i))) := by
  have htile := maxChunkSize_pos hM hk
  have loop : ∃ acc : Activations ρ × List σ,
      (bounds maskIndices.length (maxChunkSize maskIndices.length k)).foldlM
        (fun acc b => do
          let next ← logitsOn hidden lmHead sample (.chunk 1 b.1 b.2)
            (piece maskIndices b.1 b.2) acc.1
          return (next.1, acc.2 ++ next.2)) (t, []) = .ok acc ∧
      (acc.1 .logits).length = (t .logits).length ∧
        acc.2 = (maskIndices.take maskIndices.length).map fun i => sample (lmHead (hidden i)) := by
    refine foldlM_bounds (P := fun rows (acc : Activations ρ × List σ) =>
      (acc.1 .logits).length = (t .logits).length ∧
        acc.2 = (maskIndices.take rows).map fun i => sample (lmHead (hidden i))) htile
      ⟨rfl, rfl⟩ fun lo hi acc hlt hle htile done => ?_
    obtain ⟨hlen, hacc⟩ := done
    have hcount : (piece maskIndices lo hi).length = hi - lo := length_piece hle
    obtain ⟨u, hon, hkeep⟩ := logitsOn_spec (t := acc.1) (.chunk 1 lo hi) hidden lmHead sample
      (piece maskIndices lo hi) (by rw [hcount, zero_add]; rfl)
      (by rw [hcount, hlen, hroom, zero_add]; exact htile)
    refine ⟨_, bind_eq_ok.mpr ⟨_, hon, rfl⟩, (hkeep _).trans hlen, ?_⟩
    rw [hacc, ← map_append, take_append_piece _ hlt.le]
  obtain ⟨⟨u, _⟩, hrun, -, hsamples⟩ := loop
  rw [take_length] at hsamples
  exact ⟨u, (if_neg htile.ne').trans (hsamples ▸ hrun)⟩

/-- The logits in one piece, with a logits tensor of all rows. -/
theorem logitsLoop_whole (hidden : ℕ → ρ) (lmHead : ρ → ρ) (sample : ρ → σ)
    {maskIndices : List ℕ} (hroom : (t .logits).length = maskIndices.length) :
    ∃ u, logitsLoop hidden lmHead sample none maskIndices t =
      .ok (u, maskIndices.map fun i => sample (lmHead (hidden i))) := by
  obtain ⟨u, hrun, -⟩ := logitsOn_spec (.whole t) hidden lmHead sample maskIndices
    (by rw [Views.whole, hroom, zero_add]) (by rw [hroom, zero_add])
  exact ⟨u, hrun⟩

/-! ### On the tensors of a graph -/

/-- The activation tensors have the rows that the graph gives them. -/
def Allocated (g : CustomGraph TensorName) (t : Activations ρ) : Prop :=
  ∀ name ∈ g.names, (t name).length = numRows g name

section Graphs

variable {s : BlockShape} {g : CustomGraph TensorName} {strategy : Option ChunkStrategy} {M : ℕ}

theorem ffNames_mem (family : Family) (chunked : Bool) :
    ∀ name ∈ [.xNormed2, family.config.feedForwardOutput, .logits] ++ intermediates family,
      name ∈ (blockOrder family chunked).map Prod.fst := by
  cases family <;> cases chunked <;> decide

/-- The numbers of rows that matter to the loops. -/
theorem Allocated.rows (hg : IsBlock s g) (alloc : Allocated g t) :
    (t .xNormed2).length = s.N ∧ (t s.config.feedForwardOutput).length = s.N ∧
      (t .logits).length = s.logitsRows ∧
      ∀ name ∈ intermediates s.family,
        (t name).length = if name = .moeCache2 then s.rows * 8 else s.rows := by
  have hmem := ffNames_mem s.family s.chunked
  rw [← hg.names_eq] at hmem
  refine ⟨?_, ?_, ?_, fun name hname => ?_⟩
  · rw [alloc _ (hmem _ (by simp)), (numRows_tokens hg).1]
  · rw [alloc _ (hmem _ (by simp [BlockShape.config])), (numRows_tokens hg).2]
  · rw [alloc _ (hmem _ (by simp)), numRows_logits hg]
  · rw [alloc _ (hmem _ (mem_append_right _ hname)), numRows_intermediates hg name hname]

/-- The feed-forward part of a family in chunks. -/
theorem feedForward_chunked (family : Family) (dense : MlpOps ρ) (moe : MoeOps ρ γ) {k : ℕ}
    (hN : 0 < (t .xNormed2).length) (hk : 0 < k)
    (hout : (t family.config.feedForwardOutput).length = (t .xNormed2).length)
    (hroom : ∀ name ∈ intermediates family, (t name).length =
      if name = .moeCache2 then maxChunkSize (t .xNormed2).length k * 8
      else maxChunkSize (t .xNormed2).length k)
    (chunkLogits : Bool) (numChunksLogits : ℕ) :
    ∃ u, family.feedForward dense moe (some ⟨chunkLogits, true, numChunksLogits, k⟩) t = .ok u ∧
      u family.config.feedForwardOutput =
        (t .xNormed2).map (family.feedForwardRow dense moe) := by
  cases family with
  | llada =>
    have other : ∀ name ∈ intermediates .llada, name ≠ .moeCache2 := by decide
    exact mlpForward_chunked dense scratch_llada hN hk hout
      (fun name hname => (hroom name hname).trans (if_neg (other name hname)))
      chunkLogits numChunksLogits
  | dream =>
    have other : ∀ name ∈ intermediates .dream, name ≠ .moeCache2 := by decide
    exact mlpForward_chunked dense scratch_dream hN hk hout
      (fun name hname => (hroom name hname).trans (if_neg (other name hname)))
      chunkLogits numChunksLogits
  | lladaMoe =>
    exact moeBlock_chunked moe hN hk hout (hroom .moeCache1 (by decide))
      (hroom .moeCache2 (by decide)) (hroom .moeCache3 (by decide)) chunkLogits numChunksLogits

/-- The feed-forward part of a family in one piece. -/
theorem feedForward_whole (family : Family) (dense : MlpOps ρ) (moe : MoeOps ρ γ)
    (hout : (t family.config.feedForwardOutput).length = (t .xNormed2).length)
    (hroom : ∀ name ∈ intermediates family, (t name).length =
      if name = .moeCache2 then (t .xNormed2).length * 8 else (t .xNormed2).length) :
    ∃ u, family.feedForward dense moe none t = .ok u ∧
      u family.config.feedForwardOutput =
        (t .xNormed2).map (family.feedForwardRow dense moe) := by
  cases family with
  | llada =>
    have other : ∀ name ∈ intermediates .llada, name ≠ .moeCache2 := by decide
    exact mlpForward_whole dense scratch_llada hout
      fun name hname => (hroom name hname).trans (if_neg (other name hname))
  | dream =>
    have other : ∀ name ∈ intermediates .dream, name ≠ .moeCache2 := by decide
    exact mlpForward_whole dense scratch_dream hout
      fun name hname => (hroom name hname).trans (if_neg (other name hname))
  | lladaMoe =>
    exact moeBlock_whole moe hout (hroom .moeCache1 (by decide)) (hroom .moeCache2 (by decide))
      (hroom .moeCache3 (by decide))

/-- The feed-forward part on the tensors of its graph computes every row. -/
theorem feedForward_rows (hg : IsBlock s g) (alloc : Allocated g t) (fits : Fits s strategy M)
    (hk : ∀ st ∈ strategy, 0 < st.numChunksMlp) (dense : MlpOps ρ) (moe : MoeOps ρ γ) :
    ∃ u, s.family.feedForward dense moe strategy t = .ok u ∧
      u s.config.feedForwardOutput =
        (t .xNormed2).map (s.family.feedForwardRow dense moe) := by
  obtain ⟨hx, hout, -, hinter⟩ := alloc.rows hg
  have hN : 0 < (t .xNormed2).length := hx ▸ s.tokens_pos
  have houtput := hout.trans hx.symm
  match strategy, fits.mlp with
  | some ⟨_, true, _, _⟩, ⟨_, hrows⟩ =>
    rw [hrows, ← hx] at hinter
    exact feedForward_chunked s.family dense moe hN (hk _ rfl) houtput hinter _ _
  | some ⟨_, false, _, _⟩, hrows =>
    rw [hrows, ← hx] at hinter
    obtain ⟨u, hrun, hu⟩ := feedForward_whole s.family dense moe houtput hinter
    refine ⟨u, ?_, hu⟩
    rw [← hrun]
    cases s.family <;> rfl
  | none, hrows =>
    rw [hrows, ← hx] at hinter
    exact feedForward_whole s.family dense moe houtput hinter

/-- The logits on the tensors of their graph are those of every masked token. -/
theorem logits_rows (hg : IsBlock s g) (alloc : Allocated g t) (fits : Fits s strategy M)
    (hk : ∀ st ∈ strategy, 0 < st.numChunksLogits) (hidden : ℕ → ρ) (lmHead : ρ → ρ)
    (sample : ρ → σ) {maskIndices : List ℕ} (hM : 0 < M) (hmask : maskIndices.length = M) :
    ∃ u, logitsLoop hidden lmHead sample strategy maskIndices t =
      .ok (u, maskIndices.map fun i => sample (lmHead (hidden i))) := by
  obtain ⟨-, -, hlogits, -⟩ := alloc.rows hg
  subst hmask
  match strategy, fits with
  | some ⟨true, _, _, _⟩, fits =>
    exact logitsLoop_chunked hidden lmHead sample hM (hk _ rfl) (hlogits.trans fits.logits) _ _
  | some ⟨false, _, _, _⟩, fits =>
    exact logitsLoop_whole hidden lmHead sample (hlogits.trans fits.logits)
  | none, fits => exact logitsLoop_whole hidden lmHead sample (hlogits.trans fits.logits)

end Graphs

end Rows

/-- The chunks of a loop are nonempty, no longer than the scratch tensors and cover all rows in
order; on the tensors of its own graph, every strategy computes the feed-forward part and the
samples that the pass without chunks computes. -/
theorem chunked_eq_whole (family : Family) (strategy : ChunkStrategy) {N M : ℕ} (hN : 1 ≤ N)
    (hM : 1 ≤ M) (hmlp : 1 ≤ strategy.numChunksMlp) (hlogits : 1 ≤ strategy.numChunksLogits) :
    (∀ count k, 1 ≤ count → 1 ≤ k →
      (bounds count (maxChunkSize count k)).flatMap (fun b => List.range' b.1 (b.2 - b.1)) =
        List.range count ∧
      ∀ b ∈ bounds count (maxChunkSize count k), 1 ≤ b.2 - b.1 ∧
        b.2 - b.1 ≤ maxChunkSize count k) ∧
    ∃ g whole, family.graph (some strategy) N M = .ok g ∧ family.graph none N M = .ok whole ∧
      (strategy.chunkMlp = true → ∀ name ∈ intermediates family, numRows g name =
        if name = .moeCache2 then maxChunkSize N strategy.numChunksMlp * topK
        else maxChunkSize N strategy.numChunksMlp) ∧
      (strategy.chunkLogits = true →
        numRows g .logits = maxChunkSize M strategy.numChunksLogits) ∧
      ∀ (ρ γ σ : Type) (t t₀ : Activations ρ), Allocated g t → Allocated whole t₀ →
        t .xNormed2 = t₀ .xNormed2 →
        (∀ (dense : MlpOps ρ) (moe : MoeOps ρ γ), ∃ u u₀,
          family.feedForward dense moe (some strategy) t = .ok u ∧
          family.feedForward dense moe none t₀ = .ok u₀ ∧
          u family.config.feedForwardOutput = u₀ family.config.feedForwardOutput ∧
          u family.config.feedForwardOutput =
            (t .xNormed2).map (family.feedForwardRow dense moe)) ∧
        ∀ (hidden : ℕ → ρ) (lmHead : ρ → ρ) (sample : ρ → σ) (maskIndices : List ℕ),
          maskIndices.length = M → ∃ u u₀ samples,
            logitsLoop hidden lmHead sample (some strategy) maskIndices t = .ok (u, samples) ∧
            logitsLoop hidden lmHead sample none maskIndices t₀ = .ok (u₀, samples) ∧
            samples = maskIndices.map fun i => sample (lmHead (hidden i)) := by
  constructor
  · intro count k hcount hk
    have htile := maxChunkSize_pos hcount hk
    exact ⟨bounds_cover htile, fun b hb =>
      have ⟨hlt, _, hle⟩ := bounds_spec htile hb
      ⟨Nat.sub_pos_of_lt hlt, hle⟩⟩
  · have hmlps : ∀ st ∈ some strategy, 0 < st.numChunksMlp := by
      rintro _ ⟨⟩
      exact hmlp
    have hlogitss : ∀ st ∈ some strategy, 0 < st.numChunksLogits := by
      rintro _ ⟨⟩
      exact hlogits
    obtain ⟨g, hg, block⟩ := family.exists_graph (some strategy) N M hN hM hmlps hlogitss
    obtain ⟨whole, hwhole, block₀⟩ := family.exists_graph none N M hN hM nofun nofun
    have fits := fits_shape family (some strategy) N M hN hM hmlps hlogitss
    have fits₀ := fits_shape family none N M hN hM nofun nofun
    refine ⟨g, whole, hg, hwhole, ?_, ?_, fun ρ γ σ t t₀ alloc alloc₀ same => ⟨?_, ?_⟩⟩
    · -- The scratch tensors have the rows of the largest chunk.
      intro hchunk name hname
      have hrows := numRows_intermediates block name hname
      rwa [show (family.shape (some strategy) N M hN hM hmlps hlogitss).rows =
        maxChunkSize N strategy.numChunksMlp from if_pos hchunk] at hrows
    · intro hchunk
      exact (numRows_logits block).trans (if_pos hchunk)
    · -- Both passes compute the feed-forward part row by row, from the same input.
      intro dense moe
      obtain ⟨u, hrun, hu⟩ := feedForward_rows block alloc fits hmlps dense moe
      obtain ⟨u₀, hrun₀, hu₀⟩ := feedForward_rows block₀ alloc₀ fits₀ nofun dense moe
      exact ⟨u, u₀, hrun, hrun₀, hu.trans (same ▸ hu₀.symm), hu⟩
    · -- The samples of the mask positions, in both passes.
      intro hidden lmHead sample maskIndices hmask
      obtain ⟨u, hrun⟩ := logits_rows block alloc fits hlogitss hidden lmHead sample hM hmask
      obtain ⟨u₀, hrun₀⟩ := logits_rows block₀ alloc₀ fits₀ nofun hidden lmHead sample hM hmask
      exact ⟨u, u₀, _, hrun, hrun₀, rfl⟩

/-- Activations with these rows as the input of the feed-forward part, and zeros elsewhere. -/
def withInput (g : CustomGraph TensorName) (rows : List ℕ) : Activations ℕ
  | .xNormed2 => rows
  | name => List.replicate (numRows g name) 0

theorem allocated_withInput {rows : List ℕ} (h : numRows g .xNormed2 = rows.length) :
    Allocated g (withInput g rows) := fun name _ => by
  by_cases hname : name = .xNormed2
  · rw [hname, h]
    rfl
  · rw [withInput, length_replicate]
    exact hname

/-- Experts that add the parity of a row before and after they sum its eight copies. -/
def parityExperts : MoeOps ℕ ℕ :=
  ⟨(· % 2), (· + ·), List.replicate topK, fun rows choice => rows.sum + choice, id,
    fun _ => length_replicate⟩

/-- More chunks than rows: every chunk is one row, and the scratch tensors have one row, or one for
each of the eight experts. -/
theorem chunked_eq_whole_single_rows :
    ∃ g whole, Family.lladaMoe.graph (some ⟨true, true, 7, 5⟩) 3 2 = .ok g ∧
      Family.lladaMoe.graph none 3 2 = .ok whole ∧
      (∀ name ∈ intermediates .lladaMoe,
        numRows g name = if name = .moeCache2 then 8 else 1) ∧ numRows g .logits = 1 ∧
      (∃ u u₀, Family.lladaMoe.feedForward ⟨id, id, id, (· * ·), id⟩ parityExperts
          (some ⟨true, true, 7, 5⟩) (withInput g [10, 21, 30]) = .ok u ∧
        Family.lladaMoe.feedForward ⟨id, id, id, (· * ·), id⟩ parityExperts none
          (withInput whole [10, 21, 30]) = .ok u₀ ∧
        u Family.lladaMoe.config.feedForwardOutput = [80, 177, 240] ∧
        u₀ Family.lladaMoe.config.feedForwardOutput = [80, 177, 240]) ∧
      ∃ u u₀, logitsLoop id (3 * ·) id (some ⟨true, true, 7, 5⟩) [4, 6]
          (withInput g [10, 21, 30]) = .ok (u, [12, 18]) ∧
        logitsLoop id (3 * ·) id none [4, 6] (withInput whole [10, 21, 30]) =
          .ok (u₀, [12, 18]) := by
  obtain ⟨-, g, whole, hg, hwhole, hrows, hlogits, hruns⟩ :=
    chunked_eq_whole .lladaMoe ⟨true, true, 7, 5⟩ (show 1 ≤ 3 by decide) (show 1 ≤ 2 by decide)
      (by decide) (by decide)
  have input (strategy : Option ChunkStrategy) (hmlp : ∀ s ∈ strategy, 0 < s.numChunksMlp)
      (hlog : ∀ s ∈ strategy, 0 < s.numChunksLogits) {g : CustomGraph TensorName}
      (hg : Family.lladaMoe.graph strategy 3 2 = .ok g) : numRows g .xNormed2 = 3 := by
    obtain ⟨_, hgraph, block⟩ :=
      Family.lladaMoe.exists_graph strategy 3 2 (by decide) (by decide) hmlp hlog
    cases hgraph.symm.trans hg
    exact (numRows_tokens block).1
  obtain ⟨hexperts, hsamples⟩ := hruns ℕ ℕ ℕ (withInput g [10, 21, 30])
    (withInput whole [10, 21, 30])
    (allocated_withInput (input _ (by rintro _ ⟨⟩; decide) (by rintro _ ⟨⟩; decide) hg))
    (allocated_withInput (input none nofun nofun hwhole)) rfl
  obtain ⟨u, u₀, hrun, hrun₀, heq, hrow⟩ := hexperts ⟨id, id, id, (· * ·), id⟩ parityExperts
  obtain ⟨v, v₀, _, hrunv, hrunv₀, rfl⟩ := hsamples id (3 * ·) id [4, 6] rfl
  exact ⟨g, whole, hg, hwhole, hrows rfl, hlogits rfl,
    ⟨u, u₀, hrun, hrun₀, hrow, heq.symm.trans hrow⟩, v, v₀, hrunv, hrunv₀⟩

end Block
