import Mosaic.Batch.Exchange

/-!
# The operations of the batch in any order

Between two hand-overs of the record, requests may be removed, added and swapped, and `condense` may
be called, in any order in which the batch accepts the calls. Before `condense` the recorded indices
are the empty slots; afterwards there is no empty slot, and the indices that are still recorded lie
behind the last request, so that a request is appended and a second `condense` does nothing.
-/

namespace Batch

open List Fallible Function Except

/-! ### Any order of operations -/

/-- The operations of the batch, and the hand-over of the record at the end of a step. -/
inductive BatchOp
  | remove (id : ReqId)
  | add (request : CachedRequestState)
  | condense
  | swap (i₁ i₂ : ℕ)
  | refresh

/-- Whether `condense` has been called since the last hand-over. -/
inductive BatchPhase
  | changing
  | condensed
  deriving DecidableEq

namespace BatchOp

def run (cfg : Config) (s : InputBatch) : BatchOp → Except Fault InputBatch
  | remove id => return (← s.removeRequest id).2
  | add r => return (← s.addRequest cfg r).2
  | condense => s.condense
  | swap i₁ i₂ => s.swapStates i₁ i₂
  | refresh => .ok s.refreshMetadata.2

/-- The requests of the batch after an operation. -/
def live (requests : List CachedRequestState) : BatchOp → List CachedRequestState
  | remove id => InputBatch.without requests id
  | add r => requests ++ [r]
  | _ => requests

def phase (before : BatchPhase) : BatchOp → BatchPhase
  | condense => .condensed
  | refresh => .changing
  | _ => before

/-- A request is added once and fits the arrays; the record is handed over when `condense` has
closed the gaps, as `remove_request` asks for. -/
def Admissible (cfg : Config) (widths : List ℕ) (requests : List CachedRequestState)
    (before : BatchPhase) : BatchOp → Prop
  | add r => r.FitsIn cfg widths ∧ r.reqId ∉ requests.map CachedRequestState.reqId
  | refresh => before = .condensed
  | _ => True

end BatchOp

namespace InputBatch

/-- The moves of `condense` from the removed indices in ascending order: the last request moves to
the lowest of them, as long as it stands above. -/
def slidesFrom : List ℕ → ℕ → List (ℕ × ℕ)
  | [], _ => []
  | empty :: rest, last =>
    match largestNonEmpty (empty :: rest) last with
    | none => []
    | some src => if src ≤ empty then [] else (src, empty) :: slidesFrom rest (src - 1)

/-- The moves that `condense` will make. -/
def slides (s : InputBatch) : List (ℕ × ℕ) :=
  slidesFrom s.builder.removed.1.reverse (s.numReqs + s.builder.removed.1.length - 1)

end InputBatch

/-- The step does not meet what another request has left: an added sampling request gets a slot
whose flag is off, and with a clear mask row unless it writes the row; the requests that `condense`
moves find their flags where they go; and two requests that are exchanged agree in mask and flag. -/
def BatchOp.Sound (cfg : Config) (s : InputBatch) : BatchOp → Prop
  | add r => ∀ p, r.samplingParams = some p →
      s.columns.logitsProcessingNeedsTokenIds s.getNextAddIndex.1 = false ∧
      (p.allowedTokenIds = [] →
        ∀ token < cfg.vocabSize, s.columns.mask s.getNextAddIndex.1 token = false)
  | condense => ∀ move ∈ s.slides,
      s.columns.logitsProcessingNeedsTokenIds move.1 =
        s.columns.logitsProcessingNeedsTokenIds move.2
  | swap i₁ i₂ => s.columns.Agree cfg i₁ i₂
  | _ => True

/-- An operation of a run and the batch before it. -/
structure OpStage where
  before : InputBatch
  op : BatchOp

/-- The runs of the operations from an empty batch. -/
inductive OpRun (cfg : Config) (widths : List ℕ) :
    List OpStage → BatchPhase → InputBatch → List CachedRequestState → Prop
  | start : OpRun cfg widths [] .changing (InputBatch.init widths) []
  | step {stages phase s live op t} (run : OpRun cfg widths stages phase s live)
      (admissible : op.Admissible cfg widths live phase) (ok : op.run cfg s = .ok t) :
      OpRun cfg widths (stages ++ [⟨s, op⟩]) (op.phase phase) t (op.live live)

/-- Whether the logits of a request are processed with its token ids: only pooling requests ask for
it. -/
def CachedRequestState.needsTokenIds (r : CachedRequestState) : Bool :=
  match r.samplingParams with
  | some _ => false
  | none => (r.poolingParams.map PoolingParams.requiresTokenIds).getD false

namespace InputBatch

/-- What stands at the index of a request besides its row: the output list and the flag. -/
structure Tagged (s : InputBatch) (live : List CachedRequestState) : Prop where
  outputs : ∀ i, ∀ r ∈ live, s.StandsAt r.reqId i →
    s.reqOutputTokenIds[i]? = some (some r.outputRef)
  flags : ∀ i, ∀ r ∈ live, s.StandsAt r.reqId i →
    s.columns.logitsProcessingNeedsTokenIds i = r.needsTokenIds

/-- Each column holds at an index what belongs to the request there. -/
structure Belongs (cfg : Config) (s : InputBatch) (live : List CachedRequestState) : Prop
    extends Tagged s live where
  rows : s.AllRows (Row.Fits cfg) live
  masks : s.AllRows (Row.MaskFits cfg) live

/-- The invariant after `condense`: all slots are in use, and the indices that are still recorded
lie behind them. -/
structure Settled (cfg : Config) (widths : List ℕ) (s : InputBatch)
    (live : List CachedRequestState) : Prop extends Core cfg widths s live where
  full : s.Full
  sorted : s.builder.Sorted
  read : s.builder.isRemovedSorted = true
  leftover : ∀ i ∈ s.builder.removedList, s.reqIds.length ≤ i

/-- The invariant of a run. -/
def Proper (cfg : Config) (widths : List ℕ) (phase : BatchPhase) (s : InputBatch)
    (live : List CachedRequestState) : Prop :=
  match phase with
  | .changing => s.Open cfg widths live
  | .condensed => s.Settled cfg widths live

variable {cfg : Config} {widths : List ℕ} {s s' : InputBatch} {live : List CachedRequestState}
  {r : CachedRequestState} {i a b last : ℕ} {id id₁ id₂ : ReqId} {phase : BatchPhase}

theorem Proper.core (h : s.Proper cfg widths phase live) : s.Core cfg widths live := by
  cases phase with
  | changing => exact Open.toCore h
  | condensed => exact Settled.toCore h

/-- The record does not matter for what holds at any time. -/
theorem Core.withBuilder (h : s.Core cfg widths live) (builder : BatchUpdateBuilder) :
    Core cfg widths { s with builder } live :=
  ⟨⟨h.placed.distinct, h.placed.inverse, h.placed.present, h.placed.lengths⟩, h.fits, h.clean,
    h.adapted, h.widths, h.capacity⟩

/-! ### Removals -/

/-- A removal that returns keeps the invariant; after `condense` it does nothing. -/
theorem Proper.removeRequest (h : s.Proper cfg widths phase live)
    (hok : (BatchOp.remove id).run cfg s = .ok s') :
    s'.Proper cfg widths phase (without live id) ∧
      (s' = s ∧ without live id = live ∨ ∃ k, s.StandsAt id k ∧ Removal s s' id k) := by
  obtain ⟨⟨_, t⟩, hremove, hok⟩ := bind_eq_ok.mp hok
  obtain rfl : t = s' := ok.inj hok
  cases hread : s.builder.isRemovedSorted with
  | false =>
    cases phase with
    | changing =>
      obtain ⟨_, _, hok', hopen, -, -, -, -, hcases⟩ := Open.removeRequest h hread id
      cases hok'.symm.trans hremove
      exact ⟨hopen, hcases⟩
    | condensed =>
      have htrue := Settled.read h
      rw [hread] at htrue
      cases htrue
  | true =>
    -- the removed indices have been read, so that only an unknown id is accepted
    unfold InputBatch.removeRequest at hremove
    cases hget : s.reqIdToIndex.lookup id with
    | some i =>
      rw [hget] at hremove
      obtain ⟨builder, happend, -⟩ := bind_eq_ok.mp hremove
      obtain ⟨hunread, -⟩ := BatchUpdateBuilder.removedAppend_eq_ok.mp happend
      rw [hread] at hunread
      cases hunread
    | none =>
      rw [hget] at hremove
      cases hremove
      have hsame : without live id = live := by
        apply filter_eq_self.mpr
        intro r hr
        rw [decide_eq_true_eq]
        rintro rfl
        rw [AList.lookup_eq_none, h.core.placed.present] at hget
        exact hget (mem_map_of_mem hr)
      rw [hsame]
      exact ⟨h, .inl ⟨rfl, rfl⟩⟩

theorem Removal.belongs (h : Removal s s' id i) (hs : s.Belongs cfg live) :
    s'.Belongs cfg (without live id) := by
  refine ⟨⟨?_, ?_⟩, h.allRows hs.rows, h.allRows hs.masks⟩
  · intro k r hr hk
    obtain ⟨hne, hk⟩ := h.standsAt.mp hk
    rw [h.outputs, getElem?_set, if_neg (Ne.symm hne)]
    exact hs.outputs k r (mem_without.mp hr).1 hk
  · intro k r hr hk
    obtain ⟨-, hk⟩ := h.standsAt.mp hk
    rw [h.columns]
    exact hs.flags k r (mem_without.mp hr).1 hk

/-! ### Additions -/

/-- Only a pooling request writes its flag. -/
theorem flags_addRequest {c c' : Columns} (hok : c.addRequest cfg i r = .ok c') :
    c'.logitsProcessingNeedsTokenIds = Function.update c.logitsProcessingNeedsTokenIds i
      (if r.samplingParams.isSome then c.logitsProcessingNeedsTokenIds i else r.needsTokenIds) := by
  obtain ⟨c₁, htoks, hok⟩ := bind_eq_ok.mp hok
  have hflags₁ : c₁.logitsProcessingNeedsTokenIds = c.logitsProcessingNeedsTokenIds := by
    obtain ⟨_, -, htoks⟩ := bind_eq_ok.mp htoks
    obtain ⟨_, -, htoks⟩ := bind_eq_ok.mp htoks
    obtain ⟨_, -, htoks⟩ := bind_eq_ok.mp htoks
    cases htoks
    rfl
  unfold CachedRequestState.needsTokenIds
  cases hp : r.samplingParams with
  | some p =>
    rw [hp] at hok
    obtain ⟨_, hsampling, hok⟩ := bind_eq_ok.mp hok
    obtain ⟨c₃, hallowed, hsampling⟩ := bind_eq_ok.mp hsampling
    have hflags₃ : c₃.logitsProcessingNeedsTokenIds = c₁.logitsProcessingNeedsTokenIds := by
      unfold Columns.addAllowed at hallowed
      split at hallowed
      · cases hallowed
        rfl
      · split at hallowed
        · cases hallowed
          rfl
        · cases hallowed
    cases hsampling
    cases hok
    rw [Option.isSome_some, if_pos rfl, update_eq_self]
    exact hflags₃.trans hflags₁
  | none =>
    rw [hp] at hok
    cases hq : r.poolingParams with
    | none =>
      rw [hq] at hok
      cases hok
    | some q =>
      rw [hq] at hok
      cases hok
      unfold Columns.addLora
      rw [hflags₁]
      rfl

/-- An added request gets the next index, where its output list and its columns are written. -/
theorem addRequest_writes (hlens : s.reqOutputTokenIds.length = s.reqIds.length)
    (hok : s.addRequest cfg r = .ok (i, s')) :
    i = s.getNextAddIndex.1 ∧ s.columns.addRequest cfg i r = .ok s'.columns ∧
      ∀ k, s'.reqOutputTokenIds[k]? =
        if k = i then some (some r.outputRef) else s.reqOutputTokenIds[k]? := by
  obtain ⟨⟨j, t⟩, hreg, hok⟩ := bind_eq_ok.mp hok
  obtain ⟨_, hplace, hok⟩ := bind_eq_ok.mp hok
  obtain ⟨columns, hcols, hok⟩ := bind_eq_ok.mp hok
  obtain ⟨rfl, rfl⟩ := Prod.mk.inj (ok.inj hok)
  -- taking an index changes the record only
  have htaken : j = s.getNextAddIndex.1 ∧ t.columns = s.columns ∧ t.reqIds = s.reqIds ∧
      t.reqOutputTokenIds = s.reqOutputTokenIds := by
    unfold registerAddRequest at hreg
    dsimp only at hreg
    split at hreg
    · obtain ⟨rfl, rfl⟩ := Prod.mk.inj (ok.inj hreg)
      refine ⟨rfl, ?_⟩
      unfold getNextAddIndex
      rcases s.builder.popRemoved with ⟨_ | _, _⟩ <;> exact ⟨rfl, rfl, rfl⟩
    · cases hreg
  obtain ⟨hidx, hsame, hids, houts⟩ := htaken
  unfold placeRequest setItem at hplace
  by_cases hend : j = t.reqIds.length
  · rw [if_pos hend] at hplace
    obtain rfl := ok.inj hplace
    refine ⟨hidx, hsame ▸ hcols, fun k => ?_⟩
    have hlast : j = s.reqOutputTokenIds.length := by rw [hend, hids, hlens]
    rw [houts]
    by_cases hk : k = j
    · rw [if_pos hk, hk, hlast, getElem?_concat_length]
    · rw [if_neg hk, getElem?_append]
      split
      · rfl
      · rw [getElem?_eq_none (by rw [length_singleton]; omega),
          getElem?_eq_none (by omega)]
  · rw [if_neg hend] at hplace
    obtain ⟨_, -, hplace⟩ := bind_eq_ok.mp hplace
    obtain ⟨_, hset, hplace⟩ := bind_eq_ok.mp hplace
    obtain rfl := ok.inj hplace
    refine ⟨hidx, hsame ▸ hcols, fun k => ?_⟩
    split at hset
    · rename_i hlt
      obtain rfl := ok.inj hset
      rw [getElem?_set, houts]
      rw [houts] at hlt
      by_cases hk : k = j
      · rw [if_pos hk.symm, if_pos hlt, if_pos hk]
      · rw [if_neg (Ne.symm hk), if_neg hk]
    · cases hset

theorem Belongs.withBuilder (h : s.Belongs cfg live) (builder : BatchUpdateBuilder) :
    Belongs cfg { s with builder } live :=
  ⟨⟨h.outputs, h.flags⟩, h.rows, h.masks⟩

/-- The columns of an added request are its own, if it does not meet a flag or a mask row. -/
theorem Addition.belongs (h : Addition cfg s s' r i) (hs : s.Open cfg widths live)
    (hnew : r.reqId ∉ live.map CachedRequestState.reqId)
    (hcols : s.columns.addRequest cfg i r = .ok s'.columns)
    (houts : ∀ k, s'.reqOutputTokenIds[k]? =
      if k = i then some (some r.outputRef) else s.reqOutputTokenIds[k]?)
    (hsound : ∀ p, r.samplingParams = some p →
      s.columns.logitsProcessingNeedsTokenIds i = false ∧
      (p.allowedTokenIds = [] → ∀ token < cfg.vocabSize, s.columns.mask i token = false))
    (hbelongs : s.Belongs cfg live) : s'.Belongs cfg (live ++ [r]) := by
  have hflags := flags_addRequest hcols
  -- whoever stands in the new batch stood there before, elsewhere, or is the new request
  have hcases : ∀ k, ∀ q ∈ live ++ [r], s'.StandsAt q.reqId k →
      k = i ∧ q = r ∨ k ≠ i ∧ q ∈ live ∧ s.StandsAt q.reqId k := by
    intro k q hq hk
    rcases h.standsAt.mp hk with ⟨hki, hid⟩ | ⟨hki, hk⟩
    · refine .inl ⟨hki, ?_⟩
      rcases mem_append.mp hq with hq | hq
      · exact absurd (hid ▸ mem_map_of_mem hq) hnew
      · exact mem_singleton.mp hq
    · refine .inr ⟨hki, ?_, hk⟩
      rcases mem_append.mp hq with hq | hq
      · exact hq
      · rw [mem_singleton.mp hq] at hk
        exact absurd (hs.placed.mem_of_standsAt hk) hnew
  refine ⟨⟨?_, ?_⟩, (h.allRows_iff hs hnew).mpr ⟨hbelongs.rows, h.fits⟩,
    (h.allRows_iff hs hnew).mpr ⟨hbelongs.masks, ?_⟩⟩
  · intro k q hq hk
    rw [houts]
    rcases hcases k q hq hk with ⟨rfl, rfl⟩ | ⟨hne, hq, hk⟩
    · exact if_pos rfl
    · rw [if_neg hne]
      exact hbelongs.outputs k q hq hk
  · intro k q hq hk
    rw [hflags]
    rcases hcases k q hq hk with ⟨rfl, rfl⟩ | ⟨hne, hq, hk⟩
    · rw [update_self]
      cases hp : q.samplingParams with
      | none => rfl
      | some p =>
        rw [Option.isSome_some, if_pos rfl, (hsound p hp).1]
        unfold CachedRequestState.needsTokenIds
        rw [hp]
    · rw [update_of_ne hne]
      exact hbelongs.flags k q hq hk
  · intro p hp token htoken
    rw [h.mask p hp, SamplingParams.forbidden]
    split
    · rename_i hall
      exact (hsound p hp).2 hall token htoken
    · rfl

/-- The assertion on the index is the only limit on the number of requests. -/
theorem Open.addition (h : s.Open cfg widths live) (fits : r.FitsIn cfg widths)
    (hok : s.addRequest cfg r = .ok (i, s')) :
    s.numReqs < cfg.maxNumReqs ∧ Addition cfg s s' r i := by
  have hroom : s.numReqs < cfg.maxNumReqs := by
    by_cases hnil : s.builder.removedList = []
    · obtain ⟨⟨j, t⟩, hreg, -⟩ := bind_eq_ok.mp hok
      rcases hpop : s.builder.popRemoved with ⟨popped, builder⟩
      cases popped with
      | some k =>
        have hmem := (BatchUpdateBuilder.popRemoved_spec h.sorted hpop).1
        rw [hnil] at hmem
        cases hmem
      | none =>
        unfold registerAddRequest getNextAddIndex at hreg
        rw [hpop] at hreg
        dsimp only at hreg
        split at hreg
        · rename_i hlt
          exact hlt
        · cases hreg
    · have hpos := length_pos_of_ne_nil hnil
      have hcount := h.count
      have hcapacity := h.capacity
      omega
  obtain ⟨j, t, hok', hadd⟩ := addRequest_spec h fits hroom
  cases hok'.symm.trans hok
  exact ⟨hroom, hadd⟩

theorem Settled.ready (h : s.Settled cfg widths live) :
    Ready cfg widths { s with builder := {} } live :=
  ⟨h.toCore.withBuilder {}, h.full, rfl⟩

/-- After `condense` a request is appended, or not added at all. -/
theorem Settled.addition (h : s.Settled cfg widths live)
    (hok : s.addRequest cfg r = .ok (i, s')) :
    i = s.reqIds.length ∧ s'.builder.Sorted ∧ s'.builder.isRemovedSorted = true ∧
      (∀ k ∈ s'.builder.removedList, k ∈ s.builder.removedList ∧ k ≠ i) ∧
      addRequest cfg { s with builder := {} } r =
        .ok (i, { s' with builder := { added := [⟨i, r.params, r.outputRef⟩] } }) := by
  have hend : s.numReqs = s.reqIds.length := (h.placed.length_of_full h.full).symm
  have hlens := h.placed.lengths
  obtain ⟨⟨j, t⟩, hreg, hok⟩ := bind_eq_ok.mp hok
  obtain ⟨_, hplace, hok⟩ := bind_eq_ok.mp hok
  obtain ⟨columns, hcols, hok⟩ := bind_eq_ok.mp hok
  obtain ⟨rfl, rfl⟩ := Prod.mk.inj (ok.inj hok)
  have htaken : ∃ builder : BatchUpdateBuilder, t = { s with builder } ∧ j < cfg.maxNumReqs ∧
      builder.Sorted ∧ builder.isRemovedSorted = true ∧
      (∀ k ∈ builder.removedList, k ∈ s.builder.removedList ∧ k ≠ j) ∧
      (j = s.numReqs ∨ s.reqIds.length ≤ j) := by
    unfold registerAddRequest getNextAddIndex at hreg
    rcases hpop : s.builder.popRemoved with ⟨popped, builder⟩
    rw [hpop] at hreg
    cases popped with
    | none =>
      obtain ⟨hnil, rfl⟩ := BatchUpdateBuilder.popRemoved_none hpop
      dsimp only at hreg
      split at hreg
      · rename_i hlt
        obtain ⟨rfl, rfl⟩ := Prod.mk.inj (ok.inj hreg)
        refine ⟨_, rfl, hlt, ⟨h.sorted.nodup, h.sorted.descending⟩, h.read, ?_, .inl rfl⟩
        intro k hk
        rw [hnil] at hk
        cases hk
      · cases hreg
    | some k =>
      obtain ⟨hmem, -, hremoved, -, hsorted, hread, -⟩ :=
        BatchUpdateBuilder.popRemoved_spec h.sorted hpop
      dsimp only at hreg
      split at hreg
      · rename_i hlt
        obtain ⟨rfl, rfl⟩ := Prod.mk.inj (ok.inj hreg)
        exact ⟨_, rfl, hlt, ⟨hsorted.nodup, hsorted.descending⟩, hread,
          fun k hk => (hremoved k).mp hk, .inr (h.leftover _ hmem)⟩
      · cases hreg
  obtain ⟨builder, rfl, hlt, hsorted, hread, hleft, hidx⟩ := htaken
  unfold placeRequest setItem at hplace
  have hj : j = s.reqIds.length := by
    by_contra hne
    have hout : ¬ j < s.reqIds.length := by omega
    rw [if_neg hne, if_neg hout] at hplace
    cases hplace
  rw [if_pos hj] at hplace
  obtain rfl := ok.inj hplace
  refine ⟨hj, hsorted, hread, hleft, ?_⟩
  -- without the leftover indices the request takes the same place
  have hreg₀ : registerAddRequest cfg { s with builder := {} } r =
      .ok (j, { s with builder := { added := [⟨j, r.params, r.outputRef⟩] } }) := by
    have hnum : numReqs { s with builder := {} } = j := hend.trans hj.symm
    unfold registerAddRequest getNextAddIndex BatchUpdateBuilder.popRemoved
    simp only [BatchUpdateBuilder.hasRemoved, isEmpty_nil, Bool.not_true, Bool.false_eq_true,
      if_false, hnum, hlt, if_true, nil_append]
  exact bind_eq_ok.mpr ⟨_, hreg₀, bind_eq_ok.mpr
    ⟨_, placeRequest_append hj, bind_eq_ok.mpr ⟨columns, hcols, rfl⟩⟩⟩

/-- An addition that returns keeps the invariant, and keeps what belongs to the requests if it is
sound. -/
theorem Proper.addRequest (h : s.Proper cfg widths phase live)
    (hadm : (BatchOp.add r).Admissible cfg widths live phase)
    (hok : (BatchOp.add r).run cfg s = .ok s') :
    s'.Proper cfg widths phase (live ++ [r]) ∧
      ((BatchOp.add r).Sound cfg s → s.Belongs cfg live → s'.Belongs cfg (live ++ [r])) := by
  obtain ⟨fits, hnew⟩ := hadm
  obtain ⟨⟨_, t⟩, hadd, hok⟩ := bind_eq_ok.mp hok
  obtain rfl : t = s' := ok.inj hok
  obtain ⟨hidx, hcols, houts⟩ := addRequest_writes h.core.placed.lengths hadd
  cases phase with
  | changing =>
    obtain ⟨hroom, heff⟩ := Open.addition h fits hadd
    refine ⟨heff.open h fits hroom hnew, fun hsound hbelongs => ?_⟩
    exact heff.belongs h hnew hcols houts (hidx ▸ hsound) hbelongs
  | condensed =>
    obtain ⟨hend, hsorted, hread, hleft, hadd₀⟩ := Settled.addition h hadd
    have hopen := (Settled.ready h).open
    obtain ⟨hroom, heff⟩ := hopen.addition fits hadd₀
    have hopen' := heff.open hopen fits hroom hnew
    have hlength : t.reqIds.length = s.reqIds.length + 1 := by
      rcases heff.slot with ⟨-, -, hlen⟩ | ⟨hmem, -⟩
      · exact hlen
      · cases hmem
    refine ⟨⟨hopen'.toCore.withBuilder t.builder, ?_, hsorted, hread, ?_⟩,
      fun hsound hbelongs => ?_⟩
    · exact hopen'.full (eq_nil_of_length_eq_zero heff.fewer)
    · intro k hk
      obtain ⟨hk, hne⟩ := hleft k hk
      have hbehind := Settled.leftover h k hk
      omega
    · have hbelongs' := heff.belongs hopen hnew hcols houts (hidx ▸ hsound)
        (hbelongs.withBuilder {})
      exact hbelongs'.withBuilder t.builder

end InputBatch

end Batch
