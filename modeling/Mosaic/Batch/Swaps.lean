import Mosaic.Batch.Operations

/-!
# What belongs to the requests of the batch

After any sequence of additions, removals, swaps and calls of `condense` the columns at an index
belong to the request there, as long as no step has met what another request has left: a swap of two
requests with different masks or flags, a sampling request that is added at a set flag or at a mask
row that is not clean, a move of `condense` between two different flags.
-/

namespace Batch.InputBatch

variable {cfg : Config} {widths : List ℕ} {s s' : InputBatch} {live : List CachedRequestState}
  {r : CachedRequestState} {i a b last : ℕ} {id id₁ id₂ : ReqId} {phase : BatchPhase}

/-! ### Exchanges -/

theorem Open.swapped (h : s.Open cfg widths live) (h₁ : s.StandsAt id₁ a)
    (h₂ : s.StandsAt id₂ b) : (s.swapped a b id₁ id₂).Open cfg widths live := by
  obtain ⟨heff, hplaced⟩ := swapStates_spec h.placed (swapStates_eq h.placed h₁ h₂)
  -- an empty slot is neither of the two
  have hfixed : ∀ k, s.reqIds[k]? = some none → Equiv.swap a b k = k := by
    intro k hk
    apply Equiv.swap_apply_of_ne_of_ne
    · rintro rfl
      cases hk.symm.trans h₁
    · rintro rfl
      cases hk.symm.trans h₂
  refine ⟨heff.core h.toCore hplaced, ⟨h.sorted.nodup, h.sorted.descending⟩, ?_, ?_, ?_⟩
  · intro k
    rw [getElem?_swapped_reqIds h₁ h₂]
    refine (h.empty k).trans ⟨fun hk => (hfixed k hk).symm ▸ hk, fun hk => ?_⟩
    have hback := hfixed _ hk
    rw [Equiv.swap_apply_self] at hback
    exact hback ▸ hk
  · rw [heff.lengths, hplaced.numReqs, ← h.placed.numReqs]
    exact h.count
  · intro k hk
    have hne : k ≠ a := by
      rintro rfl
      cases ((h.empty k).mp hk).symm.trans h₁
    refine Eq.trans ?_ (h.cleared k hk)
    unfold InputBatch.swapped
    rw [Columns.mask_swapRequests, Function.update_of_ne hne]

theorem Settled.swapped (h : s.Settled cfg widths live) (h₁ : s.StandsAt id₁ a)
    (h₂ : s.StandsAt id₂ b) : (s.swapped a b id₁ id₂).Settled cfg widths live := by
  obtain ⟨heff, hplaced⟩ := swapStates_spec h.placed (swapStates_eq h.placed h₁ h₂)
  refine ⟨heff.core h.toCore hplaced, heff.full h.full, ⟨h.sorted.nodup, h.sorted.descending⟩,
    h.read, fun k hk => ?_⟩
  rw [heff.lengths]
  exact h.leftover k hk

/-- After a full exchange every column still belongs to the request at its index. -/
theorem Exchanged.belongs (h : s.Exchanged cfg s' a b) (hcore : s'.Core cfg widths live)
    (hbelongs : s.Belongs cfg live) : s'.Belongs cfg live := by
  have hstands : ∀ {id k}, s'.StandsAt id k → s.StandsAt id (Equiv.swap a b k) := by
    intro id k hk
    unfold StandsAt at hk
    rw [h.reqIds] at hk
    exact hk
  refine ⟨⟨?_, ?_⟩, hcore.fits, ?_⟩
  · intro k r hr hk
    rw [h.outputs]
    exact hbelongs.outputs _ r hr (hstands hk)
  · intro k r hr hk
    rw [h.columns.columns]
    exact hbelongs.flags _ r hr (hstands hk)
  · intro k r hr hk p hp token htoken
    have hmask := hbelongs.masks _ r hr (hstands hk) p hp token htoken
    exact (h.columns.mask k token htoken).trans hmask

/-- A swap that returns keeps the invariant, and keeps what belongs to the requests if it is
sound. -/
theorem Proper.swapStates (h : s.Proper cfg widths phase live)
    (hok : (BatchOp.swap a b).run cfg s = .ok s') :
    s'.Proper cfg widths phase live ∧
      ((BatchOp.swap a b).Sound cfg s → s.Belongs cfg live → s'.Belongs cfg live) := by
  obtain ⟨id₁, id₂, h₁, h₂⟩ := swapStates_stands hok
  have hplaced := h.core.placed
  cases (swapStates_eq hplaced h₁ h₂).symm.trans hok
  have hproper : (s.swapped a b id₁ id₂).Proper cfg widths phase live := by
    cases phase with
    | changing => exact Open.swapped h h₁ h₂
    | condensed => exact Settled.swapped h h₁ h₂
  refine ⟨hproper, fun hsound => ?_⟩
  exact ((exchanged_iff hplaced h₁ h₂).mpr hsound).belongs hproper.core

/-! ### Condensing -/

/-- Moving a request takes its output list along, and leaves the flags where they are. -/
theorem moveRequest_writes {src tgt : ℕ} (hok : s.moveRequest src tgt = .ok s') :
    s'.reqOutputTokenIds =
        (s.reqOutputTokenIds.set tgt (s.reqOutputTokenIds[src]?).join).set src none ∧
      s'.columns.logitsProcessingNeedsTokenIds = s.columns.logitsProcessingNeedsTokenIds ∧
      s'.builder.removedList = s.builder.popRemoved.2.removedList ∧
      s'.builder.isRemovedSorted = s.builder.popRemoved.2.isRemovedSorted := by
  unfold InputBatch.moveRequest at hok
  split at hok
  case h_1 => cases hok
  case h_2 => cases hok
  obtain ⟨_, -, hok⟩ := Fallible.bind_eq_ok.mp hok
  obtain ⟨_, -, hok⟩ := Fallible.bind_eq_ok.mp hok
  obtain ⟨_, hset₁, hok⟩ := Fallible.bind_eq_ok.mp hok
  obtain ⟨_, hset₂, hok⟩ := Fallible.bind_eq_ok.mp hok
  cases hok
  unfold setItem at hset₁ hset₂
  split at hset₁
  · cases hset₁
    split at hset₂
    · cases hset₂
      exact ⟨rfl, rfl, rfl, rfl⟩
    · cases hset₂
  · cases hset₁

/-- The request that moves keeps its output list, and its flag if the two indices agree. -/
theorem Tagged.move {src tgt : ℕ} (h : s.Tagged live) (hs : s.Placed live)
    (hok : s.moveRequest src tgt = .ok s') (hmove : Move s s' src tgt id)
    (hsrc : s.StandsAt id src) (htgt : tgt < src)
    (hflags : s.columns.logitsProcessingNeedsTokenIds src =
      s.columns.logitsProcessingNeedsTokenIds tgt) : s'.Tagged live := by
  obtain ⟨houts, hsame, -, -⟩ := moveRequest_writes hok
  have hlt := hsrc.lt_length
  rw [← hs.lengths] at hlt
  constructor
  · intro k r hr hk
    rw [houts, List.getElem?_set, List.getElem?_set]
    rcases (hmove.standsAt hsrc htgt).mp hk with ⟨rfl, hid⟩ | ⟨hks, hkt, hk⟩
    · rw [if_neg htgt.ne', if_pos rfl, if_pos (htgt.trans hlt), h.outputs src r hr (hid ▸ hsrc)]
      rfl
    · rw [if_neg (Ne.symm hks), if_neg (Ne.symm hkt)]
      exact h.outputs k r hr hk
  · intro k r hr hk
    rw [hsame]
    rcases (hmove.standsAt hsrc htgt).mp hk with ⟨rfl, hid⟩ | ⟨-, -, hk⟩
    · rw [← hflags]
      exact h.flags src r hr (hid ▸ hsrc)
    · exact h.flags k r hr hk

theorem largestNonEmpty_reverse (empty : List ℕ) (last : ℕ) :
    largestNonEmpty empty.reverse last = largestNonEmpty empty last := by
  induction last with
  | zero => simp only [largestNonEmpty, List.mem_reverse]
  | succ last ih => simp only [largestNonEmpty, List.mem_reverse, ih]

/-- Once the removed indices are sorted, the last one is the next to be taken. -/
theorem popRemoved_of_read {builder : BatchUpdateBuilder} {empty : ℕ} {rest : List ℕ}
    (hread : builder.isRemovedSorted = true)
    (hlist : builder.removedList = (empty :: rest).reverse) :
    builder.popRemoved = (some empty, { builder with removedList := rest.reverse }) := by
  have hsorted : builder.ensureRemovedSorted = builder := if_pos hread
  have hsome : builder.hasRemoved = true := by
    unfold BatchUpdateBuilder.hasRemoved
    rw [hlist, List.reverse_cons]
    simp
  unfold BatchUpdateBuilder.popRemoved
  rw [if_pos hsome, hsorted, hlist, List.reverse_cons, List.getLast?_concat,
    List.dropLast_concat]

/-- The loop takes the output lists along, and the flags where the two indices of a move agree. -/
theorem condenseLoop_tagged {rounds : ℕ} {empties : List ℕ} (h : s.Sliding cfg widths live last)
    (hread : s.builder.isRemovedSorted = true)
    (hlist : s.builder.removedList = empties.reverse)
    (hok : condenseLoop rounds s last = .ok s') (htagged : s.Tagged live)
    (hslides : ∀ move ∈ slidesFrom empties last,
      s.columns.logitsProcessingNeedsTokenIds move.1 =
        s.columns.logitsProcessingNeedsTokenIds move.2) : s'.Tagged live := by
  -- A round of the loop is the first slide and the loop on the state behind it.
  induction rounds generalizing s last empties with
  | zero =>
    cases hok
    exact htagged
  | succ rounds ih =>
    unfold condenseLoop at hok
    cases empties with
    | nil =>
      rw [if_pos (hlist.trans List.reverse_nil)] at hok
      cases hok
      exact htagged
    | cons tgt rest =>
      have hpop := popRemoved_of_read hread hlist
      have hsome : s.builder.removedList ≠ [] := by
        rw [hlist, List.reverse_cons]
        simp
      rw [if_neg hsome, peekRemoved_eq_popRemoved, hpop, hlist, largestNonEmpty_reverse] at hok
      unfold slidesFrom at hslides
      cases hlargest : largestNonEmpty (tgt :: rest) last with
      | none =>
        rw [hlargest] at hok
        cases hok
        exact htagged
      | some src =>
        rw [hlargest] at hok hslides
        dsimp only at hok hslides
        by_cases hstop : src ≤ tgt
        · rw [if_pos hstop] at hok
          cases hok
          exact htagged
        · rw [if_neg hstop] at hok hslides
          have htgt : tgt < src := by omega
          rw [← largestNonEmpty_reverse, ← hlist] at hlargest
          obtain ⟨hle, hout, hbetween⟩ := largestNonEmpty_some hlargest
          obtain ⟨_, hsrc⟩ := h.exists_standsAt hle hout
          -- The request moves down to the smallest empty index, with its flag.
          obtain ⟨t, hmoveOk, hmove⟩ := moveRequest_spec hsrc htgt h.placed.lengths
          obtain ⟨-, hflags, hremoved, hflag⟩ := moveRequest_writes hmoveOk
          have hnext := h.move hpop hsrc hle hbetween htgt hmove
          obtain ⟨_, hmoveOk', hok⟩ := Fallible.bind_eq_ok.mp hok
          cases hmoveOk.symm.trans hmoveOk'
          have htagged' := htagged.move h.placed hmoveOk hmove hsrc htgt
            (hslides _ List.mem_cons_self)
          have hread' : t.builder.isRemovedSorted = true := by
            rw [hflag, hpop]
            exact hread
          have hlist' : t.builder.removedList = rest.reverse := by rw [hremoved, hpop]
          apply ih hnext hread' hlist' hok htagged'
          intro move hmem
          rw [hflags]
          exact hslides move (List.mem_cons_of_mem _ hmem)

theorem Tagged.trim (h : s.Tagged live) (hstands : ∀ id i, s.trim.StandsAt id i ↔ s.StandsAt id i) :
    s.trim.Tagged live := by
  constructor
  · intro k r hr hk
    have hlt := hk.lt_length
    unfold InputBatch.trim at hlt ⊢
    rw [List.length_take] at hlt
    rw [List.getElem?_take_of_lt (by omega)]
    exact h.outputs k r hr ((hstands _ k).mp hk)
  · exact fun k r hr hk => h.flags k r hr ((hstands _ k).mp hk)

theorem fillEmpty_tagged (h : s.Open cfg widths live) (hread : s.builder.isRemovedSorted = true)
    (hok : s.fillEmpty = .ok s') (htagged : s.Tagged live)
    (hslides : ∀ move ∈ slidesFrom s.builder.removedList.reverse
        (s.numReqs + s.builder.removedList.length - 1),
      s.columns.logitsProcessingNeedsTokenIds move.1 =
        s.columns.logitsProcessingNeedsTokenIds move.2) : s'.Tagged live := by
  unfold fillEmpty at hok
  by_cases hnil : s.builder.removedList = []
  · rw [if_pos hnil] at hok
    cases hok
    exact htagged
  rw [if_neg hnil] at hok
  by_cases hzero : s.numReqs = 0
  · obtain rfl : live = [] := List.length_eq_zero_iff.mp (h.placed.numReqs.symm.trans hzero)
    exact ⟨fun _ r hr => absurd hr List.not_mem_nil, fun _ r hr => absurd hr List.not_mem_nil⟩
  rw [if_neg hzero] at hok
  have hsliding := h.sliding hnil hzero
  obtain ⟨_, _, hloop, hcore, hfilled, -⟩ := condenseLoop_spec hsliding (le_refl _)
  obtain ⟨_, hloop', hok⟩ := Fallible.bind_eq_ok.mp hok
  cases hloop.symm.trans hloop'
  cases hok
  obtain ⟨-, -, -, hstands⟩ := hfilled.trim hcore
  exact (condenseLoop_tagged hsliding hread (List.reverse_reverse _).symm hloop htagged
    hslides).trim hstands

/-- The indices that are still recorded stay vacant. -/
theorem keptByMoves_leftover (cfg : Config) (widths : List ℕ) (live : List CachedRequestState) :
    KeptByMoves cfg widths live fun s => s.builder.Sorted ∧ s.builder.isRemovedSorted = true ∧
      ∀ i ∈ s.builder.removedList, s.VacantAt i where
  same := fun s s' hbuilder hsame h => by
    rw [hbuilder]
    exact ⟨h.1, h.2.1, fun i hi id hid => h.2.2 i hi id ((hsame id i).mp hid)⟩
  move := fun s s' last src tgt id builder hslide hpop hsrc htgt hmove h => by
    obtain ⟨-, -, hremoved, -, hsorted, hread, -⟩ :=
      BatchUpdateBuilder.popRemoved_spec hslide.sorted hpop
    have hlist : s'.builder.removedList = builder.removedList := by rw [hmove.removed, hpop]
    have hflag : s'.builder.isRemovedSorted = builder.isRemovedSorted := by
      rw [hmove.sortedFlag, hpop]
    refine ⟨⟨hlist ▸ hsorted.nodup, fun hs => hlist ▸ hsorted.descending (hflag ▸ hs)⟩,
      hflag.trans hread, fun i hi id' hid' => ?_⟩
    obtain ⟨hi, hne⟩ := (hremoved i).mp (hlist ▸ hi)
    rcases (hmove.standsAt hsrc htgt).mp hid' with ⟨heq, -⟩ | ⟨-, -, hid'⟩
    · exact hne heq
    · exact h.2.2 i hi id' hid'

/-- After the first `condense` of a step another one that returns does nothing. -/
theorem Settled.condense_eq (h : s.Settled cfg widths live) (hok : s.condense = .ok s') :
    s' = s := by
  have hend := h.placed.length_of_full h.full
  have hlens := h.placed.lengths
  have hbuilder : s.builder.removed.2 = s.builder := if_pos h.read
  unfold condense at hok
  rw [hbuilder] at hok
  change s.fillEmpty = .ok s' at hok
  unfold fillEmpty at hok
  by_cases hnil : s.builder.removedList = []
  · rw [if_pos hnil] at hok
    exact (Except.ok.inj hok).symm
  rw [if_neg hnil] at hok
  by_cases hzero : s.numReqs = 0
  · rw [if_pos hzero] at hok
    have hids : s.reqIds = [] := List.eq_nil_of_length_eq_zero (hend.trans hzero)
    have houts : s.reqOutputTokenIds = [] :=
      List.eq_nil_of_length_eq_zero (hlens.trans (hend.trans hzero))
    rw [← Except.ok.inj hok, ← hids]
    nth_rewrite 2 [hids]
    rw [← houts]
  rw [if_neg hzero] at hok
  obtain ⟨t, hloop, hok⟩ := Fallible.bind_eq_ok.mp hok
  cases hok
  have hstays : t = s := by
    obtain ⟨_, hrounds⟩ := Nat.exists_eq_succ_of_ne_zero
      (List.length_pos_of_ne_nil hnil).ne'
    rw [hrounds] at hloop
    unfold condenseLoop at hloop
    rw [if_neg hnil, peekRemoved_eq_popRemoved] at hloop
    rcases hpop : s.builder.popRemoved with ⟨popped, builder⟩
    rw [hpop] at hloop
    cases popped with
    | none => exact absurd (BatchUpdateBuilder.popRemoved_none hpop).1 hnil
    | some tgt =>
      have hbehind := h.leftover tgt (BatchUpdateBuilder.popRemoved_spec h.sorted hpop).1
      split at hloop
      · exact (Except.ok.inj hloop).symm
      · cases hloop
      · rename_i last empty hlargest htgt
        cases htgt
        split at hloop
        · exact (Except.ok.inj hloop).symm
        · -- a move would read behind the end of the list
          obtain ⟨_, hmove, -⟩ := Fallible.bind_eq_ok.mp hloop
          unfold InputBatch.moveRequest at hmove
          rw [List.getElem?_eq_none (by omega)] at hmove
          cases hmove
  rw [hstays]
  unfold trim
  rw [List.take_of_length_le (by omega), List.take_of_length_le (by omega)]

/-- A `condense` that returns closes all gaps, and keeps what belongs to the requests if it is
sound. -/
theorem Proper.condense (h : s.Proper cfg widths phase live)
    (hok : BatchOp.condense.run cfg s = .ok s') :
    s'.Settled cfg widths live ∧
      (BatchOp.condense.Sound cfg s → s.Belongs cfg live → s'.Belongs cfg live) := by
  cases phase with
  | condensed =>
    obtain rfl := Settled.condense_eq h hok
    exact ⟨h, fun _ hbelongs => hbelongs⟩
  | changing =>
    have hread := BatchUpdateBuilder.ensureRemovedSorted_isRemovedSorted s.builder
    have hopen := Open.readRemoved h
    obtain ⟨_, hok', hcore, hfull, hrows, hkept⟩ := fillEmpty_spec hopen
    cases hok'.symm.trans hok
    obtain ⟨hsorted, hread', hvacant⟩ := hkept _ (keptByMoves_leftover cfg widths live)
      ⟨hopen.sorted, hread, fun i hi => vacantAt_of_none ((hopen.empty i).mp hi)⟩
    refine ⟨⟨hcore, hfull, hsorted, hread', fun i hi => ?_⟩, fun hsound hbelongs => ?_⟩
    · by_contra hlt
      obtain ⟨id, hid⟩ := hfull i (by omega)
      exact hvacant i hi id hid
    · have hbelongs' := hbelongs.withBuilder s.builder.removed.2
      exact ⟨fillEmpty_tagged hopen hread hok' hbelongs'.toTagged hsound, hcore.fits,
        (hrows _).mpr hbelongs'.masks⟩

/-- Handing the record over starts the next step. -/
theorem Settled.refreshMetadata (h : s.Settled cfg widths live) :
    s.refreshMetadata.2.Open cfg widths live :=
  Ready.open ⟨h.toCore.withBuilder _, h.full, BatchUpdateBuilder.getAndReset_snd _ _⟩

end Batch.InputBatch

namespace Batch

/-! ### Runs -/

section OpRuns

variable {cfg : Config} {widths : List ℕ} {stages : List OpStage} {phase : BatchPhase}
  {s t : InputBatch} {live : List CachedRequestState} {op : BatchOp}

/-- What one operation does to the invariant and to what belongs to the requests. -/
theorem BatchOp.step_spec (h : s.Proper cfg widths phase live)
    (hadm : op.Admissible cfg widths live phase) (hok : op.run cfg s = .ok t) :
    t.Proper cfg widths (op.phase phase) (op.live live) ∧
      (op.Sound cfg s → s.Belongs cfg live → t.Belongs cfg (op.live live)) := by
  cases op with
  | remove id =>
    obtain ⟨hproper, hcases⟩ := h.removeRequest hok
    refine ⟨hproper, fun _ hbelongs => ?_⟩
    rcases hcases with ⟨rfl, hsame⟩ | ⟨k, -, heff⟩
    · change t.Belongs cfg (InputBatch.without live id)
      rw [hsame]
      exact hbelongs
    · exact heff.belongs hbelongs
  | add r => exact h.addRequest hadm hok
  | condense => exact h.condense hok
  | swap i₁ i₂ => exact h.swapStates hok
  | refresh =>
    cases hok
    obtain rfl : phase = .condensed := hadm
    exact ⟨InputBatch.Settled.refreshMetadata h, fun _ hbelongs => hbelongs.withBuilder _⟩

theorem OpRun.proper (hrun : OpRun cfg widths stages phase s live) :
    s.Proper cfg widths phase live := by
  induction hrun with
  | start => exact (InputBatch.ready_init cfg widths).open
  | step run admissible ok ih => exact (BatchOp.step_spec ih admissible ok).1

theorem OpRun.belongs (hrun : OpRun cfg widths stages phase s live)
    (hsound : ∀ stage ∈ stages, stage.op.Sound cfg stage.before) : s.Belongs cfg live := by
  induction hrun with
  | start =>
    exact ⟨⟨fun _ r hr => absurd hr List.not_mem_nil, fun _ r hr => absurd hr List.not_mem_nil⟩,
      fun _ r hr => absurd hr List.not_mem_nil, fun _ r hr => absurd hr List.not_mem_nil⟩
  | step run admissible ok ih =>
    obtain ⟨hbefore, hlast⟩ := forall_mem_snoc.mp hsound
    exact (BatchOp.step_spec run.proper admissible ok).2 hlast (ih hbefore)

/-- In every reachable batch two indices in use are exchanged iff they agree in their mask rows and
flags; and each column belongs to the request at its index as long as no step has met a row or a
flag of another request. -/
theorem OpRun.swap_and_belongs (hrun : OpRun cfg widths stages phase s live) :
    (∀ i₁ i₂ id₁ id₂, s.StandsAt id₁ i₁ → s.StandsAt id₂ i₂ →
      ∃ t, s.swapStates i₁ i₂ = .ok t ∧
        (s.Exchanged cfg t i₁ i₂ ↔ s.columns.Agree cfg i₁ i₂)) ∧
    ((∀ stage ∈ stages, stage.op.Sound cfg stage.before) → s.Belongs cfg live) := by
  have hplaced := hrun.proper.core.placed
  refine ⟨fun i₁ i₂ id₁ id₂ h₁ h₂ => ?_, hrun.belongs⟩
  exact ⟨s.swapped i₁ i₂ id₁ id₂, InputBatch.swapStates_eq hplaced h₁ h₂,
    InputBatch.exchanged_iff hplaced h₁ h₂⟩

end OpRuns

/-- A request with a mask and one without. -/
def maskedOps : List BatchOp := [.add (plainRequest 0 [1]), .add (plainRequest 1 []), .condense]

/-- A run to a batch of the two requests, whose mask rows differ. No step of it meets a row or a
flag of another request. -/
theorem exists_masked_run : ∃ stages s live, OpRun smallConfig [1] stages .condensed s live ∧
    (∀ stage ∈ stages, stage.op.Sound smallConfig stage.before) ∧
    s.StandsAt 0 0 ∧ s.StandsAt 1 1 ∧ s.columns.mask 0 0 = true ∧
    s.columns.mask 1 0 = false := by
  have hview : (maskedOps.foldlM (BatchOp.run smallConfig) (InputBatch.init [1])).map
      (fun s => (s.reqIds, s.columns.mask 0 0, s.columns.mask 1 0)) =
        .ok ([some 0, some 1], true, false) := by
    decide +kernel
  -- at the second addition, the row at the next index is empty, and afterwards nothing slides
  have hsecond : (BatchOp.run smallConfig (InputBatch.init [1]) (.add (plainRequest 0 [1]))).map
      (fun s => (s.columns.logitsProcessingNeedsTokenIds s.getNextAddIndex.1,
        (List.range smallConfig.vocabSize).all fun token =>
          !s.columns.mask s.getNextAddIndex.1 token)) = .ok (false, true) := by
    decide +kernel
  have hthird : ((maskedOps.take 2).foldlM (BatchOp.run smallConfig) (InputBatch.init [1])).map
      InputBatch.slides = .ok [] := by
    decide +kernel
  cases hs : maskedOps.foldlM (BatchOp.run smallConfig) (InputBatch.init [1]) with
  | error e =>
    rw [hs] at hview
    cases hview
  | ok s =>
    rw [hs] at hview
    obtain ⟨hids, hview⟩ := Prod.mk.inj (Except.ok.inj hview)
    obtain ⟨hmask₀, hmask₁⟩ := Prod.mk.inj hview
    obtain ⟨t₁, hok₁, hs⟩ := Fallible.foldlM_cons_eq_ok.mp hs
    obtain ⟨t₂, hok₂, hs⟩ := Fallible.foldlM_cons_eq_ok.mp hs
    obtain ⟨t₃, hok₃, hs⟩ := Fallible.foldlM_cons_eq_ok.mp hs
    obtain rfl := Except.ok.inj hs
    rw [hok₁] at hsecond
    obtain ⟨hflag, hrow⟩ := Prod.mk.inj (Except.ok.inj hsecond)
    rw [show (maskedOps.take 2).foldlM (BatchOp.run smallConfig) (InputBatch.init [1]) = .ok t₂ from
      Fallible.foldlM_cons_eq_ok.mpr ⟨t₁, hok₁, Fallible.foldlM_cons_eq_ok.mpr ⟨t₂, hok₂, rfl⟩⟩]
      at hthird
    have hslides := Except.ok.inj hthird
    have hrun₁ := @OpRun.step _ _ _ _ _ _ (.add (plainRequest 0 [1])) _ (.start)
      ⟨by decide, by decide⟩ hok₁
    have hrun₂ := @OpRun.step _ _ _ _ _ _ (.add (plainRequest 1 [])) _ hrun₁
      ⟨by decide, by decide⟩ hok₂
    have hrun := @OpRun.step _ _ _ _ _ _ .condense _ hrun₂ trivial hok₃
    refine ⟨_, t₃, _, hrun, ?_, ?_, ?_, hmask₀, hmask₁⟩
    · refine List.forall_mem_append.mpr ⟨List.forall_mem_append.mpr ⟨?_, ?_⟩, ?_⟩
      · rintro _ hmem
        obtain rfl := List.mem_singleton.mp hmem
        rintro p hp
        cases hp
        exact ⟨rfl, nofun⟩
      · rintro _ hmem
        obtain rfl := List.mem_singleton.mp hmem
        refine fun p _ => ⟨hflag, fun _ token htoken => ?_⟩
        simpa using List.all_eq_true.mp hrow token (List.mem_range.mpr htoken)
      · rintro _ hmem
        obtain rfl := List.mem_singleton.mp hmem
        intro move hmove
        rw [hslides] at hmove
        cases hmove
    · rw [InputBatch.StandsAt, hids]
      rfl
    · rw [InputBatch.StandsAt, hids]
      rfl

/-- Not every two requests are exchanged, and not in every run each column belongs to the request at
its index. -/
theorem not_swap_and_belongs : ¬ ∀ (cfg : Config) (widths : List ℕ) (stages : List OpStage)
    (phase : BatchPhase) (s : InputBatch) (live : List CachedRequestState),
      OpRun cfg widths stages phase s live →
        (∀ i₁ i₂ id₁ id₂, s.StandsAt id₁ i₁ → s.StandsAt id₂ i₂ →
          ∃ t, s.swapStates i₁ i₂ = .ok t ∧ s.Exchanged cfg t i₁ i₂) ∧ s.Belongs cfg live := by
  intro h
  obtain ⟨stages, s, live, hrun, -, h₀, h₁, hmask₀, hmask₁⟩ := exists_masked_run
  obtain ⟨hswaps, -⟩ := h smallConfig [1] stages .condensed s live hrun
  obtain ⟨t, hok, hexchanged⟩ := hswaps 0 1 0 1 h₀ h₁
  have hplaced := hrun.proper.core.placed
  cases (InputBatch.swapStates_eq hplaced h₀ h₁).symm.trans hok
  obtain ⟨hmasks, -⟩ := (InputBatch.exchanged_iff hplaced h₀ h₁).mp hexchanged
  have hsame := hmasks 0 (by decide)
  rw [hmask₀, hmask₁] at hsame
  cases hsame

/-- There each column belongs to its request, and a swap of the two does not exchange them. -/
theorem swap_and_belongs_masked : ∃ stages s live t,
    OpRun smallConfig [1] stages .condensed s live ∧ s.StandsAt 0 0 ∧ s.StandsAt 1 1 ∧
    s.Belongs smallConfig live ∧ s.swapStates 0 1 = .ok t ∧ ¬s.Exchanged smallConfig t 0 1 := by
  obtain ⟨stages, s, live, hrun, hsound, h₀, h₁, hmask₀, hmask₁⟩ := exists_masked_run
  obtain ⟨hswaps, hbelongs⟩ := hrun.swap_and_belongs
  obtain ⟨t, hok, hiff⟩ := hswaps 0 1 0 1 h₀ h₁
  refine ⟨stages, s, live, t, hrun, h₀, h₁, hbelongs hsound, hok, fun hexchanged => ?_⟩
  have hsame := (hiff.mp hexchanged).1 0 (by decide)
  rw [hmask₀, hmask₁] at hsame
  cases hsame

end Batch
