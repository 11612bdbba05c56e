import Mosaic.Batch.Condense

/-!
# Steps of the persistent batch

A step removes requests, adds requests and condenses. After every step of every run the batch is
packed: it holds exactly the requests that were added and not removed, without empty slots, and
every column holds at an index what belongs to the request there. The one exception is the mask of
allowed tokens: `condense` leaves the row that it moved as it was, and a request that needs no mask
does not write its row. Such a request is masked by what a request before it has left at its index,
unless that row happens to be clean.
-/

namespace Batch

open List Fallible

/-! ### Steps -/

namespace StepChange

/-- The requests of the batch after a step. -/
def apply (change : StepChange) (live : List CachedRequestState) : List CachedRequestState :=
  live.filter (fun r => r.reqId ∉ change.removes) ++ change.adds

/-- What the scheduler and the model runner see to: a request is added once, the batch has room,
and so have the arrays. -/
@[mk_iff] structure Admissible (change : StepChange) (cfg : Config) (widths : List ℕ)
    (live : List CachedRequestState) : Prop where
  distinct : ((change.apply live).map CachedRequestState.reqId).Nodup
  room : (change.apply live).length ≤ cfg.maxNumReqs
  fits : ∀ r ∈ change.adds, r.FitsIn cfg widths

instance (change : StepChange) (cfg : Config) (widths : List ℕ)
    (live : List CachedRequestState) : Decidable (change.Admissible cfg widths live) :=
  decidable_of_iff' _ (admissible_iff ..)

/-- The number of requests that the step leaves in the batch. -/
def kept (change : StepChange) (s : InputBatch) : ℕ :=
  (s.reqIdToIndex.keys.filter (· ∉ change.removes)).length

/-- No added request without allowed tokens is appended at an index whose mask row is not clean.
The added request number `j` is appended if the requests before it fill the batch up, and then it
gets the index `kept + j`. -/
def StaleFree (change : StepChange) (cfg : Config) (s : InputBatch) : Prop :=
  ∀ j r, change.adds[j]? = some r → r.Unrestricted → s.numReqs ≤ change.kept s + j →
    ∀ token < cfg.vocabSize, s.columns.mask (change.kept s + j) token = false

end StepChange

namespace InputBatch

variable {cfg : Config} {widths : List ℕ} {s : InputBatch} {live : List CachedRequestState}

/-- No slot is empty, the index map is the inverse of the list of ids, the requests are the given
ones, and all columns but the mask hold their values. -/
structure Packed (cfg : Config) (s : InputBatch) (live : List CachedRequestState) : Prop where
  order : ∃ ids : List ReqId, s.reqIds = ids.map some ∧ ids.length = s.numReqs ∧ ids.Nodup ∧
    ids.Perm (live.map CachedRequestState.reqId)
  inverse : ∀ id i, s.reqIdToIndex.lookup id = some i ↔ s.StandsAt id i
  rows : s.AllRows (Row.Fits cfg) live

/-- A packed batch whose masks are those of its requests. -/
structure Faithful (cfg : Config) (s : InputBatch) (live : List CachedRequestState) : Prop
    extends Packed cfg s live where
  masks : s.AllRows (Row.MaskFits cfg) live

/-- The invariant between steps. -/
structure Ready (cfg : Config) (widths : List ℕ) (s : InputBatch)
    (live : List CachedRequestState) : Prop extends Core cfg widths s live where
  full : s.Full
  recorded : s.builder = {}

theorem ready_init (cfg : Config) (widths : List ℕ) : (init widths).Ready cfg widths [] where
  placed :=
    { distinct := nodup_nil
      inverse := fun _ _ => ⟨nofun, nofun⟩
      present := fun _ => ⟨fun h => absurd h (AList.notMem_empty _), nofun⟩
      lengths := rfl }
  fits := fun _ _ hr => absurd hr not_mem_nil
  clean := fun _ _ => ⟨rfl, rfl⟩
  adapted := fun _ hr => absurd hr not_mem_nil
  widths := by
    simp only [init, Columns.widths, map_map, Function.comp_def, map_id']
  capacity := Nat.zero_le _
  full := fun i hi => absurd hi (Nat.not_lt_zero i)
  recorded := rfl

theorem Ready.packed (h : s.Ready cfg widths live) : s.Packed cfg live := by
  obtain ⟨ids, hids, hperm⟩ := h.placed.exists_perm h.full
  refine ⟨⟨ids, hids, ?_, hperm.nodup_iff.mpr h.placed.distinct, hperm⟩, h.placed.inverse, h.fits⟩
  rw [h.placed.numReqs, hperm.length_eq, length_map]

/-- At the start of a step nothing is recorded as removed. -/
theorem Ready.open (h : s.Ready cfg widths live) : s.Open cfg widths live := by
  have hnil : s.builder.removedList = [] := by rw [h.recorded]
  refine ⟨h.toCore, ⟨?_, ?_⟩, ?_, ?_, ?_⟩
  · rw [hnil]
    exact nodup_nil
  · rw [hnil]
    exact fun _ => List.Pairwise.nil
  · intro i
    rw [hnil]
    refine ⟨nofun, fun hnone => ?_⟩
    obtain ⟨_, hid⟩ := h.full i (List.getElem?_eq_some_iff.mp hnone).1
    cases hnone.symm.trans hid
  · rw [hnil]
    exact h.placed.length_of_full h.full
  · rw [hnil]
    exact nofun

/-! ### The phases of a step -/

theorem without_filter (live : List CachedRequestState) (id : ReqId) (ids : List ReqId) :
    (without live id).filter (fun r => r.reqId ∉ ids) =
      live.filter fun r => r.reqId ∉ id :: ids := by
  unfold without
  rw [filter_filter]
  apply filter_congr
  intro r _
  simp [Bool.and_comm]

/-- All removals of a step. -/
theorem removeAll_spec (h : s.Open cfg widths live)
    (hunread : s.builder.isRemovedSorted = false) (ids : List ReqId) :
    ∃ s', s.removeAll ids = .ok s' ∧
      s'.Open cfg widths (live.filter fun r => r.reqId ∉ ids) ∧
      s'.reqIds.length = s.reqIds.length ∧
      (∀ P, s.AllRows P live → s'.AllRows P (live.filter fun r => r.reqId ∉ ids)) ∧
      (∀ j, s.reqIds.length ≤ j → s'.columns.mask j = s.columns.mask j) := by
  induction ids generalizing s live with
  | nil =>
    have hall : live.filter (fun r => r.reqId ∉ ([] : List ReqId)) = live :=
      filter_eq_self.mpr fun r _ => by simp
    rw [hall]
    exact ⟨s, rfl, h, rfl, fun _ hP => hP, fun _ _ => rfl⟩
  | cons id ids ih =>
    obtain ⟨_, t, hok, hopen, hread, hlen, hrows, hmask, -⟩ := h.removeRequest hunread id
    obtain ⟨s', hok', hopen', hlen', hrows', hmask'⟩ := ih hopen hread
    rw [without_filter] at hopen' hrows'
    refine ⟨s', foldlM_cons_eq_ok.mpr ⟨t, bind_eq_ok.mpr ⟨_, hok, rfl⟩, hok'⟩,
      hopen', hlen'.trans hlen, fun P hP => hrows' P (hrows P hP), fun j hj => ?_⟩
    rw [hmask' j (hlen ▸ hj), hmask j hj]

/-- All additions of a step. The masks are right afterwards iff they were right and no request is
appended to a row that is not clean. -/
theorem addAll_spec (h : s.Open cfg widths live) {requests : List CachedRequestState}
    (hnodup : ((live ++ requests).map CachedRequestState.reqId).Nodup)
    (hroom : live.length + requests.length ≤ cfg.maxNumReqs)
    (hfits : ∀ r ∈ requests, r.FitsIn cfg widths) :
    ∃ s', s.addAll cfg requests = .ok s' ∧ s'.Open cfg widths (live ++ requests) ∧
      (s'.AllRows (Row.MaskFits cfg) (live ++ requests) ↔ s.AllRows (Row.MaskFits cfg) live ∧
        ∀ j r, requests[j]? = some r → r.Unrestricted → s.builder.removedList.length ≤ j →
          ∀ token < cfg.vocabSize, s.columns.mask (s.numReqs + j) token = false) := by
  induction requests generalizing s live with
  | nil =>
    rw [append_nil]
    exact ⟨s, rfl, h, fun hmask => ⟨hmask, fun j r hr => by cases hr⟩, And.left⟩
  | cons r requests ih =>
    have hnew : r.reqId ∉ live.map CachedRequestState.reqId := by
      rw [map_append, nodup_append] at hnodup
      intro hmem
      exact hnodup.2.2 _ hmem _ mem_cons_self rfl
    have hnum := h.placed.numReqs
    rw [length_cons] at hroom
    have hrfits := hfits r mem_cons_self
    obtain ⟨i, t, hok, hadd⟩ := addRequest_spec h hrfits (by omega)
    have hopen := hadd.open h hrfits (by omega) hnew
    have happend : live ++ r :: requests = live ++ [r] ++ requests := by
      rw [append_assoc, singleton_append]
    rw [happend] at hnodup
    obtain ⟨s', hok', hopen', hmasks⟩ := ih hopen hnodup
      (by rw [length_append, length_singleton]; omega)
      fun q hq => hfits q (mem_cons_of_mem r hq)
    rw [happend]
    refine ⟨s', foldlM_cons_eq_ok.mpr ⟨t, bind_eq_ok.mpr ⟨_, hok, rfl⟩, hok'⟩,
      hopen', ?_⟩
    rw [hmasks, hadd.allRows_iff h hnew, hadd.maskFits_iff h, and_assoc]
    have hnumReqs := hadd.numReqs h.placed hnew
    have hfewer := hadd.fewer
    -- the rows that later requests are appended to are not touched
    have hsame : ∀ j, t.builder.removedList.length ≤ j →
        t.columns.mask (t.numReqs + j) = s.columns.mask (s.numReqs + (j + 1)) := by
      intro j hj
      have hne : t.numReqs + j ≠ i := by
        have hcount := h.count
        rcases hadd.slot with ⟨-, rfl, -⟩ | ⟨hmem, -⟩
        · omega
        · have hlt := (List.getElem?_eq_some_iff.mp ((h.empty i).mp hmem)).1
          omega
      have hidx : t.numReqs + j = s.numReqs + (j + 1) := by omega
      rw [← hidx]
      exact congrArg Row.mask (hadd.rows _ hne)
    refine and_congr_right fun _ => ⟨?_, ?_⟩
    · rintro ⟨hfirst, hrest⟩ (_ | j) q hq hunrestricted hle
      · cases hq
        exact hfirst (length_eq_zero_iff.mp (Nat.le_zero.mp hle)) hunrestricted
      · have hle' : t.builder.removedList.length ≤ j := by omega
        rw [← hsame j hle']
        exact hrest j q hq hunrestricted hle'
    · intro hall
      refine ⟨fun hnil hunrestricted => ?_, fun j q hq hunrestricted hle => ?_⟩
      · exact hall 0 r rfl hunrestricted (by rw [hnil]; exact le_rfl)
      · rw [hsame j hle]
        exact hall (j + 1) q hq hunrestricted (by omega)

theorem Placed.kept (h : s.Placed live) (change : StepChange) :
    change.kept s = (live.filter fun r => r.reqId ∉ change.removes).length := by
  have hperm : s.reqIdToIndex.keys.Perm (live.map CachedRequestState.reqId) := by
    apply (perm_ext_iff_of_nodup s.reqIdToIndex.keys_nodup h.distinct).mpr
    intro id
    rw [← AList.mem_keys]
    exact h.present id
  unfold StepChange.kept
  rw [(hperm.filter _).length_eq, filter_map, length_map]
  rfl

/-- One step of the batch. -/
theorem update_spec (h : s.Ready cfg widths live) {change : StepChange}
    (hadm : change.Admissible cfg widths live) :
    ∃ t, s.update cfg change = .ok t ∧ t.Ready cfg widths (change.apply live) ∧
      (s.AllRows (Row.MaskFits cfg) live →
        (t.AllRows (Row.MaskFits cfg) (change.apply live) ↔ change.StaleFree cfg s)) := by
  obtain ⟨s₁, hremove, hopen₁, hlen₁, hrows₁, hmask₁⟩ :=
    removeAll_spec h.open (by rw [h.recorded]) change.removes
  have hroom := hadm.room
  unfold StepChange.apply at hroom
  rw [length_append] at hroom
  obtain ⟨s₂, hadd, hopen₂, hmask₂⟩ := addAll_spec hopen₁ hadm.distinct hroom hadm.fits
  obtain ⟨s₃, hcondense, hcore, hfull, hrows₃⟩ := condense_spec hopen₂
  refine ⟨s₃.refreshMetadata.2, bind_eq_ok.mpr ⟨s₁, hremove, bind_eq_ok.mpr
    ⟨s₂, hadd, bind_eq_ok.mpr ⟨s₃, hcondense, rfl⟩⟩⟩, ?_, ?_⟩
  · exact ⟨⟨⟨hcore.placed.distinct, hcore.placed.inverse, hcore.placed.present,
      hcore.placed.lengths⟩, hcore.fits, hcore.clean, hcore.adapted, hcore.widths,
      hcore.capacity⟩, hfull, BatchUpdateBuilder.getAndReset_snd _ _⟩
  · intro hmasks
    have hlast : s₃.refreshMetadata.2.AllRows (Row.MaskFits cfg) (change.apply live) ↔
        s₃.AllRows (Row.MaskFits cfg) (change.apply live) := Iff.rfl
    have hkept := (h.placed.kept change).trans hopen₁.placed.numReqs.symm
    have hsize : s.numReqs = s₁.numReqs + s₁.builder.removedList.length := by
      rw [← hopen₁.count, hlen₁, h.placed.length_of_full h.full]
    rw [hlast]
    refine ((hrows₃ (Row.MaskFits cfg)).trans hmask₂).trans ?_
    unfold StepChange.StaleFree
    rw [hkept]
    constructor
    · rintro ⟨-, hstale⟩ j r hr hunrestricted hle
      rw [← hmask₁ _ (by rw [h.placed.length_of_full h.full]; exact hle)]
      exact hstale j r hr hunrestricted (by omega)
    · intro hstale
      refine ⟨hrows₁ _ hmasks, fun j r hr hunrestricted hle => ?_⟩
      rw [hmask₁ _ (by rw [h.placed.length_of_full h.full]; omega)]
      exact hstale j r hr hunrestricted (by omega)

end InputBatch

/-! ### Runs -/

/-- One step of a run: the batch before it, what it was asked to do, the batch after it and the
requests that this batch should hold. -/
structure Stage where
  before : InputBatch
  change : StepChange
  after : InputBatch
  live : List CachedRequestState

/-- The runs of the batch with their steps. -/
inductive Run (cfg : Config) (widths : List ℕ) :
    List Stage → InputBatch → List CachedRequestState → Prop
  | start : Run cfg widths [] (InputBatch.init widths) []
  | step {stages s live change t} (run : Run cfg widths stages s live)
      (admissible : change.Admissible cfg widths live) (ok : s.update cfg change = .ok t) :
      Run cfg widths (stages ++ [⟨s, change, t, change.apply live⟩]) t (change.apply live)

section Runs

variable {cfg : Config} {widths : List ℕ} {stages : List Stage} {s : InputBatch}
  {live : List CachedRequestState}

theorem Run.ready (hrun : Run cfg widths stages s live) : s.Ready cfg widths live := by
  induction hrun with
  | start => exact InputBatch.ready_init cfg widths
  | step run admissible ok ih =>
    obtain ⟨_, hok, hready, -⟩ := InputBatch.update_spec ih admissible
    cases hok.symm.trans ok
    exact hready

theorem forall_mem_snoc {α : Type} {P : α → Prop} {xs : List α} {x : α} :
    (∀ y ∈ xs ++ [x], P y) ↔ (∀ y ∈ xs, P y) ∧ P x := by
  simp only [mem_append, mem_singleton, or_imp, forall_and, forall_eq]

section

variable (hrun : Run cfg widths stages s live)
include hrun

theorem Run.packed : ∀ x ∈ stages, x.after.Packed cfg x.live := by
  induction hrun with
  | start => exact nofun
  | step run admissible ok ih =>
    exact forall_mem_snoc.mpr ⟨ih, (run.step admissible ok).ready.packed⟩

/-- As long as all batches were faithful, the last one is. -/
theorem Run.masks_of_faithful (hfaithful : ∀ x ∈ stages, x.after.Faithful cfg x.live) :
    s.AllRows (Row.MaskFits cfg) live := by
  cases hrun with
  | start => exact fun _ r hr => absurd hr not_mem_nil
  | step run admissible ok => exact (forall_mem_snoc.mp hfaithful).2.masks

theorem Run.faithful_iff : (∀ x ∈ stages, x.after.Faithful cfg x.live) ↔
      ∀ x ∈ stages, x.change.StaleFree cfg x.before := by
  induction hrun with
  | start =>
    exact ⟨fun _ x hx => absurd hx not_mem_nil, fun _ x hx => absurd hx not_mem_nil⟩
  | step run admissible ok ih =>
    obtain ⟨_, hok, hready, hstep⟩ := InputBatch.update_spec run.ready admissible
    cases hok.symm.trans ok
    rw [forall_mem_snoc, forall_mem_snoc, ← ih]
    refine and_congr_right fun hfaithful => ?_
    rw [← hstep (run.masks_of_faithful hfaithful)]
    exact ⟨fun h => h.masks, fun h => ⟨hready.packed, h⟩⟩

end

/-- In every run of steps each further step returns and every batch is packed; and all masks are
right after every step iff no step appends a request without allowed tokens at an index whose mask
row is not clean. -/
theorem faithful_iff_of_run (hrun : Run cfg widths stages s live) :
    (∀ change : StepChange, change.Admissible cfg widths live →
      ∃ t, s.update cfg change = .ok t) ∧
    (∀ x ∈ stages, x.after.Packed cfg x.live) ∧
    ((∀ x ∈ stages, x.after.Faithful cfg x.live) ↔
      ∀ x ∈ stages, x.change.StaleFree cfg x.before) := by
  refine ⟨fun change hadm => ?_, hrun.packed, hrun.faithful_iff⟩
  obtain ⟨t, hok, -⟩ := InputBatch.update_spec hrun.ready hadm
  exact ⟨t, hok⟩

end Runs

/-! ### A stale mask -/

/-- A request with the given id that may only produce the given tokens, or any if there are none. -/
def plainRequest (id : ReqId) (allowed : List ℕ) : CachedRequestState where
  reqId := id
  promptTokenIds := [7]
  samplingParams := some { allowedTokenIds := allowed }
  blockIds := [[id]]

/-- Two requests, the second with a mask; the first leaves, so that the second moves down; a third
one comes. -/
def staleChanges : List StepChange :=
  [{ removes := [], adds := [plainRequest 0 [], plainRequest 1 [1]] },
    { removes := [0], adds := [] },
    { removes := [], adds := [plainRequest 2 []] }]

def smallConfig : Config where
  maxNumReqs := 2
  maxModelLen := 4
  vocabSize := 4

/-- The scheduler may ask for the steps one after another. -/
def Admits (cfg : Config) (widths : List ℕ) : List StepChange → List CachedRequestState → Prop
  | [], _ => True
  | change :: rest, live =>
    change.Admissible cfg widths live ∧ Admits cfg widths rest (change.apply live)

instance decidableAdmits (cfg : Config) (widths : List ℕ) :
    ∀ changes live, Decidable (Admits cfg widths changes live)
  | [], _ => .isTrue trivial
  | change :: rest, live =>
    @instDecidableAnd _ _ _ (decidableAdmits cfg widths rest (change.apply live))

theorem Run.extend {cfg : Config} {widths : List ℕ} {stages : List Stage} {s t : InputBatch}
    {live : List CachedRequestState} {changes : List StepChange}
    (hrun : Run cfg widths stages s live) (hadm : Admits cfg widths changes live)
    (hok : changes.foldlM (InputBatch.update cfg) s = .ok t) :
    ∃ stages', Run cfg widths stages' t
        (changes.foldl (fun live change => change.apply live) live) ∧
      stages'.length = stages.length + changes.length := by
  induction changes generalizing stages s live with
  | nil =>
    cases hok
    exact ⟨stages, hrun, rfl⟩
  | cons change rest ih =>
    obtain ⟨s', hfirst, hrest⟩ := foldlM_cons_eq_ok.mp hok
    obtain ⟨stages', hrun', hlen⟩ := ih (hrun.step hadm.1 hfirst) hadm.2 hrest
    refine ⟨stages', hrun', ?_⟩
    rw [hlen, length_append, length_cons]
    exact Nat.add_right_comm _ _ _

/-- The run of the three steps: the third request stands at index 1, where it is not allowed to
produce the token 0. -/
theorem exists_stale_run : ∃ stages s live, Run smallConfig [1] stages s live ∧
    stages.length = 3 ∧ plainRequest 2 [] ∈ live ∧ s.StandsAt 2 1 ∧
    s.columns.mask 1 0 = true := by
  have hview : ((staleChanges.foldlM (InputBatch.update smallConfig)
      (InputBatch.init [1])).toOption.map fun t => (t.reqIds, t.columns.mask 1 0)) =
        some ([some 1, some 2], true) := by
    decide +kernel
  obtain ⟨t, hok, hview⟩ := Option.map_eq_some_iff.mp hview
  obtain ⟨hids, hmask⟩ := Prod.mk.inj hview
  obtain ⟨stages, hrun, hlen⟩ := Run.start.extend (by decide) (toOption_eq_some.mp hok)
  refine ⟨stages, t, _, hrun, hlen, mem_append_right _ mem_cons_self, ?_, hmask⟩
  rw [InputBatch.StandsAt, hids]
  rfl

/-- Not every run keeps the batch faithful. -/
theorem not_faithful_of_run : ¬ ∀ (cfg : Config) (widths : List ℕ) (stages : List Stage)
    (s : InputBatch) (live : List CachedRequestState), Run cfg widths stages s live →
      ∀ x ∈ stages, x.after.Faithful cfg x.live := by
  intro h
  obtain ⟨stages, s, live, hrun, -, hmem, hstands, hmask⟩ := exists_stale_run
  have hmasks := hrun.masks_of_faithful (h smallConfig [1] stages s live hrun)
  have hclean := hmasks 1 _ hmem hstands _ rfl
  have hfalse : s.columns.mask 1 0 = false := hclean 0 (by decide)
  exact absurd (hmask.symm.trans hfalse) (by decide)

/-- A request without a mask takes the place of one with a mask in the same step. The row is clean
then, and all masks are right. -/
theorem faithful_iff_of_run_reused : ∃ stages s, Run smallConfig [1] stages s
      [plainRequest 0 [], plainRequest 2 []] ∧
    stages.length = 2 ∧ s.StandsAt 2 1 ∧
    ∀ x ∈ stages, x.after.Faithful smallConfig x.live := by
  let first : StepChange := ⟨[], [plainRequest 0 [], plainRequest 1 [1]]⟩
  let second : StepChange := ⟨[1], [plainRequest 2 []]⟩
  have hview : ((do
      let s ← (InputBatch.init [1]).update smallConfig first
      let t ← s.update smallConfig second
      return (s, t) : Except Fault (InputBatch × InputBatch)).toOption.map fun x =>
        (x.1.numReqs, second.kept x.1, x.2.reqIds)) =
        some (2, 1, [some 0, some 2]) := by
    decide +kernel
  obtain ⟨⟨s, t⟩, hok, hview⟩ := Option.map_eq_some_iff.mp hview
  obtain ⟨hnum, hview⟩ := Prod.mk.inj hview
  obtain ⟨hkept, hids⟩ := Prod.mk.inj hview
  obtain ⟨_, hfirst, hok⟩ := bind_eq_ok.mp (toOption_eq_some.mp hok)
  obtain ⟨_, hsecond, hok⟩ := bind_eq_ok.mp hok
  cases hok
  have hrun := (Run.start.step (by decide : first.Admissible _ _ []) hfirst).step
    (by decide : second.Admissible _ _ _) hsecond
  refine ⟨_, t, hrun, rfl, ?_, (faithful_iff_of_run hrun).2.2.mpr ?_⟩
  · rw [InputBatch.StandsAt, hids]
    rfl
  · intro x hx
    simp only [nil_append, singleton_append, mem_cons, not_mem_nil, or_false] at hx
    rcases hx with rfl | rfl
    · exact fun _ _ _ _ _ _ _ => rfl
    · -- the added request does not stand behind the old batch
      intro j r hr _ hle
      obtain ⟨hj, -⟩ := List.getElem?_eq_some_iff.mp hr
      have hj : j < 1 := hj
      dsimp only at hle hnum hkept
      omega

end Batch
