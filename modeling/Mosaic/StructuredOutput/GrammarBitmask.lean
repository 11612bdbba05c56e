import Mathlib.Data.List.Sort
import Mosaic.Control.Fallible
import Mosaic.Table.Buffer

/-!
# The grammar bitmask

Before each step, the manager of structured outputs fills one row of a bitmask for every position at
which a token of a structured request is sampled. On the way it feeds the draft tokens to the
grammar of the request, and takes them back afterwards. Large batches without speculative decoding
are cut into pieces that a thread pool fills.

Grammars come from a backend, so they are a parameter. A grammar object is a state `γ` that the
operations of the backend work on. What `fill_bitmask` stores is a row `μ`.
-/

namespace StructuredOutput

open List Fallible Function

variable {ι γ μ : Type}

/-- The exceptions that end a call. -/
inductive BitmaskError where
  | unknownRequest
  | rowOutOfRange
  | tokenRefused
  deriving DecidableEq, Repr

/-! ### Grammars -/

/-- What a backend implements for one request. -/
structure Grammar (γ μ : Type) where
  acceptTokens : γ → List ℕ → Bool × γ
  rollback : γ → ℕ → γ
  /-- The answer, and the grammar after the question. -/
  isTerminated : γ → Bool × γ
  /-- The row that `fill_bitmask` stores. -/
  allowed : γ → μ

namespace Grammar

variable {G : Grammar γ μ} {g g' : γ}

/-- The grammar after calls that it accepts. -/
def acceptCalls (G : Grammar γ μ) : γ → List (List ℕ) → Option γ
  | g, [] => some g
  | g, tokens :: calls =>
    if (G.acceptTokens g tokens).1 then G.acceptCalls (G.acceptTokens g tokens).2 calls else none

/-- Taking back as many tokens as were accepted restores the grammar. -/
def RollbackRestores (G : Grammar γ μ) : Prop :=
  ∀ g calls g', G.acceptCalls g calls = some g' → G.rollback g' calls.flatten.length = g

def terminated (G : Grammar γ μ) (g : γ) : Bool :=
  (G.isTerminated g).1

/-- The grammar once it has been asked whether it has terminated. -/
def ask (G : Grammar γ μ) (g : γ) : γ :=
  (G.isTerminated g).2

/-- A grammar is asked where the bitmask is to be applied. -/
def asked (G : Grammar γ μ) (applyBitmask : Bool) (g : γ) : γ :=
  if applyBitmask then G.ask g else g

/-- Whether a draft token is fed to a grammar. It has been asked for the row before already. -/
def feeds (G : Grammar γ μ) (applyBitmask : Bool) (g : γ) : Bool :=
  applyBitmask && !G.terminated (G.ask g)

/-- The grammar at the next row. -/
def next (G : Grammar γ μ) (applyBitmask : Bool) (g : γ) (token : ℕ) : γ :=
  if G.feeds applyBitmask g then (G.acceptTokens (G.ask (G.ask g)) [token]).2
  else G.asked applyBitmask (G.asked applyBitmask g)

/-- The grammar at the row behind draft tokens. -/
def before (G : Grammar γ μ) (applyBitmask : Bool) (g : γ) (tokens : List ℕ) : γ :=
  tokens.foldl (G.next applyBitmask) g

/-- The grammar accepts the draft tokens that it is fed. -/
def AcceptsInSequence (G : Grammar γ μ) (applyBitmask : Bool) : γ → List ℕ → Prop
  | _, [] => True
  | g, token :: tokens =>
    (G.feeds applyBitmask g = true → (G.acceptTokens (G.ask (G.ask g)) [token]).1 = true) ∧
      G.AcceptsInSequence applyBitmask (G.next applyBitmask g token) tokens

/-- The allowed set, or the full mask where no grammar restricts the token. -/
def maskRow (G : Grammar γ μ) (fullMask : μ) (applyBitmask : Bool) (g : γ) : μ :=
  if applyBitmask && !G.terminated g then G.allowed (G.ask g) else fullMask

/-- One row for each number of draft tokens before the sampled one. -/
def rows (G : Grammar γ μ) (fullMask : μ) (applyBitmask : Bool) (g : γ) (tokens : List ℕ) :
    List μ :=
  (List.range (tokens.length + 1)).map fun r =>
    G.maskRow fullMask applyBitmask (G.before applyBitmask g (tokens.take r))

/-- The calls that feed draft tokens to the grammar. -/
def calls (G : Grammar γ μ) (applyBitmask : Bool) : γ → List ℕ → List (List ℕ)
  | _, [] => []
  | g, token :: tokens =>
    (if G.feeds applyBitmask g then [[token]] else []) ++
      G.calls applyBitmask (G.next applyBitmask g token) tokens

/-- The grammar behind the last row, once the tokens have been taken back. -/
def restored (G : Grammar γ μ) (applyBitmask : Bool) (g : γ) (tokens : List ℕ) : γ :=
  if 0 < (G.calls applyBitmask g tokens).length then
    G.rollback (G.asked applyBitmask (G.before applyBitmask g tokens))
      (G.calls applyBitmask g tokens).length
  else G.asked applyBitmask (G.before applyBitmask g tokens)

theorem flatten_calls_length (applyBitmask : Bool) (g : γ) (tokens : List ℕ) :
    (G.calls applyBitmask g tokens).flatten.length = (G.calls applyBitmask g tokens).length := by
  induction tokens generalizing g with
  | nil => rfl
  | cons token tokens ih =>
    rw [calls, flatten_append, length_append, length_append, ih]
    split <;> rfl

theorem length_rows (fullMask : μ) (applyBitmask : Bool) (g : γ) (tokens : List ℕ) :
    (G.rows fullMask applyBitmask g tokens).length = tokens.length + 1 := by
  rw [rows, length_map, length_range]

theorem rows_nil (fullMask : μ) (applyBitmask : Bool) (g : γ) :
    G.rows fullMask applyBitmask g [] = [G.maskRow fullMask applyBitmask g] :=
  rfl

theorem rows_cons (fullMask : μ) (applyBitmask : Bool) (g : γ) (token : ℕ) (tokens : List ℕ) :
    G.rows fullMask applyBitmask g (token :: tokens) =
      G.maskRow fullMask applyBitmask g ::
        G.rows fullMask applyBitmask (G.next applyBitmask g token) tokens := by
  rw [rows, length_cons, range_succ_eq_map, map_cons, map_map]
  rfl

/-! ### What only questions tell apart -/

/-- States that differ only in the answers to questions. Questions do not lead out of them, and the
other operations do not tell them apart. -/
structure Unseen (G : Grammar γ μ) (R : γ → γ → Prop) : Prop where
  equivalence : Equivalence R
  ask : ∀ g, R (G.ask g) g
  accepted : ∀ {g g'} tokens, R g g' → (G.acceptTokens g tokens).1 = (G.acceptTokens g' tokens).1
  acceptTokens : ∀ {g g'} tokens, R g g' →
    R (G.acceptTokens g tokens).2 (G.acceptTokens g' tokens).2
  rollback : ∀ {g g'} n, R g g' → R (G.rollback g n) (G.rollback g' n)
  allowed : ∀ {g g'}, R g g' → G.allowed g = G.allowed g'

namespace Unseen

variable {R : γ → γ → Prop} (hR : G.Unseen R)
include hR

theorem asked (applyBitmask : Bool) (g : γ) : R (G.asked applyBitmask g) g := by
  unfold Grammar.asked
  split
  · exact hR.ask g
  · exact hR.equivalence.refl g

/-- The questions in between do not change what feeding the tokens leads to. -/
theorem acceptCalls_calls {applyBitmask : Bool} {tokens : List ℕ} (hsame : R g g')
    (h : G.AcceptsInSequence applyBitmask g tokens) :
    ∃ fed, G.acceptCalls g' (G.calls applyBitmask g tokens) = some fed ∧
      R (G.before applyBitmask g tokens) fed := by
  induction tokens generalizing g g' with
  | nil => exact ⟨g', rfl, hsame⟩
  | cons token tokens ih =>
    obtain ⟨haccepts, hrest⟩ := h
    unfold calls before
    rw [foldl_cons]
    by_cases hfeeds : G.feeds applyBitmask g = true
    · have hasked : R (G.ask (G.ask g)) g' :=
        hR.equivalence.trans (hR.ask _) (hR.equivalence.trans (hR.ask g) hsame)
      rw [if_pos hfeeds, singleton_append, acceptCalls,
        if_pos ((hR.accepted _ hasked).symm.trans (haccepts hfeeds))]
      refine ih ?_ hrest
      rw [next, if_pos hfeeds]
      exact hR.acceptTokens _ hasked
    · rw [if_neg hfeeds, nil_append]
      refine ih ?_ hrest
      rw [next, if_neg hfeeds]
      exact hR.equivalence.trans (hR.asked ..) (hR.equivalence.trans (hR.asked ..) hsame)

/-- Taking the tokens back restores the grammar, but for what questions change. -/
theorem restored (hG : G.RollbackRestores) {applyBitmask : Bool} {tokens : List ℕ}
    (h : G.AcceptsInSequence applyBitmask g tokens) :
    R (G.restored applyBitmask g tokens) g := by
  obtain ⟨fed, hcalls, hfed⟩ := hR.acceptCalls_calls (hR.equivalence.refl g) h
  have hlast := hR.equivalence.trans (hR.asked applyBitmask _) hfed
  unfold Grammar.restored
  split_ifs with hpos
  · have hback := hG _ _ _ hcalls
    rw [flatten_calls_length] at hback
    have htaken := hR.rollback (G.calls applyBitmask g tokens).length hlast
    rwa [hback] at htaken
  · rw [length_eq_zero_iff.mp (Nat.le_zero.mp (not_lt.mp hpos))] at hcalls
    exact Option.some.inj hcalls ▸ hlast

end Unseen

/-- Asking whether it has terminated leaves the grammar as it is. -/
def Steady (G : Grammar γ μ) : Prop :=
  ∀ g, G.ask g = g

/-- The tokens feed a grammar until it has terminated. -/
def advance (G : Grammar γ μ) (g : γ) (tokens : List ℕ) : γ :=
  tokens.foldl (fun g token => if G.terminated g then g else (G.acceptTokens g [token]).2) g

/-- The rows of a grammar that questions do not change. -/
def steadyRows (G : Grammar γ μ) (fullMask : μ) (applyBitmask : Bool) (g : γ) (tokens : List ℕ) :
    List μ :=
  (List.range (tokens.length + 1)).map fun r =>
    if applyBitmask && !G.terminated (G.advance g (tokens.take r))
      then G.allowed (G.advance g (tokens.take r)) else fullMask

namespace Steady

variable (hG : G.Steady)
include hG

theorem unseen : G.Unseen Eq where
  equivalence := eq_equivalence
  ask := hG
  accepted _ h := by rw [h]
  acceptTokens _ h := by rw [h]
  rollback _ h := by rw [h]
  allowed h := by rw [h]

theorem next (g : γ) (token : ℕ) : G.next true g token =
    if G.terminated g then g else (G.acceptTokens g [token]).2 := by
  rw [Grammar.next, feeds, Grammar.asked, Grammar.asked, if_pos rfl, if_pos rfl, hG, hG,
    Bool.true_and]
  cases G.terminated g <;> rfl

theorem rows : G.rows = G.steadyRows := by
  have hnext : G.next true = fun g token =>
      if G.terminated g then g else (G.acceptTokens g [token]).2 :=
    funext fun g => funext fun token => hG.next g token
  funext fullMask applyBitmask g tokens
  unfold Grammar.rows steadyRows maskRow before advance
  cases applyBitmask with
  | false => rfl
  | true =>
    rw [hnext]
    exact map_congr_left fun r _ => by rw [hG]

end Steady

end Grammar

/-! ### The manager -/

/-- A request with structured output. The last field is `reasoning_ended`, unset at first. -/
structure StructuredRequest (γ : Type) where
  promptTokenIds : List ℕ
  grammar : γ
  reasoningEnded : Option Bool

/-- The configuration, and the buffer that the backend allocates. -/
structure Config (μ : Type) where
  maxNumSeqs : ℕ
  /-- `num_speculative_tokens` of the speculative configuration, if there is one. -/
  speculativeConfig : Option ℕ
  fillBitmaskParallelThreshold : ℕ
  fillBitmaskParallelBatchSize : ℕ
  /-- `is_reasoning_end` of the reasoning parser, if there is one. -/
  reasoner : Option (List ℕ → Bool)
  fullMask : μ
  allocateTokenBitmask : (n : ℕ) → { bitmask : List μ // bitmask.length = n }

def Config.maxNumSpecTokens (cfg : Config μ) : ℕ :=
  cfg.speculativeConfig.getD 0

/-- The requests by their ids, and the buffer once it has been allocated. -/
structure Manager (ι γ μ : Type) where
  requests : ι → Option (StructuredRequest γ)
  bitmask : Option (List μ)

/-- The request whose grammar it is, the row for it, and whether the bitmask is to be applied. -/
structure Entry (ι : Type) where
  reqId : ι
  index : ℕ
  applyBitmask : Bool

/-- The state of the loops over requests. -/
structure Filling (ι γ μ : Type) where
  requests : ι → Option (StructuredRequest γ)
  bitmask : List μ
  cumulativeIndex : ℕ

/-- `should_fill_bitmask`, which remembers that the prompt ends the reasoning. -/
def shouldFillBitmask (cfg : Config μ) (r : StructuredRequest γ) : Bool × StructuredRequest γ :=
  match cfg.reasoner with
  | none => (true, r)
  | some isReasoningEnd =>
    match r.reasoningEnded with
    | some ended => (ended, r)
    | none =>
      (isReasoningEnd r.promptTokenIds,
        { r with reasoningEnded := some (isReasoningEnd r.promptTokenIds) })

section Paths

variable [DecidableEq ι]

/-- One round of the loop in `_fill_bitmasks`. -/
def fillEntry (G : Grammar γ μ) (fullMask : μ) (s : Filling ι γ μ) (e : Entry ι) :
    Except BitmaskError (Filling ι γ μ) :=
  match s.requests e.reqId with
  | none => .error .unknownRequest
  | some r =>
    let (ended, grammar) :=
      if e.applyBitmask then G.isTerminated r.grammar else (true, r.grammar)
    if s.bitmask.length ≤ e.index then .error .rowOutOfRange
    else .ok { s with
      requests := update s.requests e.reqId (some { r with grammar := grammar })
      bitmask := s.bitmask.set e.index (if ended then fullMask else G.allowed grammar) }

/-- `_fill_bitmasks`. -/
def fillBitmasks (G : Grammar γ μ) (fullMask : μ) (batch : List (Entry ι)) (s : Filling ι γ μ) :
    Except BitmaskError (Filling ι γ μ) :=
  batch.foldlM (fillEntry G fullMask) s

/-- A draft token for a grammar, and the number of tokens that it has been fed. -/
def feedToken (G : Grammar γ μ) (reqId : ι) (token : ℕ) (s : Filling ι γ μ)
    (stateAdvancements : ℕ) : Except BitmaskError (Filling ι γ μ × ℕ) :=
  match s.requests reqId with
  | none => .error .unknownRequest
  | some r =>
    let (ended, grammar) := G.isTerminated r.grammar
    if ended then
      .ok ({ s with requests := update s.requests reqId (some { r with grammar := grammar }) },
        stateAdvancements)
    else
      let (accepted, grammar) := G.acceptTokens grammar [token]
      if accepted then
        .ok ({ s with requests := update s.requests reqId (some { r with grammar := grammar }) },
          stateAdvancements + 1)
      else .error .tokenRefused

/-- One draft token, or the position behind the last of them. -/
def fillPosition (G : Grammar γ μ) (fullMask : μ) (reqId : ι) (applyBitmask : Bool)
    (d : Filling ι γ μ × ℕ) (token : Option ℕ) : Except BitmaskError (Filling ι γ μ × ℕ) := do
  let s ← fillBitmasks G fullMask [⟨reqId, d.1.cumulativeIndex, applyBitmask⟩] d.1
  let (s, stateAdvancements) ←
    match token with
    | none => .ok (s, d.2)
    | some token => if applyBitmask then feedToken G reqId token s d.2 else .ok (s, d.2)
  .ok ({ s with cumulativeIndex := s.cumulativeIndex + 1 }, stateAdvancements)

/-- One request of the serial path. -/
def fillRequest (G : Grammar γ μ) (cfg : Config μ) (tokens : ι → Option (List ℕ))
    (s : Filling ι γ μ) (reqId : ι) : Except BitmaskError (Filling ι γ μ) :=
  match s.requests reqId with
  | none => .error .unknownRequest
  | some request => do
    let (applyBitmask, request) := shouldFillBitmask cfg request
    let s := { s with requests := update s.requests reqId (some request) }
    let reqTokens := (tokens reqId).getD []
    let (s, stateAdvancements) ← (reqTokens.map some ++ [none]).foldlM
      (fillPosition G cfg.fullMask reqId applyBitmask) (s, 0)
    if 0 < stateAdvancements then
      .ok { s with
        requests := update s.requests reqId ((s.requests reqId).map fun request =>
          { request with grammar := G.rollback request.grammar stateAdvancements }) }
    else .ok s

/-- The serial path. -/
def fillSerially (G : Grammar γ μ) (cfg : Config μ) (tokens : ι → Option (List ℕ))
    (orderedSeq : List ι) (s : Filling ι γ μ) : Except BitmaskError (Filling ι γ μ) :=
  orderedSeq.foldlM (fillRequest G cfg tokens) s

/-- The state of the loop that submits tasks to the pool. -/
structure Submission (ι γ : Type) where
  requests : ι → Option (StructuredRequest γ)
  promises : List (List (Entry ι))
  batch : List (Entry ι)
  cumulativeIndex : ℕ

/-- One request of the parallel path. -/
def submitRequest (cfg : Config μ) (s : Submission ι γ) (reqId : ι) :
    Except BitmaskError (Submission ι γ) :=
  match s.requests reqId with
  | none => .error .unknownRequest
  | some request =>
    let (applyBitmask, request) := shouldFillBitmask cfg request
    let requests := update s.requests reqId (some request)
    let batch := s.batch ++ [⟨reqId, s.cumulativeIndex, applyBitmask⟩]
    if batch.length = cfg.fillBitmaskParallelBatchSize then
      .ok ⟨requests, s.promises ++ [batch], [], s.cumulativeIndex + 1⟩
    else .ok ⟨requests, s.promises, batch, s.cumulativeIndex + 1⟩

/-- The parallel path. The pool makes one sequence out of what the tasks do. -/
def fillInParallel (G : Grammar γ μ) (cfg : Config μ)
    (pool : List (List (Entry ι)) → List (Entry ι)) (orderedSeq : List ι) (s : Filling ι γ μ) :
    Except BitmaskError (Filling ι γ μ) := do
  let submission ← orderedSeq.foldlM (submitRequest cfg) ⟨s.requests, [], [], s.cumulativeIndex⟩
  let promises :=
    if submission.batch = [] then submission.promises
    else submission.promises ++ [submission.batch]
  fillBitmasks G cfg.fullMask (pool promises)
    ⟨submission.requests, s.bitmask, submission.cumulativeIndex⟩

/-- The path depends on the size of the batch and on whether tokens are drafted. -/
def fillRows (G : Grammar γ μ) (cfg : Config μ)
    (pool : List (List (Entry ι)) → List (Entry ι)) (tokens : ι → Option (List ℕ))
    (orderedSeq : List ι) (s : Filling ι γ μ) : Except BitmaskError (Filling ι γ μ) :=
  if cfg.fillBitmaskParallelThreshold < orderedSeq.length ∧ cfg.maxNumSpecTokens = 0 then
    fillInParallel G cfg pool orderedSeq s
  else fillSerially G cfg tokens orderedSeq s

/-- The requests in the order of their batch indices. -/
def orderedSeq (structuredOutputRequestIds : List (ι × ℕ)) : List (ι × ℕ) :=
  structuredOutputRequestIds.mergeSort fun x y => decide (x.2 ≤ y.2)

/-- `grammar_bitmask`. -/
def grammarBitmask (G : Grammar γ μ) (cfg : Config μ)
    (pool : List (List (Entry ι)) → List (Entry ι)) (m : Manager ι γ μ)
    (structuredOutputRequestIds : List (ι × ℕ))
    (scheduledSpecDecodeTokens : ι → Option (List ℕ)) :
    Except BitmaskError (Option (List μ) × Manager ι γ μ) :=
  if structuredOutputRequestIds = [] then .ok (none, m)
  else do
    let bitmask := m.bitmask.getD
      (cfg.allocateTokenBitmask (cfg.maxNumSeqs * (1 + cfg.maxNumSpecTokens))).1
    let ordered := (orderedSeq structuredOutputRequestIds).map Prod.fst
    let filled ←
      fillRows G cfg pool scheduledSpecDecodeTokens ordered ⟨m.requests, bitmask, 0⟩
    .ok (some (if filled.cumulativeIndex < filled.bitmask.length then
      filled.bitmask.take filled.cumulativeIndex else filled.bitmask),
      ⟨filled.requests, some filled.bitmask⟩)

end Paths

/-! ### Filling -/

variable {G : Grammar γ μ} {cfg : Config μ} {tokens : ι → Option (List ℕ)}

/-- The answer of `should_fill_bitmask`. -/
def reasoningEnded (cfg : Config μ) (r : StructuredRequest γ) : Bool :=
  match cfg.reasoner with
  | none => true
  | some isReasoningEnd => r.reasoningEnded.getD (isReasoningEnd r.promptTokenIds)

theorem shouldFillBitmask_fst (cfg : Config μ) (r : StructuredRequest γ) :
    (shouldFillBitmask cfg r).1 = reasoningEnded cfg r := by
  unfold shouldFillBitmask reasoningEnded
  cases cfg.reasoner with
  | none => rfl
  | some isReasoningEnd => cases h : r.reasoningEnded <;> rfl

theorem grammar_shouldFillBitmask (cfg : Config μ) (r : StructuredRequest γ) :
    (shouldFillBitmask cfg r).2.grammar = r.grammar := by
  unfold shouldFillBitmask
  cases cfg.reasoner with
  | none => rfl
  | some isReasoningEnd => cases h : r.reasoningEnded <;> rfl

/-- The row of an entry. -/
def entryRow (G : Grammar γ μ) (fullMask : μ) (requests : ι → Option (StructuredRequest γ))
    (e : Entry ι) : μ :=
  match requests e.reqId with
  | none => fullMask
  | some r => G.maskRow fullMask e.applyBitmask r.grammar

section

variable [DecidableEq ι] {s : Filling ι γ μ} {r : StructuredRequest γ}

theorem fillEntry_eq_ok {e : Entry ι} (fullMask : μ) (hr : s.requests e.reqId = some r)
    (h : e.index < s.bitmask.length) : fillEntry G fullMask s e = .ok { s with
      requests := update s.requests e.reqId
        (some { r with grammar := G.asked e.applyBitmask r.grammar })
      bitmask := Buffer.write s.bitmask
        (e.index, G.maskRow fullMask e.applyBitmask r.grammar) } := by
  rw [fillEntry, hr]
  dsimp only
  rw [if_neg (not_le.mpr h), Buffer.write, Grammar.maskRow, Grammar.asked, Grammar.terminated]
  cases e.applyBitmask with
  | false => rfl
  | true =>
    rw [if_pos rfl, if_pos rfl, Bool.true_and]
    cases (G.isTerminated r.grammar).1 <;> rfl

/-- A batch of different requests whose rows are all in the buffer. -/
theorem fillBitmasks_eq_ok (batch : List (Entry ι)) (fullMask : μ)
    (hnodup : (batch.map Entry.reqId).Nodup) (hknown : ∀ e ∈ batch, s.requests e.reqId ≠ none)
    (h : ∀ e ∈ batch, e.index < s.bitmask.length) : ∃ requests,
    fillBitmasks G fullMask batch s = .ok
        ⟨requests, Buffer.writeAll s.bitmask
          (batch.map fun e => (e.index, entryRow G fullMask s.requests e)), s.cumulativeIndex⟩ ∧
      (∀ e ∈ batch, requests e.reqId = (s.requests e.reqId).map fun r =>
        { r with grammar := G.asked e.applyBitmask r.grammar }) ∧
      ∀ other ∉ batch.map Entry.reqId, requests other = s.requests other := by
  induction batch generalizing s with
  | nil => exact ⟨_, rfl, nofun, fun _ _ => rfl⟩
  | cons e batch ih =>
    rw [map_cons, nodup_cons] at hnodup
    obtain ⟨r, hr⟩ := Option.ne_none_iff_exists'.mp (hknown e mem_cons_self)
    -- The requests differ, so that a later entry finds its grammar as it was.
    have hother : ∀ e' ∈ batch, e'.reqId ≠ e.reqId := fun e' he' heq =>
      hnodup.1 (heq ▸ mem_map_of_mem he')
    have hentry := fillEntry_eq_ok (G := G) fullMask hr (h e mem_cons_self)
    obtain ⟨requests, hrest, hbatch, hframe⟩ := ih (s := { s with
        requests := update s.requests e.reqId
          (some { r with grammar := G.asked e.applyBitmask r.grammar })
        bitmask := Buffer.write s.bitmask
          (e.index, G.maskRow fullMask e.applyBitmask r.grammar) }) hnodup.2
      (fun e' he' => by
        dsimp only
        rw [update_of_ne (hother e' he')]
        exact hknown e' (mem_cons_of_mem _ he'))
      (fun e' he' => by
        rw [Buffer.write, length_set]
        exact h e' (mem_cons_of_mem _ he'))
    dsimp only at hbatch hframe
    refine ⟨requests, foldlM_cons_eq_ok.mpr ⟨_, hentry, hrest.trans ?_⟩, ?_, ?_⟩
    · have hfirst : entryRow G fullMask s.requests e =
          G.maskRow fullMask e.applyBitmask r.grammar := by rw [entryRow, hr]
      have hrows : ∀ e' ∈ batch, entryRow G fullMask (update s.requests e.reqId
          (some { r with grammar := G.asked e.applyBitmask r.grammar })) e' =
            entryRow G fullMask s.requests e' := fun e' he' => by
        rw [entryRow, entryRow, update_of_ne (hother e' he')]
      rw [map_cons, hfirst, map_congr_left fun e' he' => by rw [hrows e' he']]
      rfl
    · intro e' he'
      rcases mem_cons.mp he' with rfl | he'
      · rw [hframe _ hnodup.1, update_self, hr]
        rfl
      · rw [hbatch e' he', update_of_ne (hother e' he')]
    · intro other hnot
      rw [map_cons, mem_cons, not_or] at hnot
      rw [hframe other hnot.2, update_of_ne hnot.1]

variable {reqId : ι} {n : ℕ}

theorem fillPosition_none (fullMask : μ) (applyBitmask : Bool) (hr : s.requests reqId = some r)
    (h : s.cumulativeIndex < s.bitmask.length) :
    fillPosition G fullMask reqId applyBitmask (s, n) none = .ok
      ({ requests := update s.requests reqId
          (some { r with grammar := G.asked applyBitmask r.grammar })
         bitmask := Buffer.write s.bitmask
          (s.cumulativeIndex, G.maskRow fullMask applyBitmask r.grammar)
         cumulativeIndex := s.cumulativeIndex + 1 }, n) :=
  bind_eq_ok.mpr ⟨_, foldlM_cons_eq_ok.mpr ⟨_,
    fillEntry_eq_ok (e := ⟨reqId, s.cumulativeIndex, applyBitmask⟩) fullMask hr h, rfl⟩, rfl⟩

variable {drafts : List ℕ}

theorem feedToken_eq_ok {token : ℕ} (hr : s.requests reqId = some r)
    (hok : (!G.terminated r.grammar) = true → (G.acceptTokens (G.ask r.grammar) [token]).1 = true) :
    feedToken G reqId token s n = .ok
      ({ s with requests := update s.requests reqId (some { r with
          grammar := if (!G.terminated r.grammar) = true
            then (G.acceptTokens (G.ask r.grammar) [token]).2 else G.ask r.grammar }) },
        n + if (!G.terminated r.grammar) = true then 1 else 0) := by
  unfold feedToken
  rw [hr]
  dsimp only
  rw [Grammar.terminated] at hok ⊢
  cases hend : (G.isTerminated r.grammar).1 with
  | true => rfl
  | false =>
    rw [hend] at hok
    rw [if_neg Bool.false_ne_true, ← Grammar.ask, if_pos (hok rfl)]
    rfl

theorem fillPosition_some {token : ℕ} (fullMask : μ) (applyBitmask : Bool)
    (hr : s.requests reqId = some r) (h : s.cumulativeIndex < s.bitmask.length)
    (haccepts : G.AcceptsInSequence applyBitmask r.grammar (token :: drafts)) :
    fillPosition G fullMask reqId applyBitmask (s, n) (some token) = .ok
      ({ requests := update s.requests reqId
          (some { r with grammar := G.next applyBitmask r.grammar token })
         bitmask := Buffer.write s.bitmask
          (s.cumulativeIndex, G.maskRow fullMask applyBitmask r.grammar)
         cumulativeIndex := s.cumulativeIndex + 1 },
        n + if G.feeds applyBitmask r.grammar then 1 else 0) := by
  refine bind_eq_ok.mpr ⟨_, foldlM_cons_eq_ok.mpr ⟨_,
    fillEntry_eq_ok (e := ⟨reqId, s.cumulativeIndex, applyBitmask⟩) fullMask hr h, rfl⟩, ?_⟩
  dsimp only
  cases applyBitmask with
  | false => rfl
  | true =>
    rw [if_pos rfl]
    refine bind_eq_ok.mpr ⟨_, feedToken_eq_ok (update_self ..) haccepts.1, ?_⟩
    rw [update_idem]
    rfl

/-- The loop over the draft tokens of a request. -/
theorem fillPositions_eq_ok (fullMask : μ) (applyBitmask : Bool)
    (hr : s.requests reqId = some r)
    (h : s.cumulativeIndex + drafts.length < s.bitmask.length)
    (haccepts : G.AcceptsInSequence applyBitmask r.grammar drafts) :
    (drafts.map some ++ [none]).foldlM (fillPosition G fullMask reqId applyBitmask) (s, n) = .ok
      ({ requests := update s.requests reqId (some { r with
          grammar := G.asked applyBitmask (G.before applyBitmask r.grammar drafts) })
         bitmask := Buffer.writeAll s.bitmask
          (Buffer.rowStores s.cumulativeIndex (G.rows fullMask applyBitmask r.grammar drafts))
         cumulativeIndex := s.cumulativeIndex + (drafts.length + 1) },
        n + (G.calls applyBitmask r.grammar drafts).length) := by
  induction drafts generalizing s r n with
  | nil => exact foldlM_cons_eq_ok.mpr ⟨_, fillPosition_none fullMask applyBitmask hr h, rfl⟩
  | cons token drafts ih =>
    rw [length_cons] at h
    refine foldlM_cons_eq_ok.mpr
      ⟨_, fillPosition_some fullMask applyBitmask hr (by omega) haccepts, ?_⟩
    refine (ih (update_self ..) ?_ haccepts.2).trans ?_
    · rw [Buffer.write, length_set]
      dsimp only
      omega
    · have hcount : (G.calls applyBitmask r.grammar (token :: drafts)).length =
          (if G.feeds applyBitmask r.grammar then 1 else 0) +
            (G.calls applyBitmask (G.next applyBitmask r.grammar token) drafts).length := by
        rw [Grammar.calls, length_append]
        split <;> rfl
      rw [Grammar.rows_cons, hcount, length_cons, update_idem, ← add_assoc n,
        add_right_comm s.cumulativeIndex, add_assoc s.cumulativeIndex]
      rfl

end

/-! ### Requests -/

/-- The rows that a request is meant to get. -/
def requestRows (G : Grammar γ μ) (cfg : Config μ) (tokens : ι → Option (List ℕ))
    (requests : ι → Option (StructuredRequest γ)) (reqId : ι) : List μ :=
  match requests reqId with
  | none => []
  | some r =>
    G.rows cfg.fullMask (reasoningEnded cfg r) r.grammar ((tokens reqId).getD [])

/-- The request is known, and its grammar accepts its draft. -/
def Drafted (G : Grammar γ μ) (cfg : Config μ) (tokens : ι → Option (List ℕ))
    (requests : ι → Option (StructuredRequest γ)) (reqId : ι) : Prop :=
  ∃ r, requests reqId = some r ∧
    G.AcceptsInSequence (reasoningEnded cfg r) r.grammar ((tokens reqId).getD [])

variable {requests requests' : ι → Option (StructuredRequest γ)} {reqId : ι}

section

variable (h : requests' reqId = requests reqId)
include h

theorem requestRows_congr :
    requestRows G cfg tokens requests' reqId = requestRows G cfg tokens requests reqId := by
  rw [requestRows, requestRows, h]

theorem Drafted.congr (hdrafted : Drafted G cfg tokens requests reqId) :
    Drafted G cfg tokens requests' reqId := by
  rw [Drafted, h]
  exact hdrafted

end

theorem orderedSeq_perm (ids : List (ι × ℕ)) : (orderedSeq ids).Perm ids :=
  mergeSort_perm _ _

theorem orderedSeq_pairwise (ids : List (ι × ℕ)) :
    (orderedSeq ids).Pairwise fun x y => x.2 ≤ y.2 := by
  have hsorted := @pairwise_mergeSort _ (fun x y : ι × ℕ => decide (x.2 ≤ y.2))
    (fun x y z hxy hyz => decide_eq_true
      (le_trans (of_decide_eq_true hxy) (of_decide_eq_true hyz)))
    (fun x y => by
      rcases le_total x.2 y.2 with h | h
      · rw [decide_eq_true h, Bool.true_or]
      · rw [decide_eq_true h, Bool.or_true]) ids
  exact hsorted.imp of_decide_eq_true

variable (G cfg requests) in
theorem length_requestRows (reqId : ι) {width : ℕ}
    (h : ((tokens reqId).getD []).length ≤ width) :
    (requestRows G cfg tokens requests reqId).length ≤ 1 + width := by
  unfold requestRows
  cases requests reqId with
  | none => exact Nat.zero_le _
  | some r =>
    rw [Grammar.length_rows]
    omega

variable {reqIds : List ι}

variable (G cfg requests) in
theorem length_flatMap_requestRows {width : ℕ}
    (h : ∀ reqId ∈ reqIds, ((tokens reqId).getD []).length ≤ width) :
    (reqIds.flatMap (requestRows G cfg tokens requests)).length ≤ reqIds.length * (1 + width) := by
  induction reqIds with
  | nil => exact Nat.zero_le _
  | cons reqId reqIds ih =>
    have hfirst := length_requestRows G cfg requests reqId (h reqId mem_cons_self)
    have hrest := ih fun other hother => h other (mem_cons_of_mem _ hother)
    rw [flatMap_cons, length_append, length_cons, Nat.succ_mul]
    omega

/-- A request after the call. -/
def settled (G : Grammar γ μ) (cfg : Config μ) (tokens : ι → Option (List ℕ)) (reqId : ι)
    (r : StructuredRequest γ) : StructuredRequest γ :=
  { (shouldFillBitmask cfg r).2 with
    grammar := G.restored (reasoningEnded cfg r) r.grammar ((tokens reqId).getD []) }

variable [DecidableEq ι]

/-- The requests, some of them changed. -/
def touchAll (f : ι → StructuredRequest γ → StructuredRequest γ)
    (requests : ι → Option (StructuredRequest γ)) (reqIds : List ι) :
    ι → Option (StructuredRequest γ) :=
  fun reqId => if reqId ∈ reqIds then (requests reqId).map (f reqId) else requests reqId

theorem touchAll_cons (f : ι → StructuredRequest γ → StructuredRequest γ)
    {r : StructuredRequest γ} (hr : requests reqId = some r) (hnot : reqId ∉ reqIds) :
    touchAll f (update requests reqId (some (f reqId r))) reqIds =
      touchAll f requests (reqId :: reqIds) := by
  funext other
  by_cases hsame : other = reqId
  · subst hsame
    rw [touchAll, touchAll, if_neg hnot, if_pos mem_cons_self, update_self, hr, Option.map_some]
  · simp only [touchAll, mem_cons, hsame, false_or, update_of_ne hsame]

variable {s : Filling ι γ μ}

theorem fillRequest_eq_ok (hdrafted : Drafted G cfg tokens s.requests reqId)
    (hroom : s.cumulativeIndex + (requestRows G cfg tokens s.requests reqId).length ≤
      s.bitmask.length) : ∃ r, s.requests reqId = some r ∧
    fillRequest G cfg tokens s reqId = .ok
      { requests := update s.requests reqId (some (settled G cfg tokens reqId r))
        bitmask := Buffer.writeAll s.bitmask
          (Buffer.rowStores s.cumulativeIndex (requestRows G cfg tokens s.requests reqId))
        cumulativeIndex :=
          s.cumulativeIndex + (requestRows G cfg tokens s.requests reqId).length } := by
  obtain ⟨r, hr, haccepts⟩ := hdrafted
  refine ⟨r, hr, ?_⟩
  unfold fillRequest requestRows settled at *
  rw [hr] at hroom ⊢
  dsimp only at hroom ⊢
  rw [Grammar.length_rows] at hroom ⊢
  rw [← grammar_shouldFillBitmask cfg r] at haccepts ⊢
  rw [shouldFillBitmask_fst]
  refine bind_eq_ok.mpr ⟨_, fillPositions_eq_ok (n := 0)
    (s := { s with requests := update s.requests reqId (some (shouldFillBitmask cfg r).2) })
    cfg.fullMask (reasoningEnded cfg r) (update_self ..) (by dsimp only; omega) haccepts, ?_⟩
  dsimp only
  rw [zero_add, update_idem, update_self, update_idem, Grammar.restored]
  split_ifs <;> rfl

/-- The serial path stores the rows of the requests behind each other. -/
theorem fillSerially_eq_ok (hnodup : reqIds.Nodup)
    (hdrafted : ∀ reqId ∈ reqIds, Drafted G cfg tokens s.requests reqId)
    (hroom : s.cumulativeIndex +
      (reqIds.flatMap (requestRows G cfg tokens s.requests)).length ≤ s.bitmask.length) :
    fillSerially G cfg tokens reqIds s = .ok
      { requests := touchAll (settled G cfg tokens) s.requests reqIds
        bitmask := Buffer.writeAll s.bitmask (Buffer.rowStores s.cumulativeIndex
          (reqIds.flatMap (requestRows G cfg tokens s.requests)))
        cumulativeIndex := s.cumulativeIndex +
          (reqIds.flatMap (requestRows G cfg tokens s.requests)).length } := by
  induction reqIds generalizing s with
  | nil => rfl
  | cons reqId reqIds ih =>
    rw [nodup_cons] at hnodup
    rw [flatMap_cons, length_append, ← add_assoc] at hroom
    obtain ⟨r, hr, hfirst⟩ := fillRequest_eq_ok (hdrafted reqId mem_cons_self) (by omega)
    -- the other requests are the same after this one
    have hframe : ∀ other ∈ reqIds,
        update s.requests reqId (some (settled G cfg tokens reqId r)) other = s.requests other :=
      fun other hother => update_of_ne (fun heq => hnodup.1 (Eq.subst heq hother)) _ _
    have hsame : reqIds.flatMap (requestRows G cfg tokens
        (update s.requests reqId (some (settled G cfg tokens reqId r)))) =
          reqIds.flatMap (requestRows G cfg tokens s.requests) :=
      flatMap_congr fun other hother => requestRows_congr (hframe other hother)
    refine foldlM_cons_eq_ok.mpr ⟨_, hfirst, (ih hnodup.2 (fun other hother =>
      (hdrafted other (mem_cons_of_mem _ hother)).congr (hframe other hother)) ?_).trans ?_⟩
    · rw [hsame, Buffer.length_writeAll]
      exact hroom
    · rw [hsame, touchAll_cons _ hr hnodup.1, flatMap_cons, Buffer.rowStores_append,
        Buffer.writeAll_append, length_append, add_assoc]

/-! ### The parallel path -/

/-- The entries of requests, with consecutive rows. -/
def plainEntries (cfg : Config μ) (requests : ι → Option (StructuredRequest γ)) :
    ℕ → List ι → List (Entry ι)
  | _, [] => []
  | n, reqId :: reqIds => ⟨reqId, n, ((requests reqId).map (reasoningEnded cfg)).getD false⟩ ::
      plainEntries cfg requests (n + 1) reqIds

omit [DecidableEq ι] in
theorem map_plainEntries (requests : ι → Option (StructuredRequest γ)) (n : ℕ) (reqIds : List ι) :
    (plainEntries cfg requests n reqIds).map Entry.reqId = reqIds := by
  induction reqIds generalizing n with
  | nil => rfl
  | cons reqId reqIds ih => rw [plainEntries, map_cons, ih]

omit [DecidableEq ι] in
theorem plainEntries_congr {n : ℕ}
    (h : ∀ reqId ∈ reqIds, requests' reqId = requests reqId) :
    plainEntries cfg requests' n reqIds = plainEntries cfg requests n reqIds := by
  induction reqIds generalizing n with
  | nil => rfl
  | cons reqId reqIds ih =>
    rw [plainEntries, plainEntries, h reqId mem_cons_self,
      ih fun other hother => h other (mem_cons_of_mem _ hother)]

omit [DecidableEq ι] in
theorem applyBitmask_of_mem {n : ℕ} {e : Entry ι} (h : e ∈ plainEntries cfg requests n reqIds) :
    e.applyBitmask = ((requests e.reqId).map (reasoningEnded cfg)).getD false := by
  induction reqIds generalizing n with
  | nil => cases h
  | cons reqId reqIds ih =>
    rcases mem_cons.mp h with rfl | h
    · rfl
    · exact ih h

omit [DecidableEq ι] in
/-- Without drafts, the entries are the rows of the requests, one behind the other. -/
theorem map_entryRow_plainEntries {n : ℕ}
    (hdrafted : ∀ reqId ∈ reqIds, Drafted G cfg tokens requests reqId)
    (hplain : ∀ reqId ∈ reqIds, (tokens reqId).getD [] = []) :
    (plainEntries cfg requests n reqIds).map
        (fun e => (e.index, entryRow G cfg.fullMask requests e)) =
      Buffer.rowStores n (reqIds.flatMap (requestRows G cfg tokens requests)) := by
  induction reqIds generalizing n with
  | nil => rfl
  | cons reqId reqIds ih =>
    obtain ⟨r, hr, -⟩ := hdrafted reqId mem_cons_self
    have hrow : requestRows G cfg tokens requests reqId =
        [G.maskRow cfg.fullMask (reasoningEnded cfg r) r.grammar] := by
      rw [requestRows, hr, hplain reqId mem_cons_self]
      exact Grammar.rows_nil _ _ _
    rw [plainEntries, map_cons, ih (fun other hother => hdrafted other (mem_cons_of_mem _ hother))
      (fun other hother => hplain other (mem_cons_of_mem _ hother)), flatMap_cons, hrow, entryRow,
      hr]
    rfl

variable (cfg) in
/-- Submitting requests adds their entries behind the entries that were submitted before. -/
theorem submitRequests_eq_ok {s : Submission ι γ} (hnodup : reqIds.Nodup)
    (hknown : ∀ reqId ∈ reqIds, s.requests reqId ≠ none) : ∃ promises batch,
    reqIds.foldlM (submitRequest cfg) s = .ok
        ⟨touchAll (fun _ r => (shouldFillBitmask cfg r).2) s.requests reqIds, promises, batch,
          s.cumulativeIndex + reqIds.length⟩ ∧
      promises.flatten ++ batch = s.promises.flatten ++ s.batch ++
        plainEntries cfg s.requests s.cumulativeIndex reqIds := by
  induction reqIds generalizing s with
  | nil => exact ⟨_, _, rfl, (append_nil _).symm⟩
  | cons reqId reqIds ih =>
    rw [nodup_cons] at hnodup
    obtain ⟨r, hr⟩ := Option.ne_none_iff_exists'.mp (hknown reqId mem_cons_self)
    obtain ⟨promises₁, batch₁, hsubmit, hentry⟩ : ∃ promises batch,
        submitRequest cfg s reqId = .ok ⟨update s.requests reqId
          (some (shouldFillBitmask cfg r).2), promises, batch, s.cumulativeIndex + 1⟩ ∧
        promises.flatten ++ batch = s.promises.flatten ++ s.batch ++
          [⟨reqId, s.cumulativeIndex, reasoningEnded cfg r⟩] := by
      unfold submitRequest
      rw [hr]
      dsimp only
      rw [shouldFillBitmask_fst]
      split_ifs with hfull
      · refine ⟨_, _, rfl, ?_⟩
        rw [flatten_append, flatten_singleton, append_nil, append_assoc]
      · exact ⟨_, _, rfl, (append_assoc _ _ _).symm⟩
    have hframe : ∀ other ∈ reqIds, update s.requests reqId
        (some (shouldFillBitmask cfg r).2) other = s.requests other :=
      fun other hother => update_of_ne (fun heq => hnodup.1 (Eq.subst heq hother)) _ _
    obtain ⟨promises, batch, hrest, hentries⟩ := ih (s := ⟨update s.requests reqId
        (some (shouldFillBitmask cfg r).2), promises₁, batch₁, s.cumulativeIndex + 1⟩) hnodup.2
      fun other hother => by
        dsimp only
        rw [hframe other hother]
        exact hknown other (mem_cons_of_mem _ hother)
    refine ⟨promises, batch, foldlM_cons_eq_ok.mpr ⟨_, hsubmit, ?_⟩, ?_⟩
    · rw [hrest, touchAll_cons (fun _ r => (shouldFillBitmask cfg r).2) hr hnodup.1, length_cons,
        add_right_comm, add_assoc]
    · rw [hentries, hentry, append_assoc, plainEntries_congr hframe, plainEntries, hr]
      rfl

variable {pool : List (List (Entry ι)) → List (Entry ι)}

/-- The parallel path stores the same rows, in whatever order the tasks run. -/
theorem fillInParallel_eq_ok (hpool : ∀ promises, (pool promises).Perm promises.flatten)
    (hnodup : reqIds.Nodup)
    (hdrafted : ∀ reqId ∈ reqIds, Drafted G cfg tokens s.requests reqId)
    (hplain : ∀ reqId ∈ reqIds, (tokens reqId).getD [] = [])
    (hroom : s.cumulativeIndex +
      (reqIds.flatMap (requestRows G cfg tokens s.requests)).length ≤ s.bitmask.length) :
    fillInParallel G cfg pool reqIds s = .ok
      { requests := touchAll (settled G cfg tokens) s.requests reqIds
        bitmask := Buffer.writeAll s.bitmask (Buffer.rowStores s.cumulativeIndex
          (reqIds.flatMap (requestRows G cfg tokens s.requests)))
        cumulativeIndex := s.cumulativeIndex +
          (reqIds.flatMap (requestRows G cfg tokens s.requests)).length } := by
  have hknown : ∀ reqId ∈ reqIds, s.requests reqId ≠ none := fun reqId hreqId hnone => by
    obtain ⟨r, hr, -⟩ := hdrafted reqId hreqId
    cases hnone.symm.trans hr
  obtain ⟨promises, batch, hsubmit, hentries⟩ := submitRequests_eq_ok cfg
    (s := ⟨s.requests, [], [], s.cumulativeIndex⟩) hnodup hknown
  let entries := plainEntries cfg s.requests s.cumulativeIndex reqIds
  let flagged := touchAll (fun _ r => (shouldFillBitmask cfg r).2) s.requests reqIds
  -- the batch that is left over becomes the last task
  have hall : (if batch = [] then promises else promises ++ [batch]).flatten = entries := by
    rw [show entries = promises.flatten ++ batch from hentries.symm]
    split_ifs with hempty
    · rw [hempty, append_nil]
    · rw [flatten_append, flatten_singleton]
  have hperm := hpool (if batch = [] then promises else promises ++ [batch])
  rw [hall] at hperm
  have hids : (entries.map Entry.reqId) = reqIds := map_plainEntries _ _ _
  have hflagged : ∀ e ∈ entries,
      flagged e.reqId = (s.requests e.reqId).map fun r => (shouldFillBitmask cfg r).2 :=
    fun e he => if_pos (hids ▸ mem_map_of_mem he)
  have hrows := map_entryRow_plainEntries (n := s.cumulativeIndex) hdrafted hplain
  have hsame : ∀ e ∈ entries, entryRow G cfg.fullMask flagged e =
      entryRow G cfg.fullMask s.requests e := by
    intro e he
    rw [entryRow, entryRow, hflagged e he]
    cases s.requests e.reqId with
    | none => rfl
    | some r =>
      rw [Option.map_some]
      dsimp only
      rw [grammar_shouldFillBitmask]
  obtain ⟨requests, hfill, hbatch, hframe⟩ := fillBitmasks_eq_ok (G := G)
    (s := ⟨flagged, s.bitmask, s.cumulativeIndex + reqIds.length⟩)
    (pool (if batch = [] then promises else promises ++ [batch])) cfg.fullMask
    ((hperm.map _).nodup_iff.mpr (hids.symm ▸ hnodup))
    (fun e he => by
      have he := hperm.mem_iff.mp he
      dsimp only
      rw [hflagged e he, ne_eq, Option.map_eq_none_iff]
      exact hknown _ (hids ▸ mem_map_of_mem he))
    (fun e he => by
      have hmem := mem_map_of_mem (f := fun e => (e.index, entryRow G cfg.fullMask s.requests e))
        (hperm.mem_iff.mp he)
      rw [hrows] at hmem
      exact lt_of_lt_of_le (Buffer.mem_rowStores hmem).2 hroom)
  refine bind_eq_ok.mpr ⟨_, hsubmit, hfill.trans ?_⟩
  -- the requests afterwards
  have hrequests : requests = touchAll (settled G cfg tokens) s.requests reqIds := by
    funext other
    have hmem : other ∈ (pool (if batch = [] then promises else promises ++ [batch])).map
        Entry.reqId ↔ other ∈ reqIds := by
      rw [(hperm.map _).mem_iff, hids]
    by_cases hother : other ∈ reqIds
    · obtain ⟨e, he, rfl⟩ := mem_map.mp (hmem.mpr hother)
      have hin := hperm.mem_iff.mp he
      rw [hbatch e he, touchAll, if_pos hother]
      dsimp only
      rw [hflagged e hin, applyBitmask_of_mem hin, Option.map_map]
      obtain ⟨r, hr⟩ := Option.ne_none_iff_exists'.mp (hknown _ hother)
      rw [hr, Option.map_some, Option.map_some, Option.map_some, Option.getD_some,
        Function.comp_apply, grammar_shouldFillBitmask, settled, hplain _ hother]
      rfl
    · rw [hframe other (mt hmem.mp hother), touchAll, if_neg hother]
      exact if_neg hother
  -- the rows
  have hstores : (pool (if batch = [] then promises else promises ++ [batch])).map
      (fun e => (e.index, entryRow G cfg.fullMask flagged e)) =
        (pool (if batch = [] then promises else promises ++ [batch])).map
          (fun e => (e.index, entryRow G cfg.fullMask s.requests e)) :=
    map_congr_left fun e he => by rw [hsame e (hperm.mem_iff.mp he)]
  have hcells := hperm.map fun e => (e.index, entryRow G cfg.fullMask s.requests e)
  rw [hrows] at hcells
  have hlength : (reqIds.flatMap (requestRows G cfg tokens s.requests)).length =
      reqIds.length := by
    have hentriesLength := congrArg List.length hids
    rw [length_map] at hentriesLength
    rw [← Buffer.length_rowStores s.cumulativeIndex, ← hrows, length_map]
    exact hentriesLength
  dsimp only
  rw [hrequests, hstores, hlength,
    Buffer.writeAll_perm hcells
      ((hcells.map Prod.fst).nodup_iff.mpr (Buffer.nodup_rowStores _ _))]

/-! ### The mask -/

/-- What the scheduler hands over: known requests whose grammars accept their drafts, not more of
them than sequences fit, and no draft that is longer than configured. A buffer that was allocated
before has its length still. -/
structure Ready (G : Grammar γ μ) (cfg : Config μ) (m : Manager ι γ μ) (ids : List (ι × ℕ))
    (tokens : ι → Option (List ℕ)) : Prop where
  nodup : (ids.map Prod.fst).Nodup
  drafted : ∀ e ∈ ids, Drafted G cfg tokens m.requests e.1
  numSeqs : ids.length ≤ cfg.maxNumSeqs
  draftLength : ∀ e ∈ ids, ((tokens e.1).getD []).length ≤ cfg.maxNumSpecTokens
  allocated : ∀ bitmask, m.bitmask = some bitmask →
    bitmask.length = cfg.maxNumSeqs * (1 + cfg.maxNumSpecTokens)

variable {m : Manager ι γ μ} {ids : List (ι × ℕ)}

/-- The buffer that a call works on. -/
def Manager.buffer (m : Manager ι γ μ) (cfg : Config μ) : List μ :=
  m.bitmask.getD (cfg.allocateTokenBitmask (cfg.maxNumSeqs * (1 + cfg.maxNumSpecTokens))).1

omit [DecidableEq ι] in
theorem Ready.length_buffer (h : Ready G cfg m ids tokens) :
    (m.buffer cfg).length = cfg.maxNumSeqs * (1 + cfg.maxNumSpecTokens) := by
  unfold Manager.buffer
  cases hbitmask : m.bitmask with
  | none => exact (cfg.allocateTokenBitmask _).2
  | some bitmask => exact h.allocated bitmask hbitmask

/-- Both paths fill the first rows of the buffer, so the mask consists of the rows. -/
theorem Ready.grammarBitmask_eq_ok (hpool : ∀ promises, (pool promises).Perm promises.flatten)
    (h : Ready G cfg m ids tokens) (hne : ids ≠ []) :
    grammarBitmask G cfg pool m ids tokens = .ok
      (some ((orderedSeq ids).flatMap fun e => requestRows G cfg tokens m.requests e.1),
        { requests := touchAll (settled G cfg tokens) m.requests
            ((orderedSeq ids).map Prod.fst)
          bitmask := some (Buffer.writeAll (m.buffer cfg) (Buffer.rowStores 0
            ((orderedSeq ids).flatMap fun e => requestRows G cfg tokens m.requests e.1))) }) := by
  have hperm := orderedSeq_perm ids
  have hnodup : ((orderedSeq ids).map Prod.fst).Nodup :=
    (hperm.map Prod.fst).nodup_iff.mpr h.nodup
  have hmem : ∀ reqId ∈ (orderedSeq ids).map Prod.fst, ∃ e ∈ ids, e.1 = reqId := by
    intro reqId hreqId
    obtain ⟨e, he, heq⟩ := mem_map.mp hreqId
    exact ⟨e, hperm.mem_iff.mp he, heq⟩
  have hdrafted : ∀ reqId ∈ (orderedSeq ids).map Prod.fst,
      Drafted G cfg tokens m.requests reqId := by
    intro reqId hreqId
    obtain ⟨e, he, rfl⟩ := hmem reqId hreqId
    exact h.drafted e he
  have hlen : ∀ reqId ∈ (orderedSeq ids).map Prod.fst,
      ((tokens reqId).getD []).length ≤ cfg.maxNumSpecTokens := by
    intro reqId hreqId
    obtain ⟨e, he, rfl⟩ := hmem reqId hreqId
    exact h.draftLength e he
  have hrows := length_flatMap_requestRows G cfg m.requests hlen
  have hroom : 0 + (((orderedSeq ids).map Prod.fst).flatMap
      (requestRows G cfg tokens m.requests)).length ≤ (m.buffer cfg).length := by
    rw [h.length_buffer, zero_add]
    refine le_trans hrows (Nat.mul_le_mul_right _ ?_)
    rw [length_map, hperm.length_eq]
    exact h.numSeqs
  -- the closed form of both paths
  have hfilled : fillRows G cfg pool tokens ((orderedSeq ids).map Prod.fst)
      ⟨m.requests, m.buffer cfg, 0⟩ = .ok
        { requests := touchAll (settled G cfg tokens) m.requests ((orderedSeq ids).map Prod.fst)
          bitmask := Buffer.writeAll (m.buffer cfg) (Buffer.rowStores 0
            (((orderedSeq ids).map Prod.fst).flatMap (requestRows G cfg tokens m.requests)))
          cumulativeIndex := 0 + (((orderedSeq ids).map Prod.fst).flatMap
            (requestRows G cfg tokens m.requests)).length } := by
    unfold fillRows
    split_ifs with hparallel
    · refine fillInParallel_eq_ok hpool hnodup hdrafted (fun reqId hreqId => ?_) hroom
      have hshort := hlen reqId hreqId
      rw [hparallel.2] at hshort
      exact length_eq_zero_iff.mp (Nat.le_zero.mp hshort)
    · exact fillSerially_eq_ok hnodup hdrafted hroom
  -- the filled part of the buffer
  rw [flatMap_map, zero_add] at hfilled hroom
  have hwritten := Buffer.writeAll_rowStores [] (m.buffer cfg) hroom
  rw [nil_append, nil_append, length_nil] at hwritten
  rw [grammarBitmask, if_neg hne]
  refine bind_eq_ok.mpr ⟨_, hfilled, ?_⟩
  dsimp only
  congr 3
  rw [hwritten, length_append, length_drop]
  split_ifs with hless
  · exact take_left
  · rw [drop_eq_nil_of_le (by omega), append_nil]

/-- The accepted tokens, last first, and what the question before was answered from. A third token
terminates the grammar. Where answers are delayed, that is told one question later. -/
def stackGrammar (delayed : Bool) : Grammar (List ℕ × Bool) ℕ where
  acceptTokens g tokens := (tokens.all (· < 10), tokens.reverse ++ g.1, g.2)
  rollback g n := (g.1.drop n, g.2)
  isTerminated g :=
    if delayed then (g.2, g.1, decide (3 ≤ g.1.length)) else (decide (3 ≤ g.1.length), g)
  allowed g := g.1.sum

variable {delayed : Bool}

theorem stackGrammar_restores : (stackGrammar delayed).RollbackRestores := by
  have hgrown : ∀ (calls : List (List ℕ)) (g g' : List ℕ × Bool),
      (stackGrammar delayed).acceptCalls g calls = some g' →
        g' = (calls.flatten.reverse ++ g.1, g.2) := by
    intro calls
    induction calls with
    | nil =>
      intro g g' hok
      exact (Option.some.inj hok).symm
    | cons tokens calls ih =>
      intro g g' hok
      rw [Grammar.acceptCalls] at hok
      split_ifs at hok
      rw [ih _ _ hok, flatten_cons, reverse_append, append_assoc]
      rfl
  intro g calls g' hok
  rw [hgrown calls g g' hok]
  exact Prod.ext (drop_left' length_reverse) rfl

/-- Only questions see whether one was asked before. -/
theorem stackGrammar_unseen :
    (stackGrammar delayed).Unseen fun g g' : List ℕ × Bool => g.1 = g'.1 where
  equivalence := ⟨fun _ => rfl, Eq.symm, Eq.trans⟩
  ask g := by cases delayed <;> rfl
  accepted _ _ := rfl
  acceptTokens tokens h := congrArg (tokens.reverse ++ ·) h
  rollback n h := congrArg (List.drop n) h
  allowed h := congrArg List.sum h

/-- Two sequences with two draft tokens each. A prompt that is not empty ends the reasoning. -/
def draftingConfig : Config ℕ where
  maxNumSeqs := 2
  speculativeConfig := some 2
  fillBitmaskParallelThreshold := 128
  fillBitmaskParallelBatchSize := 16
  reasoner := some fun promptTokenIds => promptTokenIds != []
  fullMask := 999
  allocateTokenBitmask n := ⟨List.replicate n 0, length_replicate⟩

/-- The first request is drafted for, the second one still reasons. -/
def draftedRequests : Manager Bool (List ℕ × Bool) ℕ where
  requests reqId := some (if reqId then ⟨[7], ([4], false), none⟩ else ⟨[], ([], false), none⟩)
  bitmask := none

def draftTokens (reqId : Bool) : Option (List ℕ) :=
  if reqId then some [5, 6] else none

theorem ready_draft (delayed : Bool) : Ready (stackGrammar delayed) draftingConfig draftedRequests
    [(false, 1), (true, 0)] draftTokens := by
  refine ⟨by decide, fun e _ => ?_, Nat.le_refl 2, fun e _ => ?_, nofun⟩
  · rcases e with ⟨_ | _, index⟩
    · exact ⟨_, rfl, trivial⟩
    · refine ⟨_, rfl, ?_⟩
      cases delayed <;> exact ⟨fun _ => rfl, fun _ => rfl, trivial⟩
  · rcases e with ⟨_ | _, index⟩
    · exact Nat.zero_le _
    · exact Nat.le_refl 2

theorem orderedSeq_draft : orderedSeq [(false, 1), (true, 0)] = [(true, 0), (false, 1)] := by
  simp [orderedSeq, List.mergeSort, List.MergeSort.Internal.splitInTwo]

end StructuredOutput
