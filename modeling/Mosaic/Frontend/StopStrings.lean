import Mosaic.Frontend.Detokenizer

/-!
# Stop strings and the size of updates

The tokens of a request may arrive one at a time, several at once, or all in one update. Each update
tries the stop strings in the order of the list, so when more than one of them has come up, it
reports the first of the list and not the one that was completed first. And an update that ends with
a stop token does not look for stop strings at all. So the output can depend on how the tokens were
split.
-/

namespace Frontend

open List Occurrences Option

variable {σ : Type} {decodeNext : σ → ℕ → σ × Text}

/-! ### The first stop string of the list -/

/-- The first stop string of the list that occurs in the text, and where it occurs first. -/
def firstListed (text : Text) (stop : List Text) : Option (Text × ℕ) :=
  stop.findSome? fun s => (find text s 0).map (s, ·)

/-- No stop string occurs in the text. -/
def Clean (text : Text) (stop : List Text) : Prop :=
  ∀ s ∈ stop, find text s 0 = none

variable {stop : List Text}

theorem firstListed_eq_none {text : Text} : firstListed text stop = none ↔ Clean text stop := by
  unfold firstListed Clean
  simp only [findSome?_eq_none_iff, map_eq_none_iff]

theorem firstListed_eq_some {text : Text} {s : Text} {i : ℕ}
    (h : firstListed text stop = some (s, i)) :
    s ∈ stop ∧ find text s 0 = some i := by
  obtain ⟨_, hmem, hfind⟩ := exists_of_findSome?_eq_some h
  obtain ⟨_, hi, heq⟩ := map_eq_some_iff.mp hfind
  obtain ⟨rfl, rfl⟩ := Prod.mk.inj heq
  exact ⟨hmem, hi⟩

theorem Clean.of_append {text more : Text} (h : Clean (text ++ more) stop) : Clean text stop :=
  fun s hs => find_eq_none_of_append (h s hs)

/-- After a clean text, the search in the new part finds the first stop string of the list. -/
theorem matchFrom_eq_firstListed {text new : Text} (hstop : ∀ s ∈ stop, s ≠ [])
    (h : Clean text stop) :
    (if new = [] then none else matchFrom (text ++ new) text.length stop) =
      firstListed (text ++ new) stop := by
  split_ifs with hnew
  · rw [hnew, append_nil, firstListed_eq_none.mpr h]
  · unfold matchFrom firstListed
    induction stop with
    | nil => rfl
    | cons s stop ih =>
      rw [findSome?_cons, findSome?_cons,
        find_append_of_none (hstop s mem_cons_self) (h s mem_cons_self),
        ih (fun s' hs' => hstop s' (mem_cons_of_mem _ hs'))
          fun s' hs' => h s' (mem_cons_of_mem _ hs')]

variable {stop : List Text}

/-- The first of the list that occurs in a text is also the first in the part of the text up to the
end of its occurrence. -/
theorem firstListed_of_append {text more s : Text} {i : ℕ}
    (h : firstListed (text ++ more) stop = some (s, i)) (hend : i + s.length ≤ text.length) :
    firstListed text stop = some (s, i) := by
  induction stop with
  | nil => cases h
  | cons s' stop ih =>
    unfold firstListed at h ih ⊢
    rw [findSome?_cons] at h ⊢
    cases hfind : find (text ++ more) s' 0 with
    | none =>
      rw [hfind] at h
      rw [find_eq_none_of_append hfind]
      exact ih h
    | some j =>
      rw [hfind] at h
      cases h
      rw [(find_append_eq_some more).mpr ⟨hfind, hend⟩]
      rfl

/-! ### Outcomes -/

namespace Detokenizer

/-- The stop string that is reported, and the text, after a sequence of updates. -/
def outcome (decodeNext : σ → ℕ → σ × Text) (d : Detokenizer σ)
    (updates : List (List ℕ × Bool)) : Option Text × Text :=
  ((d.stream decodeNext false updates).2.1, (d.stream decodeNext false updates).2.2.outputText)

/-- The detokenizer with more tokens decoded. -/
def decoded (decodeNext : σ → ℕ → σ × Text) (d : Detokenizer σ) (ids : List ℕ) : Detokenizer σ :=
  ids.foldl (decodeOne decodeNext) d

variable {d : Detokenizer σ} {ids : List ℕ} {updates : List (List ℕ × Bool)}

theorem outputText_decoded (d : Detokenizer σ) (ids : List ℕ) :
    (d.decoded decodeNext ids).outputText =
      d.outputText ++ decodeText decodeNext d.decoder ids := by
  rw [decoded, foldl_decodeOne]

theorem stop_decoded (d : Detokenizer σ) (ids : List ℕ) :
    (d.decoded decodeNext ids).stop = d.stop := by
  rw [decoded, foldl_decodeOne]

theorem include_decoded (d : Detokenizer σ) (ids : List ℕ) :
    (d.decoded decodeNext ids).includeStopStrInOutput = d.includeStopStrInOutput := by
  rw [decoded, foldl_decodeOne]

theorem decoded_append (d : Detokenizer σ) (ids more : List ℕ) :
    d.decoded decodeNext (ids ++ more) = (d.decoded decodeNext ids).decoded decodeNext more :=
  foldl_append

/-- An update after a clean text. -/
theorem update_clean (decodeNext : σ → ℕ → σ × Text) (ids : List ℕ)
    (hstop : ∀ s ∈ d.stop, s ≠ []) (hclean : Clean d.outputText d.stop) :
    d.update decodeNext ids false =
      match firstListed (d.decoded decodeNext ids).outputText d.stop with
      | none => (none, d.decoded decodeNext ids)
      | some (s, i) => (some s, { d.decoded decodeNext ids with
          outputText := (d.decoded decodeNext ids).outputText.take
            (keptLength d.includeStopStrInOutput s i) }) := by
  rw [update_eq hstop, matchFrom_eq_firstListed hstop hclean, outputText_decoded]
  rfl

theorem outcome_finished {stopTerminated : Bool}
    (h : finishes decodeNext d ids stopTerminated updates = true) :
    d.outcome decodeNext ((ids, stopTerminated) :: updates) =
      ((d.update decodeNext ids stopTerminated).1,
        (d.update decodeNext ids stopTerminated).2.outputText) := by
  rw [outcome, stream_finished false h, getNextOutputText_full]

theorem outcome_continued {stopTerminated : Bool}
    (h : finishes decodeNext d ids stopTerminated updates = false) :
    d.outcome decodeNext ((ids, stopTerminated) :: updates) =
      (d.update decodeNext ids stopTerminated).2.outcome decodeNext updates := by
  rw [outcome, stream_continued false h, getNextOutputText_full]
  rfl

/-- As long as the text stays clean, an update decodes its tokens and the next one follows. -/
theorem outcome_cons_clean (hstop : ∀ s ∈ d.stop, s ≠ []) (hclean : Clean d.outputText d.stop)
    (hnext : Clean (d.decoded decodeNext ids).outputText d.stop) (hne : updates ≠ []) :
    d.outcome decodeNext ((ids, false) :: updates) =
      (d.decoded decodeNext ids).outcome decodeNext updates := by
  have hupd := update_clean decodeNext ids hstop hclean
  rw [firstListed_eq_none.mpr hnext] at hupd
  have hfinishes : finishes decodeNext d ids false updates = false := by
    unfold finishes
    rw [hupd]
    simpa using hne
  rw [outcome_continued hfinishes, hupd]

end Detokenizer

/-! ### Ways of splitting -/

/-- The updates with these tokens, of which the last one may report a stop token. -/
def updatesOf (stopTerminated : Bool) : List (List ℕ) → List (List ℕ × Bool)
  | [] => []
  | [chunk] => [(chunk, stopTerminated)]
  | chunk :: chunk' :: chunks => (chunk, false) :: updatesOf stopTerminated (chunk' :: chunks)

theorem updatesOf_cons_ne_nil (stopTerminated : Bool) (chunk : List ℕ) (chunks : List (List ℕ)) :
    updatesOf stopTerminated (chunk :: chunks) ≠ [] := by
  cases chunks with
  | nil => exact cons_ne_nil _ _
  | cons chunk' chunks => exact cons_ne_nil _ _

/-- A way of splitting a token sequence. The update that reports a stop token has this token. -/
structure SplitInto (tokens : List ℕ) (stopTerminated : Bool) (chunks : List (List ℕ)) : Prop where
  flatten_eq : chunks.flatten = tokens
  last_ne_nil : stopTerminated = true → ∀ last, chunks.getLast? = some last → last ≠ []

/-- The first occurrence of a stop string ends no later than that of any other. -/
def CompletedFirst (text : Text) (stop : List Text) (s : Text) (i : ℕ) : Prop :=
  ∀ s' ∈ stop, ∀ j, find text s' 0 = some j → i + s.length ≤ j + s'.length

namespace Detokenizer

variable {d : Detokenizer σ}

/-- Without a stop token, when the first stop string of the list that occurs is also completed
first, or none occurs: the outcome of any updates. -/
theorem outcome_of_completedFirst (decodeNext : σ → ℕ → σ × Text) (d : Detokenizer σ)
    (hstop : ∀ s ∈ d.stop, s ≠ []) (hclean : Clean d.outputText d.stop) (chunks : List (List ℕ))
    (hfirst : ∀ s i, firstListed (d.decoded decodeNext chunks.flatten).outputText d.stop =
      some (s, i) → CompletedFirst (d.decoded decodeNext chunks.flatten).outputText d.stop s i) :
    d.outcome decodeNext (updatesOf false chunks) =
      match firstListed (d.decoded decodeNext chunks.flatten).outputText d.stop with
      | none => (none, (d.decoded decodeNext chunks.flatten).outputText)
      | some (s, i) => (some s, (d.decoded decodeNext chunks.flatten).outputText.take
          (keptLength d.includeStopStrInOutput s i)) := by
  induction chunks generalizing d with
  | nil =>
    have hnone : firstListed (d.decoded decodeNext [].flatten).outputText d.stop = none :=
      firstListed_eq_none.mpr hclean
    rw [hnone]
    rfl
  | cons chunk chunks ih =>
    have hupd := update_clean decodeNext chunk hstop hclean
    obtain ⟨more, hmore⟩ : ∃ more, (d.decoded decodeNext (chunk :: chunks).flatten).outputText =
        (d.decoded decodeNext chunk).outputText ++ more := by
      rw [flatten_cons, decoded_append]
      exact ⟨_, outputText_decoded _ _⟩
    cases hhere : firstListed (d.decoded decodeNext chunk).outputText d.stop with
    | none =>
      have hnext := firstListed_eq_none.mp hhere
      cases chunks with
      | nil =>
        rw [hhere] at hupd
        rw [updatesOf, outcome_finished (by rfl), hupd, flatten_singleton, hhere]
      | cons chunk' chunks =>
        rw [updatesOf, outcome_cons_clean hstop hclean hnext (updatesOf_cons_ne_nil _ _ _)]
        have hih := ih (d.decoded decodeNext chunk) (by rwa [stop_decoded])
          (by rwa [stop_decoded]) (by
            rw [← decoded_append, stop_decoded]
            exact hfirst)
        rw [← decoded_append, stop_decoded, include_decoded] at hih
        exact hih
    | some found =>
      obtain ⟨s₁, i₁⟩ := found
      obtain ⟨hmem, hfind⟩ := firstListed_eq_some hhere
      obtain ⟨hall, hend⟩ := (find_append_eq_some more).mp hfind
      rw [← hmore] at hall
      cases hwhole : firstListed (d.decoded decodeNext (chunk :: chunks).flatten).outputText
          d.stop with
      | none =>
        have := firstListed_eq_none.mp hwhole s₁ hmem
        rw [hall] at this
        cases this
      | some first =>
        obtain ⟨s, i⟩ := first
        -- the first of the list is completed in this update
        have hfits : i + s.length ≤ (d.decoded decodeNext chunk).outputText.length :=
          le_trans (hfirst s i hwhole s₁ hmem i₁ hall) hend
        have hsame : firstListed (d.decoded decodeNext chunk).outputText d.stop = some (s, i) := by
          rw [hmore] at hwhole
          exact firstListed_of_append hwhole hfits
        rw [hsame] at hupd
        have hfinishes : ∀ updates, finishes decodeNext d chunk false updates = true := by
          intro updates
          rw [finishes, hupd]
          simp
        have hkept : keptLength d.includeStopStrInOutput s i ≤
            (d.decoded decodeNext chunk).outputText.length := by
          unfold keptLength
          split_ifs
          · exact hfits
          · omega
        have htake : ((d.decoded decodeNext chunk).outputText ++ more).take _ = _ :=
          take_append_of_le_length hkept
        rw [← hmore] at htake
        dsimp only
        rw [htake]
        cases chunks with
        | nil => rw [updatesOf, outcome_finished (hfinishes _), hupd]
        | cons chunk' chunks => rw [updatesOf, outcome_finished (hfinishes _), hupd]

/-- The text that is put out when a stop token ends the request. -/
def lastTokens (includeStopStrInOutput : Bool) (tokens : List ℕ) : List ℕ :=
  if includeStopStrInOutput then tokens else tokens.dropLast

theorem update_stopTerminated (decodeNext : σ → ℕ → σ × Text) (d : Detokenizer σ) {ids : List ℕ}
    (hids : ids ≠ []) :
    (d.update decodeNext ids true).1 = none ∧
      (d.update decodeNext ids true).2.outputText =
        (d.decoded decodeNext (lastTokens d.includeStopStrInOutput ids)).outputText := by
  unfold update lastTokens
  rw [if_neg hids, if_pos rfl]
  split_ifs with hinclude
  · exact ⟨rfl, rfl⟩
  · exact ⟨rfl, rfl⟩

/-- With a stop token, and no stop string in the text before it: the outcome of any updates. -/
theorem outcome_of_clean (decodeNext : σ → ℕ → σ × Text) (d : Detokenizer σ)
    (hstop : ∀ s ∈ d.stop, s ≠ []) (chunks : List (List ℕ))
    (hlast : ∀ last, chunks.getLast? = some last → last ≠ [])
    (hclean : Clean (d.decoded decodeNext chunks.flatten.dropLast).outputText d.stop) :
    d.outcome decodeNext (updatesOf true chunks) =
      (none, (d.decoded decodeNext
        (lastTokens d.includeStopStrInOutput chunks.flatten)).outputText) := by
  induction chunks generalizing d with
  | nil =>
    unfold lastTokens
    split_ifs <;> rfl
  | cons chunk chunks ih =>
    cases chunks with
    -- The last update carries the stop token.
    | nil =>
      obtain ⟨hnone, htext⟩ := update_stopTerminated decodeNext d (hlast chunk rfl)
      rw [updatesOf, outcome_finished (by simp [finishes]), hnone, htext, flatten_singleton]
    -- An earlier update: what it shows lies before the stop token, so nothing is found in it.
    | cons chunk' chunks =>
      have hrest : (chunk' :: chunks).flatten ≠ [] := by
        intro hnil
        obtain ⟨last, hgetLast⟩ := getLast?_isSome.mpr (cons_ne_nil chunk' chunks) |>
          isSome_iff_exists.mp
        exact hlast last (by rw [getLast?_cons_cons, hgetLast])
          (flatten_eq_nil_iff.mp hnil last (mem_of_getLast? hgetLast))
      have hall : (chunk :: chunk' :: chunks).flatten.dropLast =
          chunk ++ (chunk' :: chunks).flatten.dropLast :=
        dropLast_append_of_ne_nil hrest
      have htoks : lastTokens d.includeStopStrInOutput (chunk :: chunk' :: chunks).flatten =
          chunk ++ lastTokens d.includeStopStrInOutput (chunk' :: chunks).flatten := by
        unfold lastTokens
        split_ifs
        · rfl
        · exact hall
      rw [hall, decoded_append] at hclean
      have hnext : Clean (d.decoded decodeNext chunk).outputText d.stop := by
        rw [outputText_decoded] at hclean
        exact hclean.of_append
      have hbefore : Clean d.outputText d.stop := by
        rw [outputText_decoded] at hnext
        exact hnext.of_append
      rw [updatesOf, outcome_cons_clean hstop hbefore hnext (updatesOf_cons_ne_nil _ _ _),
        htoks, decoded_append]
      have hih := ih (d.decoded decodeNext chunk) (by rwa [stop_decoded])
        (fun last h => hlast last (by rw [getLast?_cons_cons, h])) (by rwa [stop_decoded])
      rw [include_decoded] at hih
      exact hih

end Detokenizer

/-! ### When the way of splitting does not matter -/

/-- The text in which the stop strings are looked for: a stop token is not part of it. -/
def searchedText (decodeNext : σ → ℕ → σ × Text) (decoder : σ) (tokens : List ℕ)
    (stopTerminated : Bool) : Text :=
  decodeText decodeNext decoder (if stopTerminated then tokens.dropLast else tokens)

/-- The text without any cut. A stop token is part of it when stop strings are. -/
def wholeText (decodeNext : σ → ℕ → σ × Text) (decoder : σ) (includeStopStrInOutput : Bool)
    (tokens : List ℕ) (stopTerminated : Bool) : Text :=
  decodeText decodeNext decoder
    (if stopTerminated = true ∧ includeStopStrInOutput = false then tokens.dropLast else tokens)

/-- The text is cut at a stop string whose first occurrence is completed first, and it is whole when
none occurs. -/
def CutAtFirst (includeStopStrInOutput : Bool) (stop : List Text) (searched whole : Text) :
    Option Text → Text → Prop
  | none, output => Clean searched stop ∧ output = whole
  | some s, output => ∃ i, s ∈ stop ∧ find searched s 0 = some i ∧
      CompletedFirst searched stop s i ∧
      output = searched.take (keptLength includeStopStrInOutput s i)

/-- All ways of splitting a token sequence have one outcome, and the text is cut at the stop string
that is completed first. -/
def ChunkingFree (decodeNext : σ → ℕ → σ × Text) (decoder : σ) (stop : List Text)
    (includeStopStrInOutput : Bool) (tokens : List ℕ) (stopTerminated : Bool) : Prop :=
  ∃ reported output,
    (∀ chunks, SplitInto tokens stopTerminated chunks →
      (Detokenizer.new stop includeStopStrInOutput decoder).outcome decodeNext
        (updatesOf stopTerminated chunks) = (reported, output)) ∧
    CutAtFirst includeStopStrInOutput stop (searchedText decodeNext decoder tokens stopTerminated)
      (wholeText decodeNext decoder includeStopStrInOutput tokens stopTerminated) reported output

/-- The first stop string of the list that occurs is also completed first; with a stop token, none
occurs before it. -/
def FirstListedIsFirst (text : Text) (stop : List Text) (stopTerminated : Bool) : Prop :=
  if stopTerminated then Clean text stop
  else ∀ s i, firstListed text stop = some (s, i) → CompletedFirst text stop s i

theorem outputText_decoded_new (stop : List Text) (includeStopStrInOutput : Bool) (decoder : σ)
    (ids : List ℕ) : ((Detokenizer.new stop includeStopStrInOutput decoder).decoded
      decodeNext ids).outputText = decodeText decodeNext decoder ids := by
  rw [Detokenizer.outputText_decoded]
  rfl

theorem clean_nil (hstop : ∀ s ∈ stop, s ≠ []) : Clean [] stop := by
  intro s hs
  rw [find_eq_none]
  intro i _ _ hprefix
  rw [drop_nil] at hprefix
  exact hstop s hs (prefix_nil.mp hprefix)

theorem chunkingFree_of_firstListedIsFirst (hstop : ∀ s ∈ stop, s ≠ [])
    (decoder : σ) (includeStopStrInOutput : Bool) (tokens : List ℕ) (stopTerminated : Bool)
    (h : FirstListedIsFirst (searchedText decodeNext decoder tokens stopTerminated) stop
      stopTerminated) :
    ChunkingFree decodeNext decoder stop includeStopStrInOutput tokens stopTerminated := by
  cases stopTerminated with
  -- A stop token ends the text: nothing may be found before it, and nothing is.
  | true =>
    refine ⟨none, _, fun chunks hsplit => ?_, h, rfl⟩
    have houtcome := (Detokenizer.new stop includeStopStrInOutput decoder).outcome_of_clean
      decodeNext hstop chunks (hsplit.last_ne_nil rfl) (by
        rw [hsplit.flatten_eq, outputText_decoded_new]
        exact h)
    rw [hsplit.flatten_eq, outputText_decoded_new] at houtcome
    rw [houtcome]
    cases includeStopStrInOutput with
    | true => rfl
    | false => rfl
  | false =>
    -- Whatever the updates are, the outcome is the one of the whole text at once.
    have houtcome : ∀ chunks, SplitInto tokens false chunks →
        (Detokenizer.new stop includeStopStrInOutput decoder).outcome decodeNext
          (updatesOf false chunks) =
        match firstListed (decodeText decodeNext decoder tokens) stop with
        | none => (none, decodeText decodeNext decoder tokens)
        | some (s, i) => (some s, (decodeText decodeNext decoder tokens).take
            (keptLength includeStopStrInOutput s i)) := by
      intro chunks hsplit
      have hall := (Detokenizer.new stop includeStopStrInOutput decoder).outcome_of_completedFirst
        decodeNext hstop (clean_nil hstop) chunks (by
          rw [hsplit.flatten_eq, outputText_decoded_new]
          exact h)
      rw [hsplit.flatten_eq, outputText_decoded_new] at hall
      exact hall
    cases hfirst : firstListed (decodeText decodeNext decoder tokens) stop with
    | none =>
      rw [hfirst] at houtcome
      exact ⟨none, _, houtcome, firstListed_eq_none.mp hfirst, rfl⟩
    | some found =>
      obtain ⟨s, i⟩ := found
      obtain ⟨hmem, hfind⟩ := firstListed_eq_some hfirst
      rw [hfirst] at houtcome
      exact ⟨some s, _, houtcome, i, hmem, hfind, h s i hfirst, rfl⟩

/-- All tokens in one update. -/
theorem splitInto_singleton {tokens : List ℕ} {stopTerminated : Bool}
    (h : stopTerminated = true → tokens ≠ []) : SplitInto tokens stopTerminated [tokens] where
  flatten_eq := flatten_singleton
  last_ne_nil hterminated _ hlast := some.inj hlast ▸ h hterminated

theorem firstListedIsFirst_of_chunkingFree (hstop : ∀ s ∈ stop, s ≠ [])
    {decoder : σ} {includeStopStrInOutput : Bool} {tokens : List ℕ} {stopTerminated : Bool}
    (h : ChunkingFree decodeNext decoder stop includeStopStrInOutput tokens stopTerminated) :
    FirstListedIsFirst (searchedText decodeNext decoder tokens stopTerminated) stop
      stopTerminated := by
  obtain ⟨_, _, hall, hcut⟩ := h
  cases stopTerminated with
  | true =>
    rcases eq_or_ne tokens [] with rfl | htoks
    · exact clean_nil hstop
    -- the one update with all tokens reports no stop string
    have houtcome := hall [tokens] (splitInto_singleton fun _ => htoks)
    obtain ⟨hnone, -⟩ := Detokenizer.update_stopTerminated decodeNext
      (Detokenizer.new stop includeStopStrInOutput decoder) htoks
    rw [updatesOf, Detokenizer.outcome_finished (by simp [Detokenizer.finishes]), hnone] at houtcome
    obtain ⟨rfl, -⟩ := Prod.mk.inj houtcome
    exact hcut.1
  | false =>
    intro s i hfirst
    -- the one update with all tokens reports the first stop string of the list
    have houtcome := hall [tokens] (splitInto_singleton nofun)
    have hupd := Detokenizer.update_clean (d := .new stop includeStopStrInOutput decoder)
      decodeNext tokens hstop (clean_nil hstop)
    have hhere : firstListed (((Detokenizer.new stop includeStopStrInOutput decoder).decoded
        decodeNext tokens).outputText) (Detokenizer.new stop includeStopStrInOutput decoder).stop =
          some (s, i) := by
      rw [outputText_decoded_new]
      exact hfirst
    rw [hhere] at hupd
    rw [updatesOf, Detokenizer.outcome_finished (by simp [Detokenizer.finishes]), hupd]
      at houtcome
    obtain ⟨rfl, -⟩ := Prod.mk.inj houtcome
    obtain ⟨_, -, hfind, hcompleted, -⟩ := hcut
    rw [(firstListed_eq_some hfirst).2] at hfind
    cases hfind
    exact hcompleted

/-- The outcome does not depend on how the tokens are split, and the text is cut at the stop string
that is completed first, exactly when the first stop string of the list that occurs in the text is
completed first, or, for tokens that end with a stop token, when none occurs before it. -/
theorem chunkingFree_iff (decodeNext : σ → ℕ → σ × Text) (decoder : σ) {stop : List Text}
    (hstop : ∀ s ∈ stop, s ≠ []) (includeStopStrInOutput : Bool) (tokens : List ℕ)
    (stopTerminated : Bool) :
    ChunkingFree decodeNext decoder stop includeStopStrInOutput tokens stopTerminated ↔
      FirstListedIsFirst (searchedText decodeNext decoder tokens stopTerminated) stop
        stopTerminated :=
  ⟨firstListedIsFirst_of_chunkingFree hstop,
    chunkingFree_of_firstListedIsFirst hstop decoder includeStopStrInOutput tokens stopTerminated⟩

/-- A decoder with one letter for each token. -/
def letters (_ : Unit) (id : ℕ) : Unit × Text :=
  ((), if id = 0 then ['a'] else ['b'])

/-- Two stop strings that come up in the text `ab` in the order of the list. -/
theorem chunkingFree_iff_in_order :
    ChunkingFree letters () [['a'], ['b']] false [0, 1] false := by
  refine (chunkingFree_iff letters () (by decide) false [0, 1] false).mpr fun s i hfirst => ?_
  have hvalue : firstListed (searchedText letters () [0, 1] false) [['a'], ['b']] =
      some (['a'], 0) := by decide
  obtain ⟨rfl, rfl⟩ := Prod.mk.inj (Option.some.inj (hvalue.symm.trans hfirst))
  intro s' hs' j _
  have hlength : ['a'].length = s'.length := by
    rcases mem_pair.mp hs' with rfl | rfl <;> rfl
  omega

/-- The stop strings `b` and `a`, in this order, and the text `ab`: in one update `b` is reported
and the text keeps the `a`; token by token `a` is reported and the text is empty. -/
theorem not_chunkingFree : ¬ ChunkingFree letters () [['b'], ['a']] false [0, 1] false := by
  rintro ⟨_, _, hall, -⟩
  have hone := hall [[0, 1]] ⟨rfl, nofun⟩
  have htwo := hall [[0], [1]] ⟨rfl, nofun⟩
  have hdifferent : (Detokenizer.new [['b'], ['a']] false ()).outcome letters
      (updatesOf false [[0, 1]]) ≠ (Detokenizer.new [['b'], ['a']] false ()).outcome letters
        (updatesOf false [[0], [1]]) := by decide
  exact hdifferent (hone.trans htwo.symm)

end Frontend
