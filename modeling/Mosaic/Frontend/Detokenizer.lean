import Mosaic.Text.Occurrences
import Mathlib.Data.List.MinMax

/-!
# Incremental detokenization

The tokens of a request are turned into text as they arrive. After each update the new text is
searched for the stop strings, and at a match the text is cut. When stop strings are left out of the
output, some of the text is held back from the stream, as it may turn out to be the beginning of a
stop string.

The decoder is a parameter: a state, and for each token the next state and a piece of text.
-/

namespace Frontend

open List Occurrences

/-- A string as the list of its characters. -/
abbrev Text :=
  List Char

/-! ### Stop strings -/

/-- `text.find(sub, start)`, where a negative start counts from the end. -/
def strFind (text sub : Text) (start : ℤ) : Option ℕ :=
  find text sub (if start < 0 then start + text.length else start).toNat

/-- The loop of `check_stop_strings`, which tries the stop strings in order. -/
def firstStop (outputText : Text) (newCharCount : ℕ) (includeInOutput : Bool) :
    List Text → Option (Text × ℤ)
  | [] => none
  | stopStr :: stop =>
    -- avoid searching already-searched text
    match strFind outputText stopStr (1 - newCharCount - stopStr.length) with
    | none => firstStop outputText newCharCount includeInOutput stop
    | some stopIndex =>
      if includeInOutput then
        if outputText.length ≤ stopIndex + stopStr.length then some (stopStr, -1)
        else some (stopStr, stopIndex + stopStr.length)
      else some (stopStr, stopIndex)

/-- `check_stop_strings`: the stop string that is matched, and where to cut the text, or `-1`. -/
def checkStopStrings (outputText : Text) (newCharCount : ℕ) (stop : List Text)
    (includeInOutput : Bool) : Option (Text × ℤ) :=
  if newCharCount = 0 ∨ stop = [] then none
  else firstStop outputText newCharCount includeInOutput stop

/-- The first stop string of the list that has an occurrence which ends behind the first
`offset` characters, and where it occurs first. -/
def matchFrom (outputText : Text) (offset : ℕ) (stop : List Text) : Option (Text × ℕ) :=
  stop.findSome? fun s => (find outputText s (offset + 1 - s.length)).map (s, ·)

theorem matchFrom_cons (outputText : Text) (offset : ℕ) (s : Text) (stop : List Text) :
    matchFrom outputText offset (s :: stop) =
      match find outputText s (offset + 1 - s.length) with
      | some i => some (s, i)
      | none => matchFrom outputText offset stop := by
  rw [matchFrom, findSome?_cons]
  cases find outputText s (offset + 1 - s.length) with
  | none => rfl
  | some i => rfl

/-- The length of the text that is kept at a match. -/
def keptLength (includeInOutput : Bool) (stopString : Text) (stopIndex : ℕ) : ℕ :=
  if includeInOutput then stopIndex + stopString.length else stopIndex

/-- What `check_stop_strings` answers at a match. -/
def truncateTo (includeInOutput : Bool) (outputText stopString : Text) (stopIndex : ℕ) : ℤ :=
  if includeInOutput = true ∧ outputText.length ≤ stopIndex + stopString.length then -1
  else keptLength includeInOutput stopString stopIndex

theorem strFind_eq {outputText s : Text} {n : ℕ} (hpos : 0 < n) (hle : n ≤ outputText.length)
    (hs : s ≠ []) : strFind outputText s (1 - n - s.length) =
      find outputText s (outputText.length - n + 1 - s.length) := by
  have hlen := length_pos_iff.mpr hs
  unfold strFind
  rw [if_pos (by omega)]
  congr 1
  omega

theorem firstStop_eq {outputText : Text} {n : ℕ} (hpos : 0 < n) (hle : n ≤ outputText.length)
    (includeInOutput : Bool) {stop : List Text} (hstop : ∀ s ∈ stop, s ≠ []) :
    firstStop outputText n includeInOutput stop =
      (matchFrom outputText (outputText.length - n) stop).map fun found =>
        (found.1, truncateTo includeInOutput outputText found.1 found.2) := by
  induction stop with
  | nil => rfl
  | cons s stop ih =>
    rw [firstStop, matchFrom_cons, strFind_eq hpos hle (hstop s mem_cons_self)]
    cases find outputText s (outputText.length - n + 1 - s.length) with
    | none => exact ih fun s' hs' => hstop s' (mem_cons_of_mem _ hs')
    | some i =>
      cases includeInOutput with
      | false => rfl
      | true =>
        simp only [truncateTo, keptLength, if_true, true_and, Option.map_some]
        split_ifs <;> rfl

/-- A stop string that is matched, and where. -/
theorem matchFrom_eq_some {outputText : Text} {offset : ℕ} {stop : List Text} {s : Text} {i : ℕ}
    (h : matchFrom outputText offset stop = some (s, i)) :
    s ∈ stop ∧ find outputText s (offset + 1 - s.length) = some i := by
  obtain ⟨_, hmem, hfind⟩ := exists_of_findSome?_eq_some h
  obtain ⟨_, hi, heq⟩ := Option.map_eq_some_iff.mp hfind
  obtain ⟨rfl, rfl⟩ := Prod.mk.inj heq
  exact ⟨hmem, hi⟩

/-! ### The detokenizer -/

/-- The fields of `BaseIncrementalDetokenizer`, with the state of the decoder. -/
structure Detokenizer (σ : Type) where
  stop : List Text
  includeStopStrInOutput : Bool
  stopBufferLength : ℕ
  lastOutputTextOffset : ℕ
  outputText : Text
  tokenIds : List ℕ
  decoder : σ

variable {σ : Type}

/-- The pieces of text that the decoder returns for tokens. -/
def decodeText (decodeNext : σ → ℕ → σ × Text) : σ → List ℕ → Text
  | _, [] => []
  | decoder, id :: ids =>
    (decodeNext decoder id).2 ++ decodeText decodeNext (decodeNext decoder id).1 ids

/-- The state of the decoder after tokens. -/
def decodeState (decodeNext : σ → ℕ → σ × Text) : σ → List ℕ → σ
  | decoder, [] => decoder
  | decoder, id :: ids => decodeState decodeNext (decodeNext decoder id).1 ids

theorem decodeText_append (decodeNext : σ → ℕ → σ × Text) (decoder : σ) (ids more : List ℕ) :
    decodeText decodeNext decoder (ids ++ more) = decodeText decodeNext decoder ids ++
      decodeText decodeNext (decodeState decodeNext decoder ids) more := by
  induction ids generalizing decoder with
  | nil => rfl
  | cons id ids ih =>
    rw [cons_append, decodeText, decodeText, ih, decodeState, append_assoc]

namespace Detokenizer

/-- `__init__`. None of the stop strings is empty. -/
def new (stop : List Text) (includeStopStrInOutput : Bool) (decoder : σ) : Detokenizer σ where
  stop := stop
  includeStopStrInOutput := includeStopStrInOutput
  stopBufferLength :=
    if stop ≠ [] ∧ includeStopStrInOutput = false then (stop.map List.length).foldr max 0 - 1 else 0
  lastOutputTextOffset := 0
  outputText := []
  tokenIds := []
  decoder := decoder

section Model

variable (decodeNext : σ → ℕ → σ × Text)

/-- The body of the loop over the new tokens. -/
def decodeOne (d : Detokenizer σ) (newTokenId : ℕ) : Detokenizer σ :=
  let (decoder, piece) := decodeNext d.decoder newTokenId
  { d with tokenIds := d.tokenIds ++ [newTokenId], outputText := d.outputText ++ piece, decoder }

/-- The stop criteria, for the text that was added to the first `offsetBefore` characters. -/
def evaluateStop (d : Detokenizer σ) (offsetBefore : ℕ) : Option Text × Detokenizer σ :=
  match checkStopStrings d.outputText (d.outputText.length - offsetBefore) d.stop
    d.includeStopStrInOutput with
  | none => (none, d)
  | some (stopString, truncateTo) =>
    (some stopString, if truncateTo ≠ -1 then
      { d with outputText := d.outputText.take truncateTo.toNat } else d)

/-- `update`: the matched stop string, if there is one. -/
def update (d : Detokenizer σ) (newTokenIds : List ℕ) (stopTerminated : Bool) :
    Option Text × Detokenizer σ :=
  if newTokenIds = [] then (none, d)
  else if stopTerminated then
    if d.includeStopStrInOutput then (none, newTokenIds.foldl (decodeOne decodeNext) d)
    else
      -- the last token is not decoded
      let d := newTokenIds.dropLast.foldl (decodeOne decodeNext) d
      (none, { d with tokenIds := d.tokenIds ++ newTokenIds.getLast?.toList })
  else evaluateStop (newTokenIds.foldl (decodeOne decodeNext) d) d.outputText.length

/-- `get_next_output_text` -/
def getNextOutputText (d : Detokenizer σ) (finished delta : Bool) : Text × Detokenizer σ :=
  let bufferLength := if finished then 0 else d.stopBufferLength
  if delta = false then (d.outputText.take (d.outputText.length - bufferLength), d)
  else
    let length : ℤ := (d.outputText.length : ℤ) - bufferLength
    if (d.lastOutputTextOffset : ℤ) < length then
      ((d.outputText.take length.toNat).drop d.lastOutputTextOffset,
        { d with lastOutputTextOffset := length.toNat })
    else ([], d)

/-- The updates of a request, as `process_outputs` makes them: the request is finished by the first
one that reports a stop string or a stop token, or by the last one. The texts that are sent, the
stop string that was reported and what is left of the detokenizer. -/
def stream (delta : Bool) :
    Detokenizer σ → List (List ℕ × Bool) → List Text × Option Text × Detokenizer σ
  | d, [] => ([], none, d)
  | d, (newTokenIds, stopTerminated) :: updates =>
    let (stopString, d) := d.update decodeNext newTokenIds stopTerminated
    let finished := updates.isEmpty || stopString.isSome || stopTerminated
    let (text, d) := d.getNextOutputText finished delta
    if finished then ([text], stopString, d)
    else
      let (texts, last) := stream delta d updates
      (text :: texts, last)

end Model

/-! ### Updates -/

section Updates

variable {decodeNext : σ → ℕ → σ × Text}

/-- The detokenizer after tokens were decoded. -/
theorem foldl_decodeOne (decodeNext : σ → ℕ → σ × Text) (d : Detokenizer σ) (ids : List ℕ) :
    ids.foldl (decodeOne decodeNext) d =
      { d with
        tokenIds := d.tokenIds ++ ids
        outputText := d.outputText ++ decodeText decodeNext d.decoder ids
        decoder := decodeState decodeNext d.decoder ids } := by
  induction ids generalizing d with
  | nil => rw [foldl_nil, decodeText, decodeState, append_nil, append_nil]
  | cons id ids ih =>
    rw [foldl_cons, ih, decodeText, decodeState]
    simp only [decodeOne, append_assoc, singleton_append]

theorem take_truncateTo (includeInOutput : Bool) (text s : Text) (i : ℕ) :
    (if truncateTo includeInOutput text s i ≠ -1 then
        text.take (truncateTo includeInOutput text s i).toNat else text) =
      text.take (keptLength includeInOutput s i) := by
  unfold truncateTo
  split_ifs with hall hnone hnone
  · exact absurd rfl hnone
  · rw [keptLength, if_pos hall.1, take_of_length_le hall.2]
  · rw [Int.toNat_natCast]
  · omega

variable {d : Detokenizer σ}

/-- The stop criteria cut the text at the match, when there is one. -/
theorem evaluateStop_eq (hstop : ∀ s ∈ d.stop, s ≠ []) (before new : Text)
    (htext : d.outputText = before ++ new) :
    d.evaluateStop before.length =
      match if new = [] then none else matchFrom d.outputText before.length d.stop with
      | none => (none, d)
      | some (s, i) => (some s, { d with
          outputText := d.outputText.take (keptLength d.includeStopStrInOutput s i) }) := by
  have hlen : d.outputText.length - before.length = new.length := by
    rw [htext, length_append]
    omega
  have hoff : d.outputText.length - new.length = before.length := by
    rw [htext, length_append]
    omega
  have hle : new.length ≤ d.outputText.length := by
    rw [htext, length_append]
    omega
  unfold evaluateStop checkStopStrings
  rw [hlen]
  by_cases hnew : new = []
  · rw [if_pos (.inl (by rw [hnew]; rfl)), if_pos hnew]
  · have hpos := length_pos_iff.mpr hnew
    rw [if_neg hnew]
    by_cases hnone : d.stop = []
    · rw [if_pos (.inr hnone), hnone]
      rfl
    · rw [if_neg (not_or.mpr ⟨ne_of_gt hpos, hnone⟩), firstStop_eq hpos hle _ hstop, hoff]
      cases matchFrom d.outputText before.length d.stop with
      | none => rfl
      | some found =>
        have htake := take_truncateTo d.includeStopStrInOutput d.outputText found.1 found.2
        dsimp only [Option.map_some]
        rw [← htake]
        split_ifs <;> rfl

/-- What an update does. Without a match the text grows, and an update that does not report a stop
token decodes all its tokens. At a match the text is cut, behind what was there before. -/
structure Updated (decodeNext : σ → ℕ → σ × Text) (d : Detokenizer σ) (ids : List ℕ)
    (stopTerminated : Bool) (stopString : Option Text) (d' : Detokenizer σ) : Prop where
  stop_eq : d'.stop = d.stop
  include_eq : d'.includeStopStrInOutput = d.includeStopStrInOutput
  buffer_eq : d'.stopBufferLength = d.stopBufferLength
  offset_eq : d'.lastOutputTextOffset = d.lastOutputTextOffset
  grows : stopString = none → d.outputText <+: d'.outputText
  continued : stopString = none → stopTerminated = false →
    d'.outputText = d.outputText ++ decodeText decodeNext d.decoder ids ∧
      d'.decoder = decodeState decodeNext d.decoder ids
  cut : ∀ s, stopString = some s → ∃ i, s ∈ d.stop ∧
    s <+: (d.outputText ++ decodeText decodeNext d.decoder ids).drop i ∧
    d.outputText.length < i + s.length ∧
    d'.outputText = (d.outputText ++ decodeText decodeNext d.decoder ids).take
      (keptLength d.includeStopStrInOutput s i)

theorem update_eq (hstop : ∀ s ∈ d.stop, s ≠ []) (ids : List ℕ) : d.update decodeNext ids false =
      match if decodeText decodeNext d.decoder ids = [] then none else
        matchFrom (d.outputText ++ decodeText decodeNext d.decoder ids) d.outputText.length
          d.stop with
      | none => (none, ids.foldl (decodeOne decodeNext) d)
      | some (s, i) => (some s, { ids.foldl (decodeOne decodeNext) d with
          outputText := (d.outputText ++ decodeText decodeNext d.decoder ids).take
            (keptLength d.includeStopStrInOutput s i) }) := by
  unfold update
  by_cases hids : ids = []
  · rw [if_pos hids, hids]
    rfl
  · have hfold := foldl_decodeOne decodeNext d ids
    have hd : ∀ s ∈ (ids.foldl (decodeOne decodeNext) d).stop, s ≠ [] := by
      rw [hfold]
      exact hstop
    rw [if_neg hids, if_neg Bool.false_ne_true, evaluateStop_eq hd d.outputText
      (decodeText decodeNext d.decoder ids) (by rw [hfold]), hfold]

theorem update_spec (decodeNext : σ → ℕ → σ × Text)
    (hstop : ∀ s ∈ d.stop, s ≠ []) (ids : List ℕ) (stopTerminated : Bool) :
    Updated decodeNext d ids stopTerminated (d.update decodeNext ids stopTerminated).1
      (d.update decodeNext ids stopTerminated).2 := by
  cases stopTerminated with
  | true =>
    have hgrows : (d.update decodeNext ids true).1 = none ∧
        ∃ more tokenIds decoder, (d.update decodeNext ids true).2 =
          { d with outputText := d.outputText ++ more, tokenIds, decoder } := by
      unfold update
      rw [if_pos rfl]
      split_ifs
      · exact ⟨rfl, [], d.tokenIds, d.decoder, by rw [append_nil]⟩
      · rw [foldl_decodeOne]
        exact ⟨rfl, _, _, _, rfl⟩
      · dsimp only
        rw [foldl_decodeOne]
        exact ⟨rfl, _, _, _, rfl⟩
    obtain ⟨hnone, more, tokenIds, decoder, hd⟩ := hgrows
    rw [hnone, hd]
    exact ⟨rfl, rfl, rfl, rfl, fun _ => prefix_append _ _, nofun, nofun⟩
  | false =>
    rw [update_eq hstop]
    cases hmatch : if decodeText decodeNext d.decoder ids = [] then none else
        matchFrom (d.outputText ++ decodeText decodeNext d.decoder ids) d.outputText.length
          d.stop with
    | none =>
      rw [foldl_decodeOne]
      exact ⟨rfl, rfl, rfl, rfl, fun _ => prefix_append _ _, fun _ _ => ⟨rfl, rfl⟩, nofun⟩
    | some found =>
      obtain ⟨s, i⟩ := found
      dsimp only
      rw [foldl_decodeOne]
      refine ⟨rfl, rfl, rfl, rfl, nofun, nofun, ?_⟩
      rintro _ ⟨⟩
      have hfound : matchFrom (d.outputText ++ decodeText decodeNext d.decoder ids)
          d.outputText.length d.stop = some (s, i) := by
        split_ifs at hmatch
        exact hmatch
      obtain ⟨hmem, hfind⟩ := matchFrom_eq_some hfound
      obtain ⟨hle, -, hprefix, -⟩ := find_eq_some.mp hfind
      exact ⟨i, hmem, hprefix, by omega, rfl⟩

end Updates

/-! ### Streams -/

section Streams

variable {decodeNext : σ → ℕ → σ × Text}

/-- No stop string is empty, and when they are left out, the buffer has room for all but the last
character of each. -/
structure Ready (d : Detokenizer σ) : Prop where
  nonempty : ∀ s ∈ d.stop, s ≠ []
  buffer : d.includeStopStrInOutput = false → ∀ s ∈ d.stop, s.length ≤ d.stopBufferLength + 1

/-- What is not held back. -/
def sent (d : Detokenizer σ) : Text :=
  d.outputText.take (d.outputText.length - d.stopBufferLength)

theorem ready_new {stop : List Text} (hstop : ∀ s ∈ stop, s ≠ []) (includeStopStrInOutput : Bool)
    (decoder : σ) : (new stop includeStopStrInOutput decoder).Ready where
  nonempty := hstop
  buffer hinclude s hs := by
    have hne : stop ≠ [] := ne_nil_of_mem hs
    have hle : s.length ≤ (stop.map List.length).foldr max 0 :=
      le_max_of_le' 0 (mem_map_of_mem hs) le_rfl
    have hbuffer : (new stop includeStopStrInOutput decoder).stopBufferLength =
        (stop.map List.length).foldr max 0 - 1 := if_pos ⟨hne, hinclude⟩
    omega

variable {d d' : Detokenizer σ} {ids : List ℕ} {stopTerminated : Bool} {stopString : Option Text}

section

variable (h : Updated decodeNext d ids stopTerminated stopString d') (hd : d.Ready)
include h hd

theorem Updated.ready : d'.Ready where
  nonempty := h.stop_eq ▸ hd.nonempty
  buffer := by
    rw [h.stop_eq, h.include_eq, h.buffer_eq]
    exact hd.buffer

/-- Text that was not held back is never cut. -/
theorem Updated.sent_prefix : d.sent <+: d'.outputText := by
  cases hstop : stopString with
  | none => exact ( take_prefix _ _).trans (h.grows hstop)
  | some s =>
    obtain ⟨i, hmem, -, hbehind, htext⟩ := h.cut s hstop
    have hkept : d.outputText.length - d.stopBufferLength ≤
        keptLength d.includeStopStrInOutput s i := by
      unfold keptLength
      split_ifs with hinclude
      · omega
      · have := hd.buffer (eq_false_of_ne_true hinclude) s hmem
        omega
    rw [htext, sent, ← take_append_of_le_length (Nat.sub_le _ _)]
    exact take_prefix_take_left hkept

end

/-- Without a match, what was sent is the beginning of what can be sent now. -/
theorem Updated.sent_prefix_sent (h : Updated decodeNext d ids stopTerminated none d') :
    d.sent <+: d'.sent := by
  have hgrows := h.grows rfl
  have hle := hgrows.length_le
  obtain ⟨more, hmore⟩ := hgrows
  have htake : d.sent = (d.outputText ++ more).take (d.outputText.length - d.stopBufferLength) :=
    (take_append_of_le_length (Nat.sub_le _ _)).symm
  rw [htake, sent, h.buffer_eq, ← hmore]
  apply take_prefix_take_left
  rw [length_append]
  omega

/-- Sending a text changes nothing but the offset. -/
theorem getNextOutputText_snd (d : Detokenizer σ) (finished delta : Bool) :
    ∃ offset, (d.getNextOutputText finished delta).2 =
      { d with lastOutputTextOffset := offset } := by
  unfold getNextOutputText
  dsimp only
  generalize (if finished = true then 0 else d.stopBufferLength) = held
  split_ifs
  · exact ⟨d.lastOutputTextOffset, rfl⟩
  · exact ⟨_, rfl⟩
  · exact ⟨d.lastOutputTextOffset, rfl⟩

/-! The two kinds of texts, when the request is not finished and when it is. -/

theorem getNextOutputText_full (d : Detokenizer σ) (finished : Bool) :
    d.getNextOutputText finished false =
      (if finished then d.outputText else d.sent, d) := by
  unfold getNextOutputText sent
  cases finished with
  | true => rw [if_pos rfl, if_pos rfl, if_pos rfl, Nat.sub_zero, take_length]
  | false => rfl

/-- A delta continues what was sent before, up to what is not held back. -/
theorem getNextOutputText_delta (d : Detokenizer σ) (finished : Bool)
    (hoff : d.lastOutputTextOffset ≤ d.outputText.length -
      if finished then 0 else d.stopBufferLength) :
    (d.getNextOutputText finished true).2 =
        { d with lastOutputTextOffset :=
            d.outputText.length - if finished then 0 else d.stopBufferLength } ∧
      d.outputText.take d.lastOutputTextOffset ++ (d.getNextOutputText finished true).1 =
        d.outputText.take (d.outputText.length - if finished then 0 else d.stopBufferLength) := by
  unfold getNextOutputText
  rw [if_neg (by decide)]
  dsimp only
  generalize (if finished = true then 0 else d.stopBufferLength) = held at hoff ⊢
  split_ifs with hlt
  · have hlen : ((d.outputText.length : ℤ) - held).toNat = d.outputText.length - held := by omega
    rw [hlen]
    refine ⟨rfl, ?_⟩
    conv_rhs => rw [← take_append_drop d.lastOutputTextOffset
      (d.outputText.take (d.outputText.length - held)), take_take, min_eq_left hoff]
  · have heq : d.lastOutputTextOffset = d.outputText.length - held := by omega
    rw [← heq, append_nil]
    exact ⟨rfl, rfl⟩

variable {updates : List (List ℕ × Bool)}

/-- Whether the request is finished after an update. -/
def finishes (decodeNext : σ → ℕ → σ × Text) (d : Detokenizer σ) (ids : List ℕ)
    (stopTerminated : Bool) (updates : List (List ℕ × Bool)) : Bool :=
  updates.isEmpty || (d.update decodeNext ids stopTerminated).1.isSome || stopTerminated

theorem stream_finished (delta : Bool)
    (h : finishes decodeNext d ids stopTerminated updates = true) :
    d.stream decodeNext delta ((ids, stopTerminated) :: updates) =
      ([((d.update decodeNext ids stopTerminated).2.getNextOutputText true delta).1],
        (d.update decodeNext ids stopTerminated).1,
        ((d.update decodeNext ids stopTerminated).2.getNextOutputText true delta).2) := by
  unfold finishes at h
  rw [stream]
  dsimp only
  rw [h]
  rfl

theorem stream_continued (delta : Bool)
    (h : finishes decodeNext d ids stopTerminated updates = false) :
    d.stream decodeNext delta ((ids, stopTerminated) :: updates) =
      (((d.update decodeNext ids stopTerminated).2.getNextOutputText false delta).1 ::
        (((d.update decodeNext ids stopTerminated).2.getNextOutputText false delta).2.stream
          decodeNext delta updates).1,
        (((d.update decodeNext ids stopTerminated).2.getNextOutputText false delta).2.stream
          decodeNext delta updates).2) := by
  unfold finishes at h
  rw [stream]
  dsimp only
  rw [h]
  rfl

/-- A request that is not finished goes on, and had no match. -/
theorem of_not_finishes (h : finishes decodeNext d ids stopTerminated updates = false) :
    updates ≠ [] ∧ (d.update decodeNext ids stopTerminated).1 = none ∧ stopTerminated = false := by
  unfold finishes at h
  rw [Bool.or_eq_false_iff, Bool.or_eq_false_iff] at h
  obtain ⟨⟨hempty, hnone⟩, hterminated⟩ := h
  refine ⟨?_, Option.isSome_eq_false_iff.mp hnone |> Option.isNone_iff_eq_none.mp, hterminated⟩
  rintro rfl
  cases hempty

/-- What the deltas add up to. -/
theorem stream_delta (hd : d.Ready) (hoffset : d.lastOutputTextOffset ≤
    d.outputText.length - d.stopBufferLength) (hne : updates ≠ []) :
    d.outputText.take d.lastOutputTextOffset ++ (d.stream decodeNext true updates).1.flatten =
      (d.stream decodeNext true updates).2.2.outputText := by
  induction updates generalizing d with
  | nil => exact absurd rfl hne
  | cons u updates ih =>
    obtain ⟨ids, stopTerminated⟩ := u
    have hupdate := update_spec decodeNext hd.nonempty ids stopTerminated
    have hd' := hupdate.ready hd
    obtain ⟨rest, hrest⟩ := hupdate.sent_prefix hd
    -- what was sent before stands at the beginning of the new text
    have hlength : d.sent.length = d.outputText.length - d.stopBufferLength :=
      length_take_of_le (Nat.sub_le _ _)
    have hbefore : d.outputText.take d.lastOutputTextOffset =
        (d.update decodeNext ids stopTerminated).2.outputText.take d.lastOutputTextOffset := by
      rw [← hrest, take_append_of_le_length (hlength ▸ hoffset), sent, take_take,
        Nat.min_eq_left hoffset]
    have hlen := congrArg List.length hrest
    rw [length_append, hlength] at hlen
    rw [hbefore, ← hupdate.offset_eq]
    rw [← hupdate.offset_eq] at hoffset
    cases hfinishes : finishes decodeNext d ids stopTerminated updates with
    | true =>
      obtain ⟨hnext, htext⟩ := getNextOutputText_delta
        (d.update decodeNext ids stopTerminated).2 true (by rw [if_pos rfl]; omega)
      rw [stream_finished true hfinishes, flatten_singleton, htext, hnext, if_pos rfl,
        Nat.sub_zero, take_length]
    | false =>
      obtain ⟨hupdates, hnone, -⟩ := of_not_finishes hfinishes
      have hgrows := (hupdate.grows hnone).length_le
      obtain ⟨hnext, htext⟩ := getNextOutputText_delta
        (d.update decodeNext ids stopTerminated).2 false (by
          rw [if_neg Bool.false_ne_true, hupdate.buffer_eq]
          omega)
      rw [stream_continued true hfinishes, flatten_cons, ← append_assoc, htext, hnext]
      exact ih (d := { (d.update decodeNext ids stopTerminated).2 with
        lastOutputTextOffset := _ }) ⟨hd'.nonempty, hd'.buffer⟩ (le_rfl) hupdates

/-- The full texts are beginnings of the text in the end. -/
theorem stream_full (hd : d.Ready) (hne : updates ≠ []) :
    d.sent <+: (d.stream decodeNext false updates).2.2.outputText ∧
      ∀ text ∈ (d.stream decodeNext false updates).1,
        text <+: (d.stream decodeNext false updates).2.2.outputText := by
  induction updates generalizing d with
  | nil => exact absurd rfl hne
  | cons u updates ih =>
    obtain ⟨ids, stopTerminated⟩ := u
    have hupd := update_spec decodeNext hd.nonempty ids stopTerminated
    cases hfinishes : finishes decodeNext d ids stopTerminated updates with
    | true =>
      rw [stream_finished false hfinishes, getNextOutputText_full, if_pos rfl]
      refine ⟨hupd.sent_prefix hd, fun text htext => ?_⟩
      rw [mem_singleton.mp htext]
    | false =>
      obtain ⟨hupds, hnone, -⟩ := of_not_finishes hfinishes
      rw [stream_continued false hfinishes, getNextOutputText_full, if_neg Bool.false_ne_true]
      rw [hnone] at hupd
      obtain ⟨hsent, hall⟩ := ih (hupd.ready hd) hupds
      refine ⟨hupd.sent_prefix_sent.trans hsent, fun text htext => ?_⟩
      rcases mem_cons.mp htext with rfl | hlater
      · exact hsent
      · exact hall text hlater

/-- Where the text was cut, when a stop string is reported. -/
theorem stream_cut (delta : Bool) (hd : d.Ready) {s : Text}
    (hreported : (d.stream decodeNext delta updates).2.1 = some s) :
    ∃ n i, s ∈ d.stop ∧
      s <+: (d.outputText ++ decodeText decodeNext d.decoder
        ((updates.take n).flatMap Prod.fst)).drop i ∧
      (d.stream decodeNext delta updates).2.2.outputText =
        (d.outputText ++ decodeText decodeNext d.decoder ((updates.take n).flatMap Prod.fst)).take
          (keptLength d.includeStopStrInOutput s i) := by
  induction updates generalizing d with
  | nil => cases hreported
  | cons u updates ih =>
    obtain ⟨ids, stopTerminated⟩ := u
    have hupd := update_spec decodeNext hd.nonempty ids stopTerminated
    cases hfinishes : finishes decodeNext d ids stopTerminated updates with
    | true =>
      rw [stream_finished delta hfinishes] at hreported ⊢
      obtain ⟨offset, hnext⟩ := getNextOutputText_snd
        (d.update decodeNext ids stopTerminated).2 true delta
      obtain ⟨i, hmem, hprefix, -, htext⟩ := hupd.cut s hreported
      refine ⟨1, i, hmem, ?_, ?_⟩
      · rw [take_succ_cons, take_zero, flatMap_singleton]
        exact hprefix
      · rw [take_succ_cons, take_zero, flatMap_singleton, hnext]
        exact htext
    | false =>
      obtain ⟨-, hnone, hterminated⟩ := of_not_finishes hfinishes
      obtain ⟨offset, hnext⟩ := getNextOutputText_snd
        (d.update decodeNext ids stopTerminated).2 false delta
      have hd' := hupd.ready hd
      rw [stream_continued delta hfinishes, hnext] at hreported ⊢
      obtain ⟨n, i, hmem, hprefix, htext⟩ :=
        ih (d := { (d.update decodeNext ids stopTerminated).2 with
          lastOutputTextOffset := offset }) ⟨hd'.nonempty, hd'.buffer⟩ hreported
      obtain ⟨hcontinued, hdecoder⟩ := hupd.continued hnone hterminated
      -- the tokens of this update come before those of the later ones
      have hall : d.outputText ++ decodeText decodeNext d.decoder
          ((((ids, stopTerminated) :: updates).take (n + 1)).flatMap Prod.fst) =
          (d.update decodeNext ids stopTerminated).2.outputText ++ decodeText decodeNext
            (d.update decodeNext ids stopTerminated).2.decoder
              ((updates.take n).flatMap Prod.fst) := by
        rw [take_succ_cons, flatMap_cons, decodeText_append, hcontinued, hdecoder, append_assoc]
      rw [hupd.stop_eq] at hmem
      rw [hupd.include_eq] at htext
      exact ⟨n + 1, i, hmem, hall ▸ hprefix, hall ▸ htext⟩

/-- An update does not depend on what was sent. -/
theorem update_offset (decodeNext : σ → ℕ → σ × Text) (ids : List ℕ) (stopTerminated : Bool)
    (d : Detokenizer σ) (offset : ℕ) :
    ({ d with lastOutputTextOffset := offset } : Detokenizer σ).update decodeNext ids
        stopTerminated =
      ((d.update decodeNext ids stopTerminated).1,
        { (d.update decodeNext ids stopTerminated).2 with lastOutputTextOffset := offset }) := by
  unfold update
  simp only [foldl_decodeOne]
  split_ifs
  · rfl
  · rfl
  · rfl
  · unfold evaluateStop
    dsimp only
    split
    · rfl
    · split_ifs <;> rfl

/-- The text in the end and the report are the same for both kinds of texts. -/
theorem stream_agree (delta delta' : Bool) (d : Detokenizer σ) (offset : ℕ) :
    (({ d with lastOutputTextOffset := offset } : Detokenizer σ).stream decodeNext delta
        updates).2.1 = (d.stream decodeNext delta' updates).2.1 ∧
      (({ d with lastOutputTextOffset := offset } : Detokenizer σ).stream decodeNext delta
        updates).2.2.outputText = (d.stream decodeNext delta' updates).2.2.outputText := by
  -- The offset is all that the two may differ in, and the text does not depend on it.
  induction updates generalizing d offset with
  | nil => exact ⟨rfl, rfl⟩
  | cons u updates ih =>
    obtain ⟨ids, stopTerminated⟩ := u
    have hoff := update_offset decodeNext ids stopTerminated d offset
    have hsame : finishes decodeNext { d with lastOutputTextOffset := offset } ids stopTerminated
        updates = finishes decodeNext d ids stopTerminated updates := by
      unfold finishes
      rw [hoff]
    cases hfinishes : finishes decodeNext d ids stopTerminated updates with
    | true =>
      rw [stream_finished delta (hsame.trans hfinishes), stream_finished delta' hfinishes, hoff]
      obtain ⟨o₁, h₁⟩ := getNextOutputText_snd { (d.update decodeNext ids stopTerminated).2 with
        lastOutputTextOffset := offset } true delta
      obtain ⟨o₂, h₂⟩ := getNextOutputText_snd (d.update decodeNext ids stopTerminated).2 true
        delta'
      rw [h₁, h₂]
      exact ⟨rfl, rfl⟩
    | false =>
      rw [stream_continued delta (hsame.trans hfinishes), stream_continued delta' hfinishes, hoff]
      obtain ⟨o₁, h₁⟩ := getNextOutputText_snd { (d.update decodeNext ids stopTerminated).2 with
        lastOutputTextOffset := offset } false delta
      obtain ⟨o₂, h₂⟩ := getNextOutputText_snd (d.update decodeNext ids stopTerminated).2 false
        delta'
      dsimp only
      rw [h₁, h₂]
      exact ih { (d.update decodeNext ids stopTerminated).2 with lastOutputTextOffset := o₂ } o₁

end Streams

/-- For every sequence of updates: the deltas add up to the text in the end, and every full text is
a beginning of it. When a stop string is reported, it occurs in the text of the tokens where the
output was cut: at its start, or at its end when stop strings are part of the output. -/
theorem stream_spec (decodeNext : σ → ℕ → σ × Text) (decoder : σ) (includeStopStrInOutput : Bool)
    (updates : List (List ℕ × Bool)) {stop : List Text} (hstop : ∀ s ∈ stop, s ≠ []) :
    let d := new stop includeStopStrInOutput decoder
    let deltas := d.stream decodeNext true updates
    let full := d.stream decodeNext false updates
    deltas.1.flatten = deltas.2.2.outputText ∧
      (∀ text ∈ full.1, text <+: full.2.2.outputText) ∧
      full.2.1 = deltas.2.1 ∧ full.2.2.outputText = deltas.2.2.outputText ∧
      ∀ s, deltas.2.1 = some s → ∃ n i, s ∈ stop ∧
        s <+: (decodeText decodeNext decoder ((updates.take n).flatMap Prod.fst)).drop i ∧
        deltas.2.2.outputText =
          (decodeText decodeNext decoder ((updates.take n).flatMap Prod.fst)).take
            (if includeStopStrInOutput then i + s.length else i) := by
  intro d deltas full
  have hd : d.Ready := ready_new hstop includeStopStrInOutput decoder
  have hagree : full.2.1 = deltas.2.1 ∧ full.2.2.outputText = deltas.2.2.outputText :=
    stream_agree false true d 0
  refine ⟨?_, ?_, hagree.1, hagree.2, fun s hs => stream_cut true hd hs⟩
  · cases updates with
    | nil => rfl
    | cons u updates =>
      exact (nil_append _).symm.trans
        (stream_delta hd (Nat.zero_le _) (cons_ne_nil u updates))
  · cases updates with
    | nil => exact nofun
    | cons u updates => exact (stream_full hd (cons_ne_nil u updates)).2

/-- A stop string that arrives in two updates. -/
theorem stream_spec_two :
    ((new [['a', 'b']] false ()).stream (fun _ id => ((), [Char.ofNat id])) true
        [([99, 97], false), ([98], false)]).1.flatten =
      ((new [['a', 'b']] false ()).stream (fun _ id => ((), [Char.ofNat id])) true
        [([99, 97], false), ([98], false)]).2.2.outputText :=
  (stream_spec (fun _ id => ((), [Char.ofNat id])) () false [([99, 97], false), ([98], false)]
    (by decide)).1

end Detokenizer

end Frontend
