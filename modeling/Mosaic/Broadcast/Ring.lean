import Mosaic.Broadcast.MessageQueue
import Mathlib.Data.List.Basic
import Mathlib.Tactic.Common

/-!
# The chunks of the ring

The messages are numbered. Message `m` is in chunk `m % maxChunks` from the time that it is
published until the writer opens the chunk again. What the flags of the chunks say is stated by the
number of messages that were published and, for each reader, the number of messages that it has
finished.
-/

namespace Broadcast

open Function

/-! ### Positions in a ring -/

/-- Two messages in the same chunk are a round apart. -/
theorem mod_ne_of_lt {m k n : ℕ} (hlt : m < k) (hround : k < m + n) : m % n ≠ k % n := by
  intro heq
  have hdvd : n ∣ k - m := Nat.dvd_of_mod_eq_zero (Nat.sub_mod_eq_zero_of_mod_eq heq.symm)
  have hle := Nat.le_of_dvd (by omega) hdvd
  omega

theorem eq_of_mod_eq {m k w n : ℕ} (hm : m < w) (hm' : w ≤ m + n) (hk : k < w) (hk' : w ≤ k + n)
    (heq : m % n = k % n) : m = k := by
  rcases Nat.lt_trichotomy m k with hlt | heq' | hgt
  · exact absurd heq (mod_ne_of_lt hlt (by omega))
  · exact heq'
  · exact absurd heq.symm (mod_ne_of_lt hgt (by omega))

/-! ### What the chunks hold -/

variable {α : Type} {cfg : RingConfig} {pickle : Pickle α}

/-- The data of a chunk announce an object that is too large, or contain the object. -/
def Encodes (cfg : RingConfig) (pickle : Pickle α) (data : List UInt8) (obj : α) : Prop :=
  if Overflows cfg pickle obj then data.head? = some 1
  else ∃ rest, data = 0 :: (pickle.dumps obj ++ rest)

/-- The chunks, when `published` messages were published and reader `i` has finished `finished i`
of them. If the writer is `busy`, then it has opened the chunk of the next message. -/
structure RingOk (cfg : RingConfig) (pickle : Pickle α) (chunks : ℕ → Chunk) (enqueued : List α)
    (published : ℕ) (finished : ℕ → ℕ) (busy : Bool) : Prop where
  length : ∀ c, (chunks c).data.length = cfg.maxChunkBytes
  live : ∀ m < published,
    published < m + cfg.maxChunks ∨ published = m + cfg.maxChunks ∧ busy = false →
      (chunks (m % cfg.maxChunks)).written = true ∧
      (∀ i < cfg.nReader, (chunks (m % cfg.maxChunks)).readFlag i = decide (m < finished i)) ∧
      ∃ obj, enqueued[m]? = some obj ∧ Encodes cfg pickle (chunks (m % cfg.maxChunks)).data obj
  fresh : ∀ c, published ≤ c → c < cfg.maxChunks →
    (chunks c).written = false ∧ ∀ i < cfg.nReader, (chunks c).readFlag i = false
  closed : busy = true → (chunks (published % cfg.maxChunks)).written = false

namespace RingOk

variable {chunks : ℕ → Chunk} {enqueued : List α} {published : ℕ} {finished : ℕ → ℕ} {busy : Bool}
  {chunk : Chunk}

/-- One more object is given to `enqueue`. -/
theorem enqueue (h : RingOk cfg pickle chunks enqueued published finished busy) (obj : α)
    (hle : published ≤ enqueued.length) :
    RingOk cfg pickle chunks (enqueued ++ [obj]) published finished busy where
  length := h.length
  live m hm hround := by
    obtain ⟨hwritten, hread, obj', hobj, hencodes⟩ := h.live m hm hround
    refine ⟨hwritten, hread, obj', ?_, hencodes⟩
    rw [List.getElem?_append_left (by omega)]
    exact hobj
  fresh := h.fresh
  closed := h.closed

/-- A chunk that is changed by the writer between opening and publishing it. -/
theorem modify (h : RingOk cfg pickle chunks enqueued published finished busy)
    (hwritten : chunk.written = false) (hlen : chunk.data.length = cfg.maxChunkBytes)
    (hread : published < cfg.maxChunks → ∀ i < cfg.nReader, chunk.readFlag i = false) :
    RingOk cfg pickle (update chunks (published % cfg.maxChunks) chunk) enqueued published
      finished true where
  length c := by
    rw [update_apply]
    split
    · exact hlen
    · exact h.length c
  live m hm hround := by
    obtain hround | ⟨-, hbusy⟩ := hround
    · rw [update_of_ne (mod_ne_of_lt hm hround)]
      exact h.live m hm (.inl hround)
    · cases hbusy
  fresh c hle hlt := by
    rw [update_apply]
    split
    · exact ⟨hwritten, hread (by omega)⟩
    · exact h.fresh c hle hlt
  closed _ := by
    rw [update_self]
    exact hwritten

/-- The writer sets the written flag: one more message is published, and nobody has read it. -/
theorem publish {obj : α} (chunk : Chunk)
    (h : RingOk cfg pickle chunks enqueued published finished true)
    (hobj : enqueued[published]? = some obj) (hwritten : chunk.written = true)
    (hdata : chunk.data.length = cfg.maxChunkBytes) (hencodes : Encodes cfg pickle chunk.data obj)
    (hread : ∀ i < cfg.nReader, chunk.readFlag i = false)
    (hfin : ∀ i < cfg.nReader, finished i ≤ published) :
    RingOk cfg pickle (update chunks (published % cfg.maxChunks) chunk) enqueued
      (published + 1) finished false where
  length c := by
    rw [update_apply]
    split
    · exact hdata
    · exact h.length c
  live m hm hround := by
    rcases Nat.lt_succ_iff_lt_or_eq.mp hm with hlt | rfl
    · have hround' : published < m + cfg.maxChunks := by omega
      rw [update_of_ne (mod_ne_of_lt hlt hround')]
      exact h.live m hlt (.inl hround')
    · rw [update_self]
      refine ⟨hwritten, fun i hi => ?_, obj, hobj, hencodes⟩
      have hle := hfin i hi
      rw [hread i hi, eq_comm, decide_eq_false_iff_not]
      omega
  fresh c hle hlt := by
    have hne : c ≠ published % cfg.maxChunks := by
      rw [Nat.mod_eq_of_lt (by omega)]
      omega
    rw [update_of_ne hne]
    exact h.fresh c (by omega) hlt
  closed := nofun

/-- A reader sets its flag: it has finished one more message. -/
theorem mark {i : ℕ} (h : RingOk cfg pickle chunks enqueued published finished busy)
    (hlt : finished i < published)
    (hround : published < finished i + cfg.maxChunks ∨
      published = finished i + cfg.maxChunks ∧ busy = false)
    (hchunk : chunk = { chunks (finished i % cfg.maxChunks) with
      readFlag := update (chunks (finished i % cfg.maxChunks)).readFlag i true }) :
    RingOk cfg pickle (update chunks (finished i % cfg.maxChunks) chunk) enqueued
      published (update finished i (finished i + 1)) busy where
  length c := by
    rw [update_apply]
    split
    · rw [hchunk]
      exact h.length _
    · exact h.length c
  live m hm hm' := by
    obtain ⟨hwritten, hread, hobj⟩ := h.live m hm hm'
    by_cases hsame : m = finished i
    · subst hsame
      rw [update_self, hchunk]
      refine ⟨hwritten, fun j hj => ?_, hobj⟩
      by_cases hj' : j = i
      · subst hj'
        dsimp only
        rw [update_self, update_self, decide_eq_true (Nat.lt_succ_self _)]
      · dsimp only
        rw [update_of_ne hj', update_of_ne hj']
        exact hread j hj
    · -- the message is in another chunk
      have hne : m % cfg.maxChunks ≠ finished i % cfg.maxChunks := fun heq =>
        hsame (eq_of_mod_eq hm (by omega) hlt (by omega) heq)
      rw [update_of_ne hne]
      refine ⟨hwritten, fun j hj => ?_, hobj⟩
      rw [hread j hj]
      by_cases hj' : j = i
      · subst hj'
        rw [update_self]
        exact decide_eq_decide.mpr (by omega)
      · rw [update_of_ne hj']
  fresh c hle hlt' := by
    have hne : c ≠ finished i % cfg.maxChunks := by
      have hmod := Nat.mod_le (finished i) cfg.maxChunks
      omega
    rw [update_of_ne hne]
    exact h.fresh c hle hlt'
  closed hbusy := by
    have hround' : published < finished i + cfg.maxChunks := by
      obtain h | ⟨-, h⟩ := hround
      · exact h
      · rw [hbusy] at h
        cases h
    rw [update_of_ne (mod_ne_of_lt hlt hround').symm]
    exact h.closed hbusy

/-- The numbers of the readers in the ring are all that counts. -/
theorem congr {finished' : ℕ → ℕ} (h : RingOk cfg pickle chunks enqueued published finished busy)
    (heq : ∀ i < cfg.nReader, finished' i = finished i) :
    RingOk cfg pickle chunks enqueued published finished' busy where
  length := h.length
  live m hm hround := by
    obtain ⟨hwritten, hread, hobj⟩ := h.live m hm hround
    refine ⟨hwritten, fun i hi => ?_, hobj⟩
    rw [hread i hi, heq i hi]
  fresh := h.fresh
  closed := h.closed

end RingOk

end Broadcast
