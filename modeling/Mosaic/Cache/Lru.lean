import Mathlib.Data.List.Basic

/-!
# Caches in the order of use

A cache keeps its entries in the order of their last use, the least recently used one first. A
look-up makes an entry the most recently used one; a value that is stored takes the last place,
after some of the least recently used entries made room for it. How many they are is decided by
sizes alone, so two caches whose values have the same sizes evict the same keys.
-/

namespace Lru

open List

/-- What a cache decides by sizes. The sizes of the entries are given in the order of their
use. -/
structure Policy where
  /-- May a value of this size be stored at all? -/
  fits : ℕ → Bool
  /-- How many entries make room for a value, given the size of the entry that it replaces. -/
  evictions : Option ℕ → ℕ → List ℕ → ℕ

/-- A cache of values of type `V` under keys of type `K`, the least recently used one first. -/
structure Cache (K V : Type) where
  entries : List (K × V)
  deriving DecidableEq

variable {K V W : Type}

namespace Cache

def empty : Cache K V := ⟨[]⟩

/-- Change the values. -/
def mapValues (f : V → W) (c : Cache K V) : Cache K W := ⟨c.entries.map fun e => (e.1, f e.2)⟩

/-- Every entry has the value that its key stands for. -/
def Holds (content : K → V) (c : Cache K V) : Prop := ∀ e ∈ c.entries, e.2 = content e.1

theorem holds_empty (content : K → V) : (empty : Cache K V).Holds content := nofun

variable [DecidableEq K]

def find (c : Cache K V) (k : K) : Option V := (c.entries.find? fun e => e.1 = k).map Prod.snd

/-- Put an entry last, in place of one that there was. -/
def putLast (c : Cache K V) (k : K) (v : V) : Cache K V :=
  ⟨(c.entries.filter fun e => e.1 ≠ k) ++ [(k, v)]⟩

/-- Look a key up. Its entry becomes the most recently used one. -/
def get (c : Cache K V) (k : K) : Option (V × Cache K V) :=
  (c.find k).map fun v => (v, c.putLast k v)

/-- Store a value, unless it is too large. -/
def set (p : Policy) (size : V → ℕ) (c : Cache K V) (k : K) (v : V) : Option (Cache K V) :=
  if p.fits (size v) then
    let n := p.evictions ((c.find k).map size) (size v) (c.entries.map fun e => size e.2)
    some ((Cache.mk (c.entries.drop n)).putLast k v)
  else none

/-! ### Maps of the values -/

variable {f : V → W} {c : Cache K V} {k : K} {v : V} {content : K → V}

theorem find_mapValues (f : V → W) (c : Cache K V) (k : K) :
    (c.mapValues f).find k = (c.find k).map f := by
  unfold find mapValues
  induction c.entries with
  | nil => rfl
  | cons e rest ih =>
    by_cases h : e.1 = k
    · simp [h]
    · simpa [h] using ih

theorem putLast_mapValues (f : V → W) (c : Cache K V) (k : K) (v : V) :
    (c.mapValues f).putLast k (f v) = (c.putLast k v).mapValues f := by
  simp only [putLast, mapValues, filter_map, map_append, map_cons, map_nil]
  rfl

theorem get_mapValues (f : V → W) (c : Cache K V) (k : K) :
    (c.mapValues f).get k = (c.get k).map fun r => (f r.1, r.2.mapValues f) := by
  unfold get
  rw [find_mapValues]
  cases c.find k with
  | none => rfl
  | some v =>
    simp only [Option.map_some, putLast_mapValues]

theorem set_mapValues {p : Policy} {size : V → ℕ} {size' : W → ℕ}
    (hsize : ∀ v, size' (f v) = size v) (c : Cache K V) (k : K) (v : V) :
    (c.mapValues f).set p size' k (f v) = (c.set p size k v).map (mapValues f) := by
  have hfind : ((c.mapValues f).find k).map size' = (c.find k).map size := by
    rw [find_mapValues, Option.map_map]
    congr 1
    exact funext hsize
  have hentries : (c.mapValues f).entries.map (fun e => size' e.2) =
      c.entries.map fun e => size e.2 := by
    unfold mapValues
    rw [map_map]
    exact map_congr_left fun e _ => hsize e.2
  unfold set
  rw [hsize, hfind, hentries]
  split
  · dsimp only
    rw [Option.map_some, ← putLast_mapValues]
    simp only [mapValues, map_drop]
  · rfl

/-! ### Invariants -/

theorem mem_of_find_eq_some (h : c.find k = some v) : (k, v) ∈ c.entries := by
  obtain ⟨e, he, rfl⟩ := Option.map_eq_some_iff.mp h
  have hk : e.1 = k := by simpa using find?_some he
  rw [← hk]
  exact mem_of_find?_eq_some he

theorem Holds.find (h : c.Holds content) (hfind : c.find k = some v) : v = content k :=
  h _ (mem_of_find_eq_some hfind)

theorem Holds.putLast (h : c.Holds content) (k : K) : (c.putLast k (content k)).Holds content := by
  intro e he
  rcases mem_append.mp he with he | he
  · exact h e (mem_of_mem_filter he)
  · rw [mem_singleton.mp he]

theorem Holds.get {c' : Cache K V} (h : c.Holds content) (hget : c.get k = some (v, c')) :
    v = content k ∧ c'.Holds content := by
  obtain ⟨w, hw, heq⟩ := Option.map_eq_some_iff.mp hget
  obtain ⟨rfl, rfl⟩ := Prod.mk.inj heq
  obtain rfl := h.find hw
  exact ⟨rfl, h.putLast k⟩

theorem Holds.set {p : Policy} {size : V → ℕ} {c' : Cache K V} (h : c.Holds content)
    (hset : c.set p size k (content k) = some c') : c'.Holds content := by
  unfold Cache.set at hset
  split at hset
  · cases hset
    exact Holds.putLast (fun e he => h e (mem_of_mem_drop he)) k
  · cases hset

end Cache

end Lru
