import Mathlib.Data.List.Nodup
import Mathlib.Tactic.Common

/-!
# Even shares of a list

A list is distributed over `n` holders: each of them gets a block of consecutive elements, the
blocks have the same size, and the elements that remain go to the first holders, one each. Who
holds the element at a position can be computed from the position alone.
-/

namespace Shares

open List

variable {α : Type*} {l : List α} {n p k : ℕ} {x : α}

/-- The elements of the holder at position `p`: its block, and at most one of the elements that
remain. -/
def share (l : List α) (n p : ℕ) : List α :=
  (l.drop (p * (l.length / n))).take (l.length / n) ++ (l[n * (l.length / n) + p]?).toList

/-- The position of the holder of the element at position `k` of a list of the given length. -/
def holder (length n k : ℕ) : ℕ :=
  if k < n * (length / n) then k / (length / n) else k - n * (length / n)

/-- Every element has a holder. -/
theorem holder_lt {length : ℕ} (hn : 0 < n) (hk : k < length) : holder length n k < n := by
  unfold holder
  split
  · rename_i hlt
    exact Nat.div_lt_of_lt_mul (by rwa [Nat.mul_comm])
  · have hrest := Nat.mod_lt length hn
    have hsplit := Nat.div_add_mod length n
    omega

/-- The positions of a block. -/
theorem mem_block_iff {q : ℕ} (hl : l.Nodup) (hx : l[k]? = some x) :
    x ∈ (l.drop (p * q)).take q ↔ p * q ≤ k ∧ k < p * q + q := by
  constructor
  · intro hmem
    obtain ⟨i, hi⟩ := mem_iff_getElem?.mp hmem
    rw [getElem?_take] at hi
    split at hi
    · rename_i hlt
      rw [getElem?_drop] at hi
      -- the element stands at one position only
      have hk : k < l.length := (List.getElem?_eq_some_iff.mp hx).1
      obtain rfl : k = p * q + i := (getElem?_inj hk hl).mp (hx.trans hi.symm)
      omega
    · cases hi
  · rintro ⟨hle, hlt⟩
    apply mem_iff_getElem?.mpr
    refine ⟨k - p * q, ?_⟩
    rw [getElem?_take, if_pos (by omega), getElem?_drop, Nat.add_sub_cancel' hle]
    exact hx

/-- A holder gets the elements whose positions are its own. -/
theorem mem_share_iff (hl : l.Nodup) (hp : p < n) (hx : l[k]? = some x) :
    x ∈ share l n p ↔ holder l.length n k = p := by
  have hk : k < l.length := (List.getElem?_eq_some_iff.mp hx).1
  have hrest : l[n * (l.length / n) + p]? = some x ↔ k = n * (l.length / n) + p := by
    rw [← hx]
    exact ⟨fun h => (getElem?_inj hk hl).mp h.symm, fun h => by rw [h]⟩
  unfold share holder
  rw [mem_append, mem_block_iff hl hx, Option.mem_toList, hrest]
  -- The element is in a full block, or it is one of those left over.
  by_cases hblock : k < n * (l.length / n)
  · have hq : 0 < l.length / n := by
      apply Nat.pos_of_ne_zero
      intro hzero
      rw [hzero] at hblock
      omega
    rw [if_pos hblock, Nat.div_eq_iff hq]
    constructor
    · rintro (h | h)
      · omega
      · omega
    · intro h
      exact .inl (by omega)
  · rw [if_neg hblock]
    have hend : p * (l.length / n) + l.length / n ≤ n * (l.length / n) := by
      rw [← Nat.succ_mul]
      exact Nat.mul_le_mul_right _ hp
    constructor
    · rintro (h | h)
      · omega
      · omega
    · intro h
      exact .inr (by omega)

theorem mem_of_mem_share (h : x ∈ share l n p) : x ∈ l := by
  unfold share at h
  rw [mem_append, Option.mem_toList] at h
  rcases h with h | h
  · exact mem_of_mem_drop (mem_of_mem_take h)
  · exact mem_of_getElem? h

theorem nodup_share (hl : l.Nodup) (hp : p < n) : (share l n p).Nodup := by
  unfold share
  rw [nodup_append]
  refine ⟨(hl.sublist (drop_sublist _ _)).sublist (take_sublist _ _), ?_, ?_⟩
  · cases l[n * (l.length / n) + p]? with
    | none => exact nodup_nil
    | some x => exact nodup_singleton x
  · intro x hx y hy hxy
    subst hxy
    rw [Option.mem_toList] at hy
    -- the remaining elements stand behind all blocks
    have hlt := ((mem_block_iff hl hy).mp hx).2
    have hend : p * (l.length / n) + l.length / n ≤ n * (l.length / n) := by
      rw [← Nat.succ_mul]
      exact Nat.mul_le_mul_right _ hp
    omega

end Shares
