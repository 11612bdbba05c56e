import Mosaic.Kv.Calls

/-!
# The tables of a request

A call for one request changes the table of that request only. This holds without any assumption
about the pool.
-/

namespace Kv

open Fallible Function KVCacheManager Except Prod

/-- At most the tables of one request differ. -/
structure OnlyTable (s s' : KVCacheManager) (r : String) : Prop where
  shape : SameShape s s'
  others : ∀ g r', r' ≠ r → s'.tables (g, r') = s.tables (g, r')

namespace OnlyTable

variable {s s' s'' : KVCacheManager} {r : String}

theorem refl (s : KVCacheManager) (r : String) : OnlyTable s s r := ⟨.refl s, fun _ _ _ => rfl⟩

theorem trans (h : OnlyTable s s' r) (h' : OnlyTable s' s'' r) : OnlyTable s s'' r where
  shape := h.shape.trans h'.shape
  others g r' hr := (h'.others g r' hr).trans (h.others g r' hr)

/-- No table differs. -/
theorem of_tables (shape : SameShape s s') (tables : s'.tables = s.tables) : OnlyTable s s' r where
  shape := shape
  others g r' _ := congrFun tables (g, r')

theorem blockSize (h : OnlyTable s s' r) (g : ℕ) :
    (s'.managers g).blockSize = (s.managers g).blockSize :=
  congrArg KVCacheSpec.blockSize (congrFun h.shape.spec g)

end OnlyTable

section Calls

variable {env : HashEnv} {s s' : KVCacheManager} {r : String}

theorem onlyTable_free (hok : s.free r = .ok s') :
    OnlyTable s s' r ∧ ∀ g < s.numKvCacheGroups, s'.tables (g, r) = [] := by
  obtain ⟨⟨_, hmoves⟩, hempty, hothers, -⟩ := moves_free encodedHash False hok []
  exact ⟨⟨hmoves.sameShape, hothers⟩, hempty⟩

theorem onlyTable_removeSkippedBlocks {numComputedTokens : ℕ}
    (hok : s.removeSkippedBlocks r numComputedTokens = .ok s') :
    OnlyTable s s' r ∧ ∀ g, (s'.tables (g, r)).length = (s.tables (g, r)).length := by
  obtain ⟨⟨_, hmoves⟩, hskipped⟩ := moves_removeSkippedBlocks encodedHash False hok []
  exact ⟨⟨hmoves.sameShape, hskipped.others⟩, hskipped.length⟩

theorem onlyTable_takeComputedBlocks {hits : List (List ℕ)}
    (hok : s.takeComputedBlocks r hits = .ok s') :
    OnlyTable s s' r ∧ ∀ g, (s.tables (g, r)).length ≤ (s'.tables (g, r)).length := by
  obtain ⟨_, -, hsave⟩ := bind_eq_ok.mp hok
  obtain ⟨htables, hspec, -⟩ := tables_saveNewComputedBlocks hsave
  obtain ⟨_, rfl, -, -⟩ := saveNewComputedBlocks_eq_ok hsave
  refine ⟨⟨⟨rfl, rfl, rfl, rfl, rfl, rfl, hspec⟩, ?_⟩, ?_⟩
  · intro g r' hr
    rw [htables, Sharing.takeHits_of_ne fun h => hr h.2]
    rfl
  · intro g
    rw [htables, Sharing.takeHits]
    split
    · rw [List.length_append]
      exact Nat.le_add_right _ _
    · exact le_rfl

/-- As many blocks are taken as were asked for. -/
theorem length_popLoop {n : ℕ} {curr last : Option (Linked.Node ℕ)} {q q' : Linked.Queue ℕ}
    {ret : List ℕ} (hok : Linked.Queue.popLoop n curr q = .ok (ret, last, q')) :
    ret.length = n := by
  induction n generalizing curr q ret with
  | zero =>
    cases hok
    rfl
  | succ n ih =>
    cases curr with
    | none => cases hok
    | some node =>
      cases node with
      | head => cases hok
      | tail => cases hok
      | item a =>
        obtain ⟨⟨_, _, _⟩, hrest, hok⟩ := bind_eq_ok.mp hok
        obtain ⟨rfl, hrest'⟩ := mk.inj (ok.inj hok)
        obtain ⟨rfl, rfl⟩ := mk.inj hrest'
        rw [List.length_cons, ih hrest]

theorem length_getNewBlocks {p p' : BlockPool} {n : ℕ} {newBlocks : List ℕ}
    (hok : p.getNewBlocks n = .ok (newBlocks, p')) : newBlocks.length = n := by
  unfold BlockPool.getNewBlocks at hok
  split at hok
  · cases hok
  · obtain ⟨⟨ret, queue⟩, hpop, hok⟩ := bind_eq_ok.mp hok
    obtain ⟨_, -, hok⟩ := bind_eq_ok.mp hok
    obtain ⟨rfl, -⟩ := mk.inj (ok.inj hok)
    have hpop' : p.freeBlockQueue.popleftN n = .ok (ret, queue) := by
      cases hqueue : p.freeBlockQueue.popleftN n with
      | ok x =>
        rw [hqueue] at hpop
        rw [ok.inj hpop]
      | error e =>
        rw [hqueue] at hpop
        cases e <;> cases hpop
    unfold Linked.Queue.popleftN at hpop'
    split at hpop'
    · rename_i hzero
      obtain ⟨rfl, -⟩ := mk.inj (ok.inj hpop')
      exact hzero.symm
    · split at hpop'
      · cases hpop'
      · obtain ⟨⟨_, _, _⟩, hloop, hpop'⟩ := bind_eq_ok.mp hpop'
        have hlen := length_popLoop hloop
        dsimp only at hpop'
        split at hpop' <;> obtain ⟨rfl, -⟩ := mk.inj (ok.inj hpop') <;> exact hlen

/-- New blocks are put behind the blocks of the request, as many as it lacks for its tokens. -/
theorem onlyTable_allocateNewBlocks {numTokens : ℕ} {newBlocks : List (List ℕ)}
    (hok : s.allocateNewBlocks r numTokens = .ok (s', newBlocks)) :
    OnlyTable s s' r ∧ newBlocks.length = s.numKvCacheGroups ∧
      (∀ g, s'.tables (g, r) = s.tables (g, r) ++ newBlocks.getD g []) ∧
      ∀ g < s.numKvCacheGroups, (s'.tables (g, r)).length =
        max (s.tables (g, r)).length (cdiv numTokens (s.managers g).blockSize) := by
  have hloop := foldlM_range (P := fun k (x : KVCacheManager × List (List ℕ)) =>
    OnlyTable s x.1 r ∧ x.2.length = k ∧
      (∀ g, x.1.tables (g, r) = s.tables (g, r) ++ x.2.getD g []) ∧
      ∀ g < k, (x.1.tables (g, r)).length =
        max (s.tables (g, r)).length (cdiv numTokens (s.managers g).blockSize)) hok
    ⟨.refl s r, rfl, by simp, nofun⟩ ?_
  · exact hloop
  · rintro k - ⟨s₁, done⟩ ⟨_, _⟩ ⟨honly, rfl, htables, hlong⟩ hstep
    dsimp only at honly htables hlong
    obtain ⟨⟨blocks, m, p⟩, halloc, hstep⟩ := bind_eq_ok.mp hstep
    cases hstep
    have hsize := honly.blockSize done.length
    -- with enough blocks nothing is allocated
    have hmanager : m = (s₁.managers done.length).setBlocks r
        (s₁.tables (done.length, r) ++ blocks) ∧
          (s₁.tables (done.length, r) ++ blocks).length =
            max (s₁.tables (done.length, r)).length
              (cdiv numTokens (s₁.managers done.length).blockSize) := by
      obtain ⟨henough, rfl, rfl, -⟩ | ⟨hfew, hnew, rfl⟩ :=
        SingleTypeManager.allocateNewBlocks_eq_ok halloc
      · constructor
        · simp [tables, SingleTypeManager.setBlocks]
        · rw [List.append_nil]
          exact (max_eq_left henough).symm
      · refine ⟨rfl, ?_⟩
        have hlen := length_getNewBlocks hnew
        rw [List.length_append, hlen]
        dsimp only [tables] at hfew ⊢
        omega
    obtain ⟨rfl, hlen⟩ := hmanager
    have htables' : ∀ g, (s₁.setGroup done.length ((s₁.managers done.length).setBlocks r
        (s₁.tables (done.length, r) ++ blocks)) p).tables (g, r) =
          s.tables (g, r) ++ (done ++ [blocks]).getD g [] := by
      intro g
      rw [tables_setBlocks, getD_concat]
      by_cases hg : g = done.length
      · subst hg
        rw [update_self, if_pos rfl, htables]
        simp
      · have hx : (g, r) ≠ (done.length, r) := fun heq => hg (mk.inj heq).1
        rw [update_of_ne hx, if_neg hg, htables]
    refine ⟨honly.trans ⟨⟨rfl, rfl, rfl, rfl, rfl, rfl, spec_setGroup rfl⟩, ?_⟩, by simp, htables',
      ?_⟩
    · intro g r' hr
      have hx : (g, r') ≠ (done.length, r) := fun heq => hr (mk.inj heq).2
      rw [tables_setBlocks, update_of_ne hx]
    · intro g hg
      dsimp only at hg
      by_cases hlast : g = done.length
      · subst hlast
        have hold : s₁.tables (done.length, r) = s.tables (done.length, r) := by
          rw [htables, List.getD_eq_getElem?_getD, List.getElem?_eq_none le_rfl, Option.getD_none,
            List.append_nil]
        rw [tables_setBlocks, update_self, ← hsize, hlen, hold]
      · have hx : (g, r) ≠ (done.length, r) := fun heq => hlast (mk.inj heq).1
        dsimp only
        rw [tables_setBlocks, update_of_ne hx]
        exact hlong g (by omega)

theorem cacheBlocks_tables {r : Request} {numTokens : ℕ}
    (hok : s.cacheBlocks env r numTokens = .ok s') :
    SameShape s s' ∧ s'.tables = s.tables := by
  rw [cacheBlocks_eq] at hok
  refine foldlM_range (P := fun _ s' => SameShape s s' ∧ s'.tables = s.tables) hok
    ⟨.refl s, rfl⟩ ?_
  rintro g _ s₁ _ ⟨hshape, htables⟩ hstep
  obtain ⟨⟨_, p, hashes⟩, hcache, hstep⟩ := bind_eq_ok.mp hstep
  cases hstep
  unfold SingleTypeManager.cacheBlocks at hcache
  split at hcache
  · cases hcache
  · obtain ⟨⟨_, hashes'⟩, -, hcache⟩ := bind_eq_ok.mp hcache
    cases hcache
    refine ⟨hshape.trans ⟨rfl, rfl, rfl, rfl, rfl, rfl, spec_setGroup (p := p) rfl⟩, ?_⟩
    change (s₁.setGroup g _ p).tables = _
    rw [tables_setNumCached, tables_setGroup_self, htables]

/-- A lookup changes no table, and leaves at least the last token to compute. -/
theorem getComputedBlocks_tables {r : Request} {hits : List (List ℕ)} {hitLength : ℕ}
    (hok : s.getComputedBlocks env r = .ok (s', hits, hitLength)) :
    SameShape s s' ∧ s'.tables = s.tables ∧
      (s.coordinator.WellFormed s.spec s.numKvCacheGroups → hitLength ≤ r.numTokens - 1) := by
  unfold KVCacheManager.getComputedBlocks at hok
  split at hok
  · obtain ⟨rfl, rfl, rfl⟩ : s = s' ∧ s.createEmptyBlockList = hits ∧ 0 = hitLength := by
      simpa [pure, Except.pure] using hok
    exact ⟨.refl s, rfl, fun _ => Nat.zero_le _⟩
  · obtain ⟨hashes, -, hok⟩ := bind_eq_ok.mp hok
    obtain ⟨⟨hits', hitLength'⟩, hfind, hok⟩ := bind_eq_ok.mp hok
    obtain ⟨rfl, rfl, rfl⟩ : _ = s' ∧ hits' = hits ∧ hitLength' = hitLength := by
      simpa [pure, Except.pure] using hok
    exact ⟨⟨rfl, rfl, rfl, rfl, rfl, rfl, rfl⟩, rfl, fun hwf =>
      (Coordinator.hits_findLongestCacheHit hwf hfind).2.1⟩

end Calls

end Kv
