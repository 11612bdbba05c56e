import Mathlib.Algebra.BigOperators.Ring.Finset
import Mosaic.Kv.Conservation
import Mosaic.Kv.Tables

/-!
# Admission of an allocation

Before an allocation changes anything but the skipped blocks, it compares the blocks that all groups
need with the free ones. The needs are differences that may be negative, and are added up: a group
with more blocks than it needs must not hide that another one needs more than there are. It cannot,
since the tables of a request cover the same number of tokens in all groups, so that all differences
have one sign. Hits that are in the queue are counted as well, since taking them makes the queue
shorter.
-/

namespace Kv

open List Fallible Function KVCacheManager Except

/-! ### Rounded divisions -/

theorem cdiv_mono {a b : ℕ} (h : a ≤ b) (blockSize : ℕ) : cdiv a blockSize ≤ cdiv b blockSize := by
  unfold cdiv
  exact Nat.div_le_div_right (by omega)

theorem cdiv_max (a b blockSize : ℕ) :
    cdiv (max a b) blockSize = max (cdiv a blockSize) (cdiv b blockSize) := by
  rcases le_total a b with h | h
  · rw [max_eq_right h, max_eq_right (cdiv_mono h blockSize)]
  · rw [max_eq_left h, max_eq_left (cdiv_mono h blockSize)]

theorem cdiv_zero_left (blockSize : ℕ) : cdiv 0 blockSize = 0 := by
  unfold cdiv
  rcases Nat.eq_zero_or_pos blockSize with rfl | hpos
  · rfl
  · exact Nat.div_eq_of_lt (by omega)

theorem cdiv_zero_right (a : ℕ) : cdiv a 0 = 0 := Nat.div_zero _

/-- Full blocks need no rounding, also if they are empty. -/
theorem cdiv_mul_self {m maxLength blockSize : ℕ} (hm : m ≤ maxLength / blockSize) :
    cdiv (m * blockSize) blockSize = m := by
  rcases Nat.eq_zero_or_pos blockSize with rfl | hpos
  · rw [Nat.div_zero] at hm
    rw [cdiv_zero_right]
    omega
  · unfold cdiv
    rw [Nat.add_sub_assoc hpos, mul_comm, Nat.mul_add_div hpos,
      Nat.div_eq_of_lt (Nat.sub_lt hpos Nat.one_pos), add_zero]

theorem cdiv_eq_div {a blockSize : ℕ} (h : a % blockSize = 0) :
    cdiv a blockSize = a / blockSize := by
  have hmul : a / blockSize * blockSize = a := Nat.div_mul_cancel (Nat.dvd_of_mod_eq_zero h)
  have hself := cdiv_mul_self (le_refl (a / blockSize))
  rw [hmul] at hself
  exact hself

/-! ### Even tables -/

namespace KVCacheManager

/-- The tables of every request have the blocks for the same number of tokens in all groups. -/
def Even (s : KVCacheManager) : Prop :=
  ∀ r, ∃ numTokens, ∀ g < s.numKvCacheGroups,
    (s.tables (g, r)).length = cdiv numTokens (s.managers g).blockSize

/-- The hits of all groups are blocks for the same number of tokens. -/
def EvenHits (s : KVCacheManager) (hits : List (List ℕ)) : Prop :=
  ∃ numTokens, ∀ g < s.numKvCacheGroups,
    (hits.getD g []).length = cdiv numTokens (s.managers g).blockSize

end KVCacheManager

variable {env : HashEnv} {s s' t : KVCacheManager} {free : List ℕ} {r : String}
  {hits newBlocks : List (List ℕ)}

/-- Lists that belong to the groups in order. -/
theorem getD_of_forall₂ {R : ℕ → List ℕ → Prop} {n : ℕ}
    (h : List.Forall₂ R (List.range n) hits) {g : ℕ} (hg : g < n) : R g (hits.getD g []) := by
  have hlt : g < hits.length := by
    rw [← h.length_eq, length_range]
    exact hg
  have hrow := List.Forall₂.get h (i := g) (by simpa using hg) hlt
  rw [get_eq_getElem, get_eq_getElem, getElem_range] at hrow
  rw [getD_eq_getElem?_getD, getElem?_eq_getElem hlt, Option.getD_some]
  exact hrow

/-- The rows of one class of groups. -/
theorem Rows.lengths {Good : ℕ → ℕ → ℕ → Prop} {spec : ℕ → KVCacheSpec} {m hitLength : ℕ}
    {groupIds : List ℕ} {kvCacheSpec : KVCacheSpec} (h : Rows Good m groupIds hits)
    (hspec : ∀ g ∈ groupIds, spec g = kvCacheSpec) (hm : m = cdiv hitLength kvCacheSpec.blockSize) :
    List.Forall₂ (fun g l => l.length = cdiv hitLength (spec g).blockSize) groupIds hits := by
  induction h with
  | nil => exact .nil
  | cons hl _ ih =>
    refine .cons ?_ (ih fun g hg => hspec g (mem_cons_of_mem _ hg))
    rw [hl.1, hspec _ mem_cons_self]
    exact hm

/-- What is found covers exactly the length that is returned, in every group. -/
theorem Coordinator.lengths_findLongestCacheHit {p : BlockPool} {hs : List BlockHash}
    {spec : ℕ → KVCacheSpec} {numGroups : ℕ} {c : Coordinator} (hc : c.WellFormed spec numGroups)
    {useEagle : Bool} {maxLength hitLength : ℕ}
    (hok : c.findLongestCacheHit p numGroups useEagle hs maxLength = .ok (hits, hitLength)) :
    List.Forall₂ (fun g l => l.length = cdiv hitLength (spec g).blockSize)
      (List.range numGroups) hits := by
  cases c with
  | noPrefixCache =>
    cases hok
    have hempty := rows_nil (HitOrSkipped p spec hs) (List.range numGroups)
    rw [map_const', length_range] at hempty
    exact List.Forall₂.imp (fun g l hl => by rw [hl.1, cdiv_zero_left]) hempty
  | unitary kvCacheSpec =>
    obtain ⟨rfl, rfl⟩ := hc
    obtain ⟨hits', hfind, hok⟩ := bind_eq_ok.mp hok
    cases hok
    have hzero : ∀ g ∈ [0], spec g = spec 0 := by simp
    obtain ⟨m, hm, hrows⟩ := rows_hitOrSkipped hzero hfind
    rw [hrows.length_head (cons_ne_nil _ _)]
    exact hrows.lengths hzero (cdiv_mul_self hm).symm
  | hybrid fullIds otherIds fullSpec otherSpec fullAttnFirst =>
    obtain ⟨hids, hfull, hother, hfullIds, hotherIds, -, -⟩ := hc
    obtain ⟨_, hfind, hok⟩ := bind_eq_ok.mp hok
    dsimp only at hok
    split at hok
    · cases hok
    · rename_i hdivides
      cases hok
      obtain ⟨n, -, hrows⟩ :=
        rows_fullAttentionHit_le p hs maxLength fullIds fullSpec.blockSize useEagle
      rw [hrows.length_head hfullIds] at hfind
      obtain ⟨m, hm, hotherHits⟩ := rows_hitOrSkipped hother hfind
      rw [hotherHits.length_head hotherIds] at hdivides ⊢
      have hdivides := not_not.mp hdivides
      -- full attention has at least the blocks that it is cut to
      have hcut : m * otherSpec.blockSize / fullSpec.blockSize ≤ n := by
        calc m * otherSpec.blockSize / fullSpec.blockSize
            ≤ n * fullSpec.blockSize / otherSpec.blockSize * otherSpec.blockSize /
                fullSpec.blockSize := Nat.div_le_div_right (Nat.mul_le_mul_right _ hm)
          _ ≤ n * fullSpec.blockSize / fullSpec.blockSize :=
              Nat.div_le_div_right (Nat.div_mul_le_self _ _)
          _ ≤ n := Nat.div_le_of_le_mul (mul_comm _ _).le
      have hfullHits := hrows.map_take (m * otherSpec.blockSize / fullSpec.blockSize)
      rw [min_eq_left hcut] at hfullHits
      have hfullLists := hfullHits.lengths hfull (cdiv_eq_div hdivides).symm
      have hotherLists := hotherHits.lengths hother (cdiv_mul_self hm).symm
      rw [← hids]
      cases fullAttnFirst with
      | true => exact rel_append hfullLists hotherLists
      | false => exact rel_append hotherLists hfullLists

theorem evenHits_empty (s : KVCacheManager) : s.EvenHits s.createEmptyBlockList := by
  refine ⟨0, fun g _ => ?_⟩
  rw [createEmptyBlockList_getD, cdiv_zero_left]
  rfl

/-- A lookup keeps the tables, and its hits are even. -/
theorem evenHits_getComputedBlocks {q : Request} {hitLength : ℕ}
    (hwf : s.coordinator.WellFormed s.spec s.numKvCacheGroups)
    (hok : s.getComputedBlocks env q = .ok (s', hits, hitLength)) : s'.EvenHits hits := by
  unfold KVCacheManager.getComputedBlocks at hok
  split at hok
  · obtain ⟨rfl, rfl, rfl⟩ : s = s' ∧ s.createEmptyBlockList = hits ∧ 0 = hitLength := by
      simpa [pure, Except.pure] using hok
    exact evenHits_empty s
  · obtain ⟨hashes, -, hok⟩ := bind_eq_ok.mp hok
    obtain ⟨⟨hits', hitLength'⟩, hfind, hok⟩ := bind_eq_ok.mp hok
    obtain ⟨rfl, rfl, rfl⟩ : _ = s' ∧ hits' = hits ∧ hitLength' = hitLength := by
      simpa [pure, Except.pure] using hok
    exact ⟨hitLength', fun g hg =>
      getD_of_forall₂ (Coordinator.lengths_findLongestCacheHit hwf hfind) hg⟩

/-- Tables that are as long as before, or covers of one more number of tokens, stay even. -/
theorem OnlyTable.even (h : OnlyTable s s' r) (heven : s.Even)
    (hr : ∃ numTokens, ∀ g < s.numKvCacheGroups,
      (s'.tables (g, r)).length = cdiv numTokens (s.managers g).blockSize) : s'.Even := by
  intro q
  rw [h.shape.numKvCacheGroups]
  by_cases hq : q = r
  · obtain ⟨numTokens, hlength⟩ := hr
    refine ⟨numTokens, fun g hg => ?_⟩
    rw [hq, h.blockSize]
    exact hlength g hg
  · obtain ⟨numTokens, hlength⟩ := heven q
    refine ⟨numTokens, fun g hg => ?_⟩
    rw [h.others g q hq, h.blockSize]
    exact hlength g hg

theorem even_removeSkippedBlocks {numComputedTokens : ℕ} (heven : s.Even)
    (hok : s.removeSkippedBlocks r numComputedTokens = .ok s') : s'.Even := by
  obtain ⟨honly, hlength⟩ := onlyTable_removeSkippedBlocks hok
  obtain ⟨numTokens, hold⟩ := heven r
  exact honly.even heven ⟨numTokens, fun g hg => (hlength g).trans (hold g hg)⟩

/-- The hits stand behind the blocks of a request, which are none if there are hits. -/
theorem tables_takeComputedBlocks (hok : s.takeComputedBlocks r hits = .ok s') :
    ∀ g < s.numKvCacheGroups, s'.tables (g, r) = s.tables (g, r) ++ hits.getD g [] ∧
      (s.tables (g, r) = [] ∨ hits.getD g [] = []) := by
  intro g hg
  obtain ⟨-, -, hgroups⟩ := takeComputedBlocks_numCached hok
  rcases hgroups g hg with ⟨-, hempty, -, htable⟩ | ⟨-, hempty, -, htable⟩
  · rw [htable, hempty]
    exact ⟨rfl, .inl rfl⟩
  · rw [htable, hempty, append_nil]
    exact ⟨rfl, .inr rfl⟩

/-- Even hits keep the tables even: either no group has hits, or every group with blocks of a
positive size has. -/
theorem even_takeComputedBlocks (heven : s.Even) (hhits : s.EvenHits hits)
    (hok : s.takeComputedBlocks r hits = .ok s') : s'.Even := by
  obtain ⟨honly, -⟩ := onlyTable_takeComputedBlocks hok
  have htables := tables_takeComputedBlocks hok
  obtain ⟨numTokens, hold⟩ := heven r
  obtain ⟨hitLength, hlength⟩ := hhits
  apply honly.even heven
  by_cases hnone : ∀ g < s.numKvCacheGroups, hits.getD g [] = []
  · refine ⟨numTokens, fun g hg => ?_⟩
    rw [(htables g hg).1, hnone g hg, append_nil]
    exact hold g hg
  · push Not at hnone
    obtain ⟨g₀, hg₀, hsome⟩ := hnone
    have hpos : 0 < hitLength := by
      by_contra hzero
      have hlen := hlength g₀ hg₀
      rw [Nat.eq_zero_of_not_pos hzero, cdiv_zero_left] at hlen
      exact hsome (eq_nil_of_length_eq_zero hlen)
    refine ⟨hitLength, fun g hg => ?_⟩
    obtain ⟨htable, hempty | hempty⟩ := htables g hg
    · rw [htable, hempty, nil_append]
      exact hlength g hg
    · -- a group without hits has blocks of no size, and so none at all
      have hlen := hlength g hg
      rw [hempty, length_nil] at hlen
      have hsize : (s.managers g).blockSize = 0 := by
        by_contra hne
        unfold cdiv at hlen
        have hle : (s.managers g).blockSize ≤ hitLength + (s.managers g).blockSize - 1 := by omega
        have := Nat.div_pos hle (pos_of_ne_zero hne)
        omega
      rw [htable, hempty, append_nil, hold g hg, hsize, cdiv_zero_right, cdiv_zero_right]

variable {numTokens : ℕ}

theorem even_allocateNewBlocks (heven : s.Even)
    (hok : s.allocateNewBlocks r numTokens = .ok (s', newBlocks)) : s'.Even := by
  obtain ⟨honly, -, -, hlength⟩ := onlyTable_allocateNewBlocks hok
  obtain ⟨oldTokens, hold⟩ := heven r
  refine honly.even heven ⟨max oldTokens numTokens, fun g hg => ?_⟩
  rw [hlength g hg, hold g hg, cdiv_max]

theorem even_of_tables (hshape : SameShape s s') (htables : s'.tables = s.tables)
    (heven : s.Even) : s'.Even := by
  have honly : OnlyTable s s' "" := .of_tables hshape htables
  obtain ⟨numTokens, hlength⟩ := heven ""
  exact honly.even heven ⟨numTokens, fun g hg => by rw [htables]; exact hlength g hg⟩

theorem even_allocateSlots {q : Request} {numNewTokens numNewComputedTokens numLookaheadTokens : ℕ}
    {delayCacheBlocks : Bool} {result : Option (List (List ℕ))} (heven : s.Even)
    (hhits : s.EvenHits hits)
    (hok : s.allocateSlots env q numNewTokens numNewComputedTokens hits numLookaheadTokens
      delayCacheBlocks = .ok (s', result)) : s'.Even := by
  unfold KVCacheManager.allocateSlots at hok
  split at hok
  · cases hok
  obtain ⟨s₁, hskip, hok⟩ := bind_eq_ok.mp hok
  have heven₁ := even_removeSkippedBlocks heven hskip
  have hshape₁ := (onlyTable_removeSkippedBlocks hskip).1.shape
  dsimp only at hok
  split at hok
  · cases hok
    exact heven₁
  obtain ⟨_, htake, hok⟩ := bind_eq_ok.mp hok
  obtain ⟨⟨_, _⟩, halloc, hok⟩ := bind_eq_ok.mp hok
  have hhits₁ : s₁.EvenHits hits := by
    obtain ⟨hitLength, hlength⟩ := hhits
    refine ⟨hitLength, fun g hg => ?_⟩
    rw [hshape₁.numKvCacheGroups] at hg
    rw [(onlyTable_removeSkippedBlocks hskip).1.blockSize]
    exact hlength g hg
  have heven₃ := even_allocateNewBlocks (even_takeComputedBlocks heven₁ hhits₁ htake) halloc
  split at hok
  · cases hok
    exact heven₃
  · obtain ⟨_, hcache, hok⟩ := bind_eq_ok.mp hok
    cases hok
    obtain ⟨hshape, htables⟩ := cacheBlocks_tables hcache
    exact even_of_tables hshape htables heven₃

theorem even_free (heven : s.Even) (hok : s.free r = .ok s') : s'.Even := by
  obtain ⟨honly, hempty⟩ := onlyTable_free hok
  refine honly.even heven ⟨0, fun g hg => ?_⟩
  rw [hempty g hg, cdiv_zero_left]
  rfl

/-- Calls keep the tables even. -/
theorem Step.even {c : Call} (hwf : s.coordinator.WellFormed s.spec s.numKvCacheGroups)
    (heven : s.Even) (hstep : s.Step env c s') : s'.Even := by
  obtain ⟨_, hok⟩ := hstep
  cases c with
  | getComputedBlocks q =>
    obtain ⟨⟨s₁, hits, hitLength⟩, hget, hok⟩ := bind_eq_ok.mp hok
    cases hok
    obtain ⟨hshape, htables, -⟩ := getComputedBlocks_tables hget
    exact even_of_tables hshape htables heven
  | allocateComputed q numNewTokens numLookaheadTokens delayCacheBlocks =>
    obtain ⟨⟨s₁, hits, hitLength⟩, hget, hok⟩ := bind_eq_ok.mp hok
    obtain ⟨hshape, htables, -⟩ := getComputedBlocks_tables hget
    exact even_allocateSlots (even_of_tables hshape htables heven)
      (evenHits_getComputedBlocks hwf hget) hok
  | allocateSlots q numNewTokens numLookaheadTokens delayCacheBlocks =>
    exact even_allocateSlots heven (evenHits_empty s) hok
  | preempt requestId =>
    obtain ⟨s₁, hfree, hok⟩ := bind_eq_ok.mp hok
    cases hok
    exact even_free heven hfree
  | finish requestId =>
    obtain ⟨s₁, hfree, hok⟩ := bind_eq_ok.mp hok
    cases hok
    have heven₁ := even_free heven hfree
    exact heven₁
  | cacheBlocks q numComputedTokens =>
    obtain ⟨s₁, hcache, hok⟩ := bind_eq_ok.mp hok
    cases hok
    unfold cacheRequestBlocks at hcache
    split at hcache
    · obtain ⟨hshape, htables⟩ := cacheBlocks_tables hcache
      exact even_of_tables hshape htables heven
    · cases hcache
      exact heven
  | resetPrefixCache =>
    cases hok
    exact heven

/-! ### The test of the free blocks -/

/-- Taking blocks out of a list makes it shorter by at most those that are in it. -/
theorem length_le_length_diff (blocks taken : List ℕ) :
    blocks.length ≤ (blocks.diff taken).length + (taken.filter fun b => b ∈ blocks).length := by
  induction taken generalizing blocks with
  | nil => exact Nat.le_add_right _ _
  | cons b taken ih =>
    rw [diff_cons]
    have hrest := ih (blocks.erase b)
    have hfewer : (taken.filter fun c => c ∈ blocks.erase b).length ≤
        (taken.filter fun c => c ∈ blocks).length := by
      rw [← countP_eq_length_filter, ← countP_eq_length_filter]
      apply countP_mono_left
      intro c _ hc
      rw [decide_eq_true_eq] at hc ⊢
      exact mem_of_mem_erase hc
    by_cases hb : b ∈ blocks
    · rw [filter_cons_of_pos (by simpa using hb), length_cons]
      have := length_erase_of_mem hb
      omega
    · rw [filter_cons_of_neg (by simpa using hb)]
      rw [erase_of_not_mem hb] at hrest ⊢
      exact hrest

/-- Differences of one sign can be added up. -/
theorem sum_sub_le {n : ℕ} {need present : ℕ → ℕ}
    (hsign : (∀ g < n, need g ≤ present g) ∨ ∀ g < n, present g ≤ need g) :
    (((List.range n).map fun g => need g - present g).sum : ℤ) ≤
      max 0 ((List.range n).map fun g => (need g : ℤ) - present g).sum := by
  rcases hsign with henough | hlacking
  · have hzero : ((List.range n).map fun g => need g - present g).sum = 0 := by
      apply sum_eq_zero
      intro x hx
      obtain ⟨g, hg, rfl⟩ := mem_map.mp hx
      exact Nat.sub_eq_zero_of_le (henough g (mem_range.mp hg))
    rw [hzero]
    exact le_max_left _ _
  · have hcast : (((List.range n).map fun g => need g - present g).sum : ℤ) =
        ((List.range n).map fun g => (need g : ℤ) - present g).sum := by
      rw [Nat.cast_list_sum, map_map]
      congr 1
      apply map_congr_left
      intro g hg
      exact Nat.cast_sub (hlacking g (mem_range.mp hg))
    rw [hcast]
    exact le_max_right _ _

theorem sum_map_range_getD {f : List ℕ → ℕ} {n : ℕ} (hlength : hits.length = n) :
    ((List.range n).map fun g => f (hits.getD g [])).sum = (hits.map f).sum := by
  congr 1
  apply ext_getElem
  · simp [hlength]
  · intro g hg hg'
    rw [length_map] at hg'
    simp [getD_eq_getElem?_getD, hg']

/-- The needs of the groups are what their tables lack after the hits, and the hits that are in the
queue. -/
theorem getNumBlocksToAllocate_eq (hlength : hits.length = s.numKvCacheGroups)
    (htables : ∀ g < s.numKvCacheGroups,
      t.tables (g, r) = s.tables (g, r) ++ hits.getD g []) :
    s.getNumBlocksToAllocate r numTokens hits =
      ((List.range s.numKvCacheGroups).map fun g =>
        (cdiv numTokens (s.managers g).blockSize : ℤ) - (t.tables (g, r)).length).sum +
      (hits.flatten.filter fun b => s.blockPool.refCnt b = 0 && !s.blockPool.isNull b).length := by
  have hqueued : (hits.flatten.filter fun b =>
      s.blockPool.refCnt b = 0 && !s.blockPool.isNull b).length =
      ((List.range s.numKvCacheGroups).map fun g => ((hits.getD g []).filter fun b =>
        s.blockPool.refCnt b = 0 && !s.blockPool.isNull b).length).sum := by
    rw [sum_map_range_getD (f := fun l => (l.filter fun b =>
        s.blockPool.refCnt b = 0 && !s.blockPool.isNull b).length) hlength,
      filter_flatten, List.length_flatten, map_map]
    rfl
  rw [hqueued, Nat.cast_list_sum, map_map, ← sum_map_add]
  unfold KVCacheManager.getNumBlocksToAllocate
  congr 1
  apply map_congr_left
  intro g hg
  have htable := congrArg List.length (htables g (mem_range.mp hg))
  rw [length_append] at htable
  unfold SingleTypeManager.getNumBlocksToAllocate
  dsimp only [comp_apply]
  change _ - _ - ((s.tables (g, r)).length : ℤ) + _ = _
  rw [htable, Nat.cast_add]
  omega

/-! ### New blocks are found -/

/-- A fold over numbers returns or fails in a known way, if its steps do. -/
theorem foldlM_range_cases {ε σ : Type} {f : σ → ℕ → Except ε σ} {P : ℕ → σ → Prop}
    {E : ε → Prop} {n : ℕ} {x : σ} (start : P 0 x)
    (step : ∀ k < n, ∀ y, P k y →
      (∃ z, f y k = .ok z ∧ P (k + 1) z) ∨ ∃ e, f y k = .error e ∧ E e) :
    (∃ y, (List.range n).foldlM f x = .ok y ∧ P n y) ∨
      ∃ e, (List.range n).foldlM f x = .error e ∧ E e := by
  induction n with
  | zero => exact .inl ⟨x, rfl, start⟩
  | succ n ih =>
    rw [range_succ, foldlM_append]
    rcases ih fun k hk => step k (Nat.lt_succ_of_lt hk) with ⟨y, hy, hP⟩ | ⟨e, he, hfault⟩
    · rw [hy]
      rcases step n (Nat.lt_succ_self n) y hP with ⟨z, hz, hP⟩ | ⟨e, he, hfault⟩
      · exact .inl ⟨z, foldlM_cons_eq_ok.mpr ⟨z, hz, rfl⟩, hP⟩
      · refine .inr ⟨e, ?_, hfault⟩
        change [n].foldlM f y = _
        rw [foldlM_cons, he]
        rfl
    · rw [he]
      exact .inr ⟨e, rfl, hfault⟩

/-- The assertion of recurrent layers, which is no exception of the pool. -/
def mambaAssertion : KvError :=
  .assertionError "MambaManager should only allocate 1 block for each request."

def KVCacheSpec.isMamba : KVCacheSpec → Bool
  | .mamba _ _ _ _ _ => true
  | _ => false

/-- Behind the shared allocation only recurrent layers check anything. -/
theorem SingleTypeManager.allocateNewBlocks_cases {m m' : SingleTypeManager} {p p' : BlockPool}
    {blocks : List ℕ} (hspec : m'.kvCacheSpec = m.kvCacheSpec)
    (hok : m.allocateBlocks p r numTokens = .ok (blocks, m', p')) :
    m.allocateNewBlocks p r numTokens = .ok (blocks, m', p') ∨
      m.allocateNewBlocks p r numTokens = .error mambaAssertion ∧
        m.kvCacheSpec.isMamba = true := by
  unfold allocateNewBlocks
  rw [hok]
  simp only [bind, Except.bind]
  rw [← hspec]
  cases hm : m'.kvCacheSpec with
  | mamba blockSize shapes dtype pageSizePadded mambaType =>
    by_cases hone : (m'.reqToBlocks r).length = 1
    · rw [if_neg (not_not.mpr hone)]
      exact .inl rfl
    · rw [if_pos hone]
      exact .inr ⟨rfl, rfl⟩
  | _ => exact .inl rfl

/-- A group gets the blocks that it lacks from the front of the queue. -/
theorem allocateBlocks_isOk (hcons : Consistent env s free) {g numTokens : ℕ}
    (henough : cdiv numTokens (s.managers g).blockSize - (s.tables (g, r)).length ≤
      free.length) :
    ∃ blocks m p, (s.managers g).allocateBlocks s.blockPool r numTokens = .ok (blocks, m, p) ∧
      m.kvCacheSpec = (s.managers g).kvCacheSpec := by
  unfold SingleTypeManager.allocateBlocks
  by_cases hlong : cdiv numTokens (s.managers g).blockSize ≤ ((s.managers g).reqToBlocks r).length
  · rw [if_pos hlong]
    exact ⟨_, _, _, rfl, rfl⟩
  · rw [if_neg hlong]
    obtain ⟨p, hnew, -⟩ := hcons.sharing.valid.getNewBlocks henough
    exact ⟨_, _, p, bind_eq_ok.mpr ⟨_, hnew, rfl⟩, rfl⟩

/-- The blocks that the tables of a request lack for its tokens, in the first `n` groups. -/
def KVCacheManager.lacking (s : KVCacheManager) (r : String) (numTokens n : ℕ) : ℕ :=
  ((List.range n).map fun g =>
    cdiv numTokens (s.managers g).blockSize - (s.tables (g, r)).length).sum

theorem lacking_succ (s : KVCacheManager) (r : String) (numTokens n : ℕ) :
    s.lacking r numTokens (n + 1) = s.lacking r numTokens n +
      (cdiv numTokens (s.managers n).blockSize - (s.tables (n, r)).length) := by
  unfold lacking
  rw [range_succ, map_append, sum_append, map_singleton, sum_singleton]

theorem lacking_mono (s : KVCacheManager) (r : String) (numTokens : ℕ) {m n : ℕ} (h : m ≤ n) :
    s.lacking r numTokens m ≤ s.lacking r numTokens n := by
  induction h with
  | refl => exact le_rfl
  | step _ ih =>
    rw [lacking_succ]
    exact ih.trans (Nat.le_add_right _ _)

/-- If all groups together lack no more blocks than are free, new blocks are found for each of
them. Before group `k` the queue has lost what the groups before it have lacked. -/
theorem allocateNewBlocks_cases (hfree : env.CollisionFree) (hcons : Consistent env s free)
    (henough : s.lacking r numTokens s.numKvCacheGroups ≤ free.length) :
    (∃ t newBlocks, s.allocateNewBlocks r numTokens = .ok (t, newBlocks)) ∨
      s.allocateNewBlocks r numTokens = .error mambaAssertion ∧
        ∃ g < s.numKvCacheGroups, (s.spec g).isMamba = true := by
  have hloop := foldlM_range_cases (n := s.numKvCacheGroups)
    (x := (s, ([] : List (List ℕ))))
    (f := fun (x : KVCacheManager × List (List ℕ)) g => do
      let new ← (x.1.managers g).allocateNewBlocks x.1.blockPool r numTokens
      return (x.1.setGroup g new.2.1 new.2.2, x.2 ++ [new.1]))
    (P := fun k x => (∃ free', Moves env False (s, free) (x.1, free') ∧
        free'.length + s.lacking r numTokens k = free.length) ∧
      ∀ g, k ≤ g → x.1.tables (g, r) = s.tables (g, r))
    (E := fun e => e = mambaAssertion ∧
      ∃ g < s.numKvCacheGroups, (s.spec g).isMamba = true)
    ⟨⟨free, .refl, add_zero _⟩, fun _ _ => rfl⟩ ?_
  · rcases hloop with ⟨⟨t, newBlocks⟩, hok, -⟩ | ⟨e, herror, rfl, hmamba⟩
    · exact .inl ⟨t, newBlocks, hok⟩
    · exact .inr ⟨herror, hmamba⟩
  · rintro k hk ⟨s₁, _⟩ ⟨⟨free₁, hmoves, hlength⟩, hlater⟩
    obtain ⟨hcons₁, -⟩ := hmoves.consistent hfree hcons
    have hspec : (s₁.managers k).kvCacheSpec = (s.managers k).kvCacheSpec :=
      congrFun hmoves.sameShape.spec k
    have hsize : (s₁.managers k).blockSize = (s.managers k).blockSize :=
      congrArg KVCacheSpec.blockSize hspec
    have hlacking := lacking_succ s r numTokens k
    have hall : s.lacking r numTokens (k + 1) ≤ s.lacking r numTokens s.numKvCacheGroups :=
      lacking_mono s r numTokens hk
    have hfew : cdiv numTokens (s₁.managers k).blockSize - (s₁.tables (k, r)).length ≤
        free₁.length := by
      rw [hsize, hlater k (Nat.le_refl k)]
      omega
    obtain ⟨blocks, m, p, hblocks, hm⟩ := allocateBlocks_isOk hcons₁ hfew
    rcases SingleTypeManager.allocateNewBlocks_cases hm hblocks with hnew | ⟨herror, hmamba⟩
    · refine .inl ⟨_, bind_eq_ok.mpr ⟨_, hnew, rfl⟩, ?_, ?_⟩
      · rcases SingleTypeManager.allocateNewBlocks_eq_ok hnew with
          ⟨hlong, -, rfl, rfl⟩ | ⟨hshort, htake, rfl⟩
        · -- nothing is lacking in this group
          have hself : s₁.setGroup k (s₁.managers k) s₁.blockPool = s₁ := by
            rw [setGroup, update_eq_self]
          rw [hself]
          refine ⟨free₁, hmoves, ?_⟩
          have htable := hlater k (Nat.le_refl k)
          rw [hsize] at hlong
          change _ ≤ (s₁.tables (k, r)).length at hlong
          rw [htable] at hlong
          omega
        · have hgroup : k < s₁.numKvCacheGroups := by
            rw [hmoves.sameShape.numKvCacheGroups]
            exact hk
          refine ⟨_, hmoves.tail (Move.allocate hgroup htake), ?_⟩
          have htable := hlater k (Nat.le_refl k)
          change (free₁.drop (cdiv numTokens (s₁.managers k).blockSize -
            (s₁.tables (k, r)).length)).length + _ = _
          rw [length_drop, hsize, htable]
          omega
      · intro g hg
        have hne : g ≠ k := by omega
        rw [tables_setGroup, if_neg hne]
        exact hlater g (by omega)
    · refine .inr ⟨mambaAssertion, ?_, rfl, k, hk, ?_⟩
      · rw [herror]
        rfl
      · unfold KVCacheManager.spec
        rw [← hspec]
        exact hmamba

/-! ### All or nothing -/

/-- Some blocks of the request that are no longer attended to were released, and the null block
stands in their place; the rest is as before. -/
structure KVCacheManager.OnlySkipped (s s' : KVCacheManager) (r : String)
    (numComputedTokens : ℕ) : Prop where
  shape : SameShape s s'
  hashes : s'.reqToBlockHashes = s.reqToBlockHashes
  numCached : ∀ g, (s'.managers g).numCachedBlock = (s.managers g).numCachedBlock
  /-- Of the pool only the counts and the queue differ. -/
  pool : ∃ refCnt queue, s'.blockPool = { s.blockPool with refCnt, freeBlockQueue := queue }
  others : ∀ g r', r' ≠ r → s'.tables (g, r') = s.tables (g, r')
  length : ∀ g, (s'.tables (g, r)).length = (s.tables (g, r)).length
  table : ∀ g i, (s'.tables (g, r))[i]? = (s.tables (g, r))[i]? ∨
    i < (s.managers g).numSkippedBlocks r numComputedTokens ∧
      (s'.tables (g, r))[i]? = some s.blockPool.nullBlock

theorem removeLoop_entries {nullBlock n : ℕ} {blocks blocks' removed : List ℕ}
    (hok : SingleTypeManager.removeLoop nullBlock n blocks = .ok (blocks', removed)) (i : ℕ) :
    blocks'[i]? = blocks[i]? ∨ i < n ∧ blocks'[i]? = some nullBlock := by
  obtain ⟨hkept, hlater, hlength⟩ := removeLoop_getElem? hok
  rcases lt_or_ge i n with hlt | hge
  · cases hi : blocks'[i]? with
    | none =>
      rw [List.getElem?_eq_none_iff, hlength, ← List.getElem?_eq_none_iff] at hi
      exact .inl hi.symm
    | some b =>
      by_cases hb : b = nullBlock
      · exact .inr ⟨hlt, by rw [hb]⟩
      · exact .inl (hkept i b hi hb).symm
  · exact .inl (hlater i hge)

theorem onlySkipped_removeSkippedBlocks {numComputedTokens : ℕ}
    (hok : s.removeSkippedBlocks r numComputedTokens = .ok s') :
    s.OnlySkipped s' r numComputedTokens := by
  obtain ⟨⟨_, hmoves⟩, hskipped⟩ := moves_removeSkippedBlocks encodedHash False hok []
  have hshape : SameShape s s' := hmoves.sameShape
  have hloop := foldlM_range (P := fun k s' =>
    (∃ refCnt queue, s'.blockPool = { s.blockPool with refCnt, freeBlockQueue := queue }) ∧
      (∀ g i, (s'.tables (g, r))[i]? = (s.tables (g, r))[i]? ∨
        i < (s.managers g).numSkippedBlocks r numComputedTokens ∧
          (s'.tables (g, r))[i]? = some s.blockPool.nullBlock) ∧
      ∀ g, k ≤ g → s'.managers g = s.managers g) hok
    ⟨⟨_, _, rfl⟩, fun _ _ => .inl rfl, fun _ _ => rfl⟩ ?_
  · exact ⟨hshape, hskipped.hashes, hskipped.numCached, hloop.1, hskipped.others, hskipped.length,
      hloop.2.1⟩
  · rintro k - s₁ _ ⟨⟨refCnt, queue, hpool⟩, htable, hlater⟩ hstep
    obtain ⟨⟨_, _⟩, hremove, hstep⟩ := bind_eq_ok.mp hstep
    obtain rfl := ok.inj hstep
    obtain ⟨⟨_, removed⟩, hremoved, hremove⟩ := bind_eq_ok.mp hremove
    obtain ⟨p', hfree, hremove⟩ := bind_eq_ok.mp hremove
    obtain ⟨rfl, rfl⟩ := Prod.mk.inj (ok.inj hremove)
    obtain ⟨queue', hp⟩ := BlockPool.freeBlocks_eq_ok hfree
    have hnull : s₁.blockPool.nullBlock = s.blockPool.nullBlock := by rw [hpool]
    refine ⟨⟨fun b => s₁.blockPool.refCnt b - removed.count b, queue', ?_⟩, ?_, ?_⟩
    · change p' = _
      rw [hp, hpool]
    · intro g i
      rw [tables_setBlocks]
      by_cases hg : g = k
      · subst hg
        rw [update_self]
        have hentry := removeLoop_entries hremoved i
        rw [hlater g (Nat.le_refl g), hnull] at hentry
        exact hentry
      · rw [update_of_ne fun hx => hg (Prod.mk.inj hx).1]
        exact htable g i
    · intro g hg
      rw [managers_setGroup_of_ne (by omega)]
      exact hlater g (by omega)

/-- The tokens that an allocation needs slots for. -/
def KVCacheManager.numTokensNeedSlot (s : KVCacheManager) (q : Request)
    (numNewTokens numNewComputedTokens numLookaheadTokens : ℕ) : ℕ :=
  min (q.numComputedTokens + numNewComputedTokens + numNewTokens + numLookaheadTokens)
    s.maxModelLen

/-- An allocation that is refused has only released skipped blocks; one that is admitted and has
taken its hits finds its new blocks; and one that returns new blocks has appended exactly them, so
that every group has enough. -/
structure KVCacheManager.AllOrNothing (env : HashEnv) (s : KVCacheManager) (q : Request)
    (numNewTokens numNewComputedTokens : ℕ) (hits : List (List ℕ)) (numLookaheadTokens : ℕ)
    (delayCacheBlocks : Bool) : Prop where
  refused : ∀ t, s.allocateSlots env q numNewTokens numNewComputedTokens hits numLookaheadTokens
      delayCacheBlocks = .ok (t, none) →
    s.OnlySkipped t q.requestId q.numComputedTokens ∧ t.Conserved
  admitted : ∀ s₁ s₂ numTokens,
    numTokens = s.numTokensNeedSlot q numNewTokens numNewComputedTokens numLookaheadTokens →
    s.removeSkippedBlocks q.requestId q.numComputedTokens = .ok s₁ →
    s₁.getNumBlocksToAllocate q.requestId numTokens hits ≤ s₁.blockPool.getNumFreeBlocks →
    s₁.takeComputedBlocks q.requestId hits = .ok s₂ →
    (∃ t newBlocks, s₂.allocateNewBlocks q.requestId numTokens = .ok (t, newBlocks)) ∨
      s₂.allocateNewBlocks q.requestId numTokens = .error mambaAssertion ∧
        ∃ g < s.numKvCacheGroups, (s.spec g).isMamba = true
  granted : ∀ t newBlocks, s.allocateSlots env q numNewTokens numNewComputedTokens hits
      numLookaheadTokens delayCacheBlocks = .ok (t, some newBlocks) →
    newBlocks.length = s.numKvCacheGroups ∧
      (∀ g r', r' ≠ q.requestId → t.tables (g, r') = s.tables (g, r')) ∧
      ∃ s₁, s.OnlySkipped s₁ q.requestId q.numComputedTokens ∧
        ∀ g < s.numKvCacheGroups,
          t.tables (g, q.requestId) =
            s₁.tables (g, q.requestId) ++ hits.getD g [] ++ newBlocks.getD g [] ∧
          cdiv (s.numTokensNeedSlot q numNewTokens numNewComputedTokens numLookaheadTokens)
            (s.managers g).blockSize ≤ (t.tables (g, q.requestId)).length

section Admission

variable {q : Request} {numNewTokens numNewComputedTokens numLookaheadTokens numTokens : ℕ}
  {delayCacheBlocks : Bool}

/-- What the test of the free blocks is for: behind it no group lacks more than there is. -/
theorem lacking_le_of_admitted (hfree : env.CollisionFree) (hcons : Consistent env s free)
    (heven : s.Even)
    (hhits : Hits s.blockPool s.spec (s.reqToBlockHashes r) s.numKvCacheGroups hits)
    (hevenHits : s.EvenHits hits)
    (hroom : s.getNumBlocksToAllocate r numTokens hits ≤ s.blockPool.getNumFreeBlocks)
    (htake : s.takeComputedBlocks r hits = .ok t) :
    ∃ free', Consistent env t free' ∧ t.lacking r numTokens t.numKvCacheGroups ≤ free'.length := by
  have hmove := move_takeComputedBlocks env False hhits htake free
  have hshape : SameShape s t := hmove.sameShape
  obtain ⟨hcons', -⟩ := hmove.consistent hfree hcons
  refine ⟨free.diff hits.flatten, hcons', ?_⟩
  have hsize : ∀ g, (t.managers g).blockSize = (s.managers g).blockSize :=
    fun g => congrArg KVCacheSpec.blockSize (congrFun hshape.spec g)
  have hlength : hits.length = s.numKvCacheGroups := by simpa using hhits.length_eq.symm
  have htables := tables_takeComputedBlocks htake
  rw [getNumBlocksToAllocate_eq hlength fun g hg => (htables g hg).1,
    hcons.sharing.valid.getNumFreeBlocks] at hroom
  -- the tables cover the same tokens in all groups, either fewer than are needed or not
  have hsign : (∀ g < s.numKvCacheGroups,
      cdiv numTokens (s.managers g).blockSize ≤ (t.tables (g, r)).length) ∨
      ∀ g < s.numKvCacheGroups,
        (t.tables (g, r)).length ≤ cdiv numTokens (s.managers g).blockSize := by
    obtain ⟨covered, hcovered⟩ := even_takeComputedBlocks heven hevenHits htake r
    rw [hshape.numKvCacheGroups] at hcovered
    rcases le_total numTokens covered with hle | hle
    · refine .inl fun g hg => ?_
      rw [hcovered g hg, hsize]
      exact cdiv_mono hle _
    · refine .inr fun g hg => ?_
      rw [hcovered g hg, hsize]
      exact cdiv_mono hle _
  have hsum := sum_sub_le hsign
  have hlacking : t.lacking r numTokens t.numKvCacheGroups =
      ((List.range s.numKvCacheGroups).map fun g =>
        cdiv numTokens (s.managers g).blockSize - (t.tables (g, r)).length).sum := by
    unfold KVCacheManager.lacking
    rw [hshape.numKvCacheGroups]
    simp only [hsize]
  -- the hits that leave the queue were counted
  have hqueued : (hits.flatten.filter fun b => b ∈ free).length ≤
      (hits.flatten.filter fun b =>
        s.blockPool.refCnt b = 0 && !s.blockPool.isNull b).length := by
    rw [← countP_eq_length_filter, ← countP_eq_length_filter]
    apply countP_mono_left
    intro b _ hb
    obtain ⟨-, hnull, hzero⟩ := (hcons.sharing.valid.mem_free b).mp (of_decide_eq_true hb)
    unfold BlockPool.isNull
    simp [hzero, hnull]
  have hdiff := length_le_length_diff free hits.flatten
  omega

/-- Allocations with hits that a lookup has found are all or nothing. -/
theorem allOrNothing_of_consistent (hfree : env.CollisionFree) (hcons : Consistent env s free)
    (heven : s.Even)
    (hhits : Hits s.blockPool s.spec (s.reqToBlockHashes q.requestId) s.numKvCacheGroups hits)
    (hevenHits : s.EvenHits hits) :
    s.AllOrNothing env q numNewTokens numNewComputedTokens hits numLookaheadTokens
      delayCacheBlocks := by
  constructor
  case refused =>
    intro t hok
    unfold KVCacheManager.allocateSlots at hok
    split at hok
    · cases hok
    obtain ⟨s₁, hskip, hok⟩ := bind_eq_ok.mp hok
    obtain ⟨⟨free₁, hmoves⟩, -⟩ := moves_removeSkippedBlocks env False hskip free
    dsimp only at hok
    split at hok
    · cases hok
      exact ⟨onlySkipped_removeSkippedBlocks hskip, (hmoves.consistent hfree hcons).1.conserved⟩
    · -- behind the test there is always a result
      obtain ⟨s₂, -, hok⟩ := bind_eq_ok.mp hok
      obtain ⟨⟨s₃, blocks⟩, -, hok⟩ := bind_eq_ok.mp hok
      split at hok
      · cases (Prod.mk.inj (ok.inj hok)).2
      · obtain ⟨s₄, -, hok⟩ := bind_eq_ok.mp hok
        cases (Prod.mk.inj (ok.inj hok)).2
  case admitted =>
    intro s₁ s₂ numTokens _ hskip hroom htake
    obtain ⟨⟨free₁, hmoves⟩, hskipped⟩ := moves_removeSkippedBlocks env False hskip free
    obtain ⟨hcons₁, -⟩ := hmoves.consistent hfree hcons
    have hshape : SameShape s s₁ := hmoves.sameShape
    have hevenHits₁ : s₁.EvenHits hits := by
      obtain ⟨hitLength, hlength⟩ := hevenHits
      refine ⟨hitLength, fun g hg => ?_⟩
      rw [hshape.numKvCacheGroups] at hg
      rw [(onlyTable_removeSkippedBlocks hskip).1.blockSize]
      exact hlength g hg
    obtain ⟨_, hcons₂, hlacking⟩ := lacking_le_of_admitted hfree hcons₁
      (even_removeSkippedBlocks heven hskip) (hskipped.hits hshape hhits) hevenHits₁ hroom htake
    have hshape₂ := hshape.trans (onlyTable_takeComputedBlocks htake).1.shape
    rcases allocateNewBlocks_cases hfree hcons₂ hlacking with hok | ⟨herror, g, hg, hmamba⟩
    · exact .inl hok
    · rw [hshape₂.numKvCacheGroups] at hg
      rw [hshape₂.spec] at hmamba
      exact .inr ⟨herror, g, hg, hmamba⟩
  case granted =>
    intro t newBlocks hok
    unfold KVCacheManager.allocateSlots at hok
    split at hok
    · cases hok
    obtain ⟨s₁, hskip, hok⟩ := bind_eq_ok.mp hok
    obtain ⟨honly₁, -⟩ := onlyTable_removeSkippedBlocks hskip
    dsimp only at hok
    split at hok
    · cases (Prod.mk.inj (ok.inj hok)).2
    obtain ⟨s₂, htake, hok⟩ := bind_eq_ok.mp hok
    obtain ⟨⟨s₃, blocks⟩, halloc, hok⟩ := bind_eq_ok.mp hok
    obtain ⟨honly₂, -⟩ := onlyTable_takeComputedBlocks htake
    obtain ⟨honly₃, hgroups, htables, hlength⟩ := onlyTable_allocateNewBlocks halloc
    have hlast : t.tables = s₃.tables ∧ blocks = newBlocks := by
      dsimp only at hok
      split at hok
      · obtain ⟨rfl, hblocks⟩ := Prod.mk.inj (ok.inj hok)
        exact ⟨rfl, Option.some.inj hblocks⟩
      · obtain ⟨s₄, hcache, hok⟩ := bind_eq_ok.mp hok
        obtain ⟨rfl, hblocks⟩ := Prod.mk.inj (ok.inj hok)
        exact ⟨(cacheBlocks_tables hcache).2, Option.some.inj hblocks⟩
    obtain ⟨hlast, rfl⟩ := hlast
    have honly := honly₁.trans honly₂
    have hnum := honly.shape.numKvCacheGroups
    refine ⟨hgroups.trans hnum, ?_, s₁, onlySkipped_removeSkippedBlocks hskip, fun g hg => ?_⟩
    · intro g r' hr
      rw [hlast]
      exact (honly.trans honly₃).others g r' hr
    · have htaken := (tables_takeComputedBlocks htake g
        (honly₁.shape.numKvCacheGroups ▸ hg)).1
      have hlong := hlength g (hnum ▸ hg)
      rw [honly.blockSize, honly₁.shape.maxModelLen] at hlong
      rw [hlast]
      constructor
      · rw [htables, htaken]
      · rw [hlong]
        exact le_max_right _ _

end Admission

/-! ### Runs -/

/-- The hits that the scheduler passes on: those of a lookup just before, or none. -/
inductive Offered (env : HashEnv) (s : KVCacheManager) (q : Request) :
    KVCacheManager → List (List ℕ) → ℕ → Prop
  | found {s₁ hits hitLength}
      (lookup : s.getComputedBlocks env q = .ok (s₁, hits, hitLength)) :
      Offered env s q s₁ hits hitLength
  | none : Offered env s q s s.createEmptyBlockList 0

theorem even_new {cfg : KVCacheConfig} {maxModelLen : ℕ}
    {enableCaching useEagle enableKvCacheEvents : Bool}
    (hnew : new cfg maxModelLen enableCaching useEagle enableKvCacheEvents = .ok s) : s.Even := by
  obtain ⟨-, -, hempty, -⟩ := new_eq_ok hnew
  intro r
  refine ⟨0, fun g _ => ?_⟩
  rw [cdiv_zero_left]
  exact congrArg List.length (hempty g r).1

theorem even_of_execution (hfree : env.CollisionFree) (hcons : Consistent env s free)
    (heven : s.Even) {calls : List Call}
    (run : Transition.Execution (NullFreeStep env) s calls s') : s'.Even := by
  induction run with
  | start => exact heven
  | extend run last ih =>
    obtain ⟨_, hmoves⟩ := moves_of_execution hfree hcons run
    obtain ⟨hcons', -⟩ := hmoves.consistent hfree hcons
    exact Step.even hcons'.wellFormed ih last.2

/-- In every run that caches no null block, each further allocation is all or nothing. -/
theorem allOrNothing_of_run (hfree : env.CollisionFree) {cfg : KVCacheConfig} {maxModelLen : ℕ}
    {enableCaching useEagle enableKvCacheEvents : Bool}
    (hnew : new cfg maxModelLen enableCaching useEagle enableKvCacheEvents = .ok s)
    {calls : List Call} (run : Transition.Execution (NullFreeStep env) s calls s') :
    ∀ q s₁ hits hitLength, Offered env s' q s₁ hits hitLength →
      ∀ numNewTokens numLookaheadTokens delayCacheBlocks,
        s₁.AllOrNothing env q numNewTokens hitLength hits numLookaheadTokens
          delayCacheBlocks := by
  obtain ⟨_, hcons⟩ := consistent_new hnew
  obtain ⟨_, hmoves⟩ := moves_of_execution hfree hcons run
  obtain ⟨hcons', -⟩ := hmoves.consistent hfree hcons
  have heven := even_of_execution hfree hcons (even_new hnew) run
  intro q s₁ hits hitLength hoffered numNewTokens numLookaheadTokens delayCacheBlocks
  cases hoffered with
  | found lookup =>
    obtain ⟨hmoves₁, hhits, -⟩ := moves_getComputedBlocks False hcons' lookup
    obtain ⟨hcons₁, -⟩ := hmoves₁.consistent hfree hcons'
    obtain ⟨hshape, htables, -⟩ := getComputedBlocks_tables lookup
    exact allOrNothing_of_consistent hfree hcons₁ (even_of_tables hshape htables heven) hhits
      (evenHits_getComputedBlocks hcons'.wellFormed lookup)
  | none =>
    exact allOrNothing_of_consistent hfree hcons' heven (hits_createEmptyBlockList s' _ _ _)
      (evenHits_empty s')

/-! ### A queue that is shorter than its count -/

section Example

/-- The exception of an allocation that was admitted. -/
def admittedError (env : HashEnv) (s : KVCacheManager) (q : Request) (numNewTokens : ℕ) :
    Except KvError (Option KvError) := do
  let (s, hits, hitLength) ← s.getComputedBlocks env q
  let numTokens := s.numTokensNeedSlot q numNewTokens hitLength 0
  let s ← s.removeSkippedBlocks q.requestId q.numComputedTokens
  if s.getNumBlocksToAllocate q.requestId numTokens hits ≤ s.blockPool.getNumFreeBlocks then
    let s ← s.takeComputedBlocks q.requestId hits
    match s.allocateNewBlocks q.requestId numTokens with
    | .ok _ => return none
    | .error e => return some e
  else return none

theorem not_allOrNothing_of_error {q : Request} {numNewTokens : ℕ} {e : KvError}
    (herror : admittedError env s q numNewTokens = .ok (some e)) (he : e ≠ mambaAssertion) :
    ∃ s₁ hits hitLength, Offered env s q s₁ hits hitLength ∧
      ¬ s₁.AllOrNothing env q numNewTokens hitLength hits 0 false := by
  obtain ⟨⟨s₁, hits, hitLength⟩, hget, herror⟩ := bind_eq_ok.mp herror
  obtain ⟨s₂, hskip, herror⟩ := bind_eq_ok.mp herror
  refine ⟨s₁, hits, hitLength, .found hget, fun hall => ?_⟩
  split at herror
  · rename_i hroom
    obtain ⟨s₃, htake, herror⟩ := bind_eq_ok.mp herror
    rcases hall.admitted s₂ s₃ _ rfl hskip hroom htake with ⟨t, newBlocks, hok⟩ | ⟨hmamba, -⟩
    · rw [hok] at herror
      cases herror
    · rw [hmamba] at herror
      exact he (Option.some.inj (ok.inj herror)).symm
  · cases herror

/-- After the run that releases a block twice, an allocation of nine blocks is admitted, but the
queue holds eight. -/
theorem not_allOrNothing : ¬ ∀ (env : HashEnv) (cfg : KVCacheConfig) (maxModelLen : ℕ)
    (enableCaching useEagle enableKvCacheEvents : Bool) (s s' : KVCacheManager)
    (calls : List Call), env.CollisionFree →
      new cfg maxModelLen enableCaching useEagle enableKvCacheEvents = .ok s →
      Transition.Execution (Step env) s calls s' →
      ∀ q s₁ hits hitLength, Offered env s' q s₁ hits hitLength →
        ∀ numNewTokens numLookaheadTokens delayCacheBlocks,
          s₁.AllOrNothing env q numNewTokens hitLength hits numLookaheadTokens
            delayCacheBlocks := by
  intro h
  have hfinal : (finalState (localAndFull 12) blockTakenTwiceCalls).map (fun s =>
      (admittedError encodedHash s (zeros "c" 22 0) 14).toOption) =
        some (some (some (.assertionError ""))) := by
    decide +kernel
  obtain ⟨s', hs', herror⟩ := Option.map_eq_some_iff.mp hfinal
  obtain ⟨s, hnew, hrun⟩ := finalState_eq_some hs'
  have hmessage : KvError.assertionError "" ≠ mambaAssertion := by decide
  obtain ⟨s₁, hits, hitLength, hoffered, hnot⟩ :=
    not_allOrNothing_of_error (toOption_eq_some.mp herror) hmessage
  exact hnot (h encodedHash (localAndFull 12) 100 true false false s s' blockTakenTwiceCalls
    encodedHash_collisionFree hnew hrun (zeros "c" 22 0) s₁ hits hitLength hoffered 14 0 false)

/-- Allocations are all or nothing when a request has hit three blocks of another one. -/
theorem allOrNothing_hit_after_finish :
    ∃ s s', new (localAndFull 12) 100 true false false = .ok s ∧
    Transition.Execution (NullFreeStep encodedHash) s hitAfterFinishCalls s' ∧
    s'.tables (1, "b") = [4, 5, 6, 8] ∧
    ∀ q s₁ hits hitLength, Offered encodedHash s' q s₁ hits hitLength →
      ∀ numNewTokens numLookaheadTokens delayCacheBlocks,
        s₁.AllOrNothing encodedHash q numNewTokens hitLength hits numLookaheadTokens
          delayCacheBlocks := by
  obtain ⟨s, s', hnew, hrun, htable⟩ := run_hit_after_finish
  exact ⟨s, s', hnew, hrun, htable, allOrNothing_of_run encodedHash_collisionFree hnew hrun⟩

end Example

end Kv
