import Mosaic.Graph.Outputs

/-!
# Aliases

A tensor with an alias is forced onto its target, whatever else lies there by then. While both are
live the live blocks are not separate any more, and the gap scan, which remembers only where the
last block ended, may take a part of the longer one for a gap.
-/

namespace Graph

open List Fallible

variable {ν : Type} [DecidableEq ν]

/-- The graphs that are accepted call by call. -/
inductive Built : CustomGraph ν → Prop where
  | empty : Built (.empty ν)
  | addOp {g g' : CustomGraph ν} {outputName : ν} {opType : String} {inputNames : List ν}
      {shape : List ℕ} {dtype : Dtype} (built : Built g)
      (added : g.addOp outputName opType inputNames shape dtype = .ok g') : Built g'
  | addAlias {g g' : CustomGraph ν} {sourceName targetName : ν} (built : Built g)
      (added : g.addAlias sourceName targetName = .ok g') : Built g'

/-- The target that a tensor is forced onto. The latest alias of a tensor counts. -/
def aliasTarget (g : CustomGraph ν) (name : ν) : Option ν :=
  (g.aliases.find? fun link => link.1 = name).map Prod.snd

/-- The target of an alias is produced before its source. -/
def TargetsFirst (g : CustomGraph ν) : Prop :=
  ∀ source target, aliasTarget g source = some target → births g target < births g source

/-- No aliased tensor shares a byte with a tensor that is live at its birth, its target apart, and
no tensor that is placed after it shares one with a tensor that is live at its own birth. -/
structure AliasSound (g : CustomGraph ν) (plan : ReusePlan ν) : Prop where
  sources : ∀ (j : ℕ) (source : OpNode ν) (target : ν), g.executionOrder[j]? = some source →
    0 < source.sizeBytes → aliasTarget g source.outputName = some target →
    ∀ earlier ∈ liveNodes g j, earlier.outputName ≠ target →
      FirstFit.Separate Block.start Block.stop (nodeBlock plan earlier) (nodeBlock plan source)
  later : ∀ (i j : ℕ) (source node : OpNode ν), i < j → g.executionOrder[i]? = some source →
    (aliasTarget g source.outputName).isSome → g.executionOrder[j]? = some node →
    0 < node.sizeBytes → aliasTarget g node.outputName = none →
    ∀ earlier ∈ liveNodes g j,
      FirstFit.Separate Block.start Block.stop (nodeBlock plan earlier) (nodeBlock plan node)

/-- The tensor that a tensor is forced onto in the end, if at most so many aliases lead there. -/
def ownerIn (g : CustomGraph ν) : ℕ → ν → ν
  | 0, name => name
  | n + 1, name =>
    match aliasTarget g name with
    | some target => ownerIn g n target
    | none => name

/-- The tensor whose place a tensor has. -/
def owner (g : CustomGraph ν) (name : ν) : ν := ownerIn g g.executionOrder.length name

/-- Two tensors are needed at the same time: one of them is live at the birth of the other. -/
def Together (g : CustomGraph ν) (one other : OpNode ν) : Prop :=
  one ∈ liveNodes g (births g other.outputName) ∨ other ∈ liveNodes g (births g one.outputName)

instance (g : CustomGraph ν) (one other : OpNode ν) : Decidable (Together g one other) :=
  inferInstanceAs (Decidable (_ ∨ _))

/-- The tensors that have the place of a node at some time, each with a tensor that is needed at the
same time and has a place that was chosen before. -/
def rivals (g : CustomGraph ν) (node : OpNode ν) : List (OpNode ν × OpNode ν) :=
  (g.executionOrder ×ˢ g.executionOrder).filter fun pair =>
    0 < pair.1.sizeBytes ∧ owner g pair.1.outputName = node.outputName ∧ 0 < pair.2.sizeBytes ∧
      births g (owner g pair.2.outputName) < births g node.outputName ∧ Together g pair.1 pair.2

/-- The ranges that the bytes of a node have to miss so that every tensor in its place misses its
rival. -/
def reserved (g : CustomGraph ν) (offsets : ν → ℕ) (node : OpNode ν) : List (ℕ × ℕ) :=
  (rivals g node).map fun (user, rival) =>
    (offsets (owner g rival.outputName) + (node.sizeBytes - user.sizeBytes),
      offsets (owner g rival.outputName) + rival.sizeBytes)

/-- Aliased tensors on their targets, and the others at the least offset at which no tensor that
ever has the place meets another one that is needed at the same time. -/
def reservedLayout (g : CustomGraph ν) : ν → ℕ :=
  layout g fun offsets _ node =>
    match aliasTarget g node.outputName with
    | some target => offsets target
    | none => FirstFit.leastOffset Prod.fst Prod.snd node.sizeBytes (reserved g offsets node)

/-- The blocks in that layout that are live at a position. -/
def reservedBlocks (g : CustomGraph ν) (j : ℕ) : List (Block ν) :=
  (liveNodes g j).map (blockAt (reservedLayout g))

/-- Two tensors with one place are needed at the same time only as target and source. -/
def SharedInTurn (g : CustomGraph ν) : Prop :=
  ∀ later ∈ g.executionOrder, 0 < later.sizeBytes →
    ∀ earlier ∈ liveNodes g (births g later.outputName),
      owner g earlier.outputName = owner g later.outputName →
        aliasTarget g later.outputName = some earlier.outputName

/-- When the places of the targets happen to be free for their sources, and the scan is not misled
by a source that is shorter than its target. -/
structure PlacesKept (g : CustomGraph ν) : Prop where
  inTurn : SharedInTurn g
  /-- In the layout, no tensor would fit lower among the live tensors alone. -/
  lowest : ∀ (j : ℕ) (node : OpNode ν), g.executionOrder[j]? = some node → 0 < node.sizeBytes →
    aliasTarget g node.outputName = none → ∀ offset < reservedLayout g node.outputName,
      offset ∉ FirstFit.Feasible Block.start Block.stop node.sizeBytes (reservedBlocks g j)
  /-- A tensor that is placed while a target and its shorter source are live lies below them, or it
  does not fit behind the source. -/
  gaps : ∀ (j : ℕ) (node : OpNode ν), g.executionOrder[j]? = some node → 0 < node.sizeBytes →
    aliasTarget g node.outputName = none →
    ∀ target ∈ liveNodes g j, ∀ source ∈ liveNodes g j,
      aliasTarget g source.outputName = some target.outputName →
      source.sizeBytes < target.sizeBytes →
        reservedLayout g node.outputName < reservedLayout g target.outputName ∨
          ∃ other ∈ liveNodes g j,
            reservedLayout g target.outputName < reservedLayout g other.outputName ∧
              reservedLayout g other.outputName <
                reservedLayout g target.outputName + source.sizeBytes + node.sizeBytes

section Building

variable {g : CustomGraph ν}

/-- An aliased tensor is not larger than its target. -/
theorem Built.fits (h : Built g) : ∀ link ∈ g.aliases, ∃ source target,
    source ∈ g.executionOrder ∧ target ∈ g.executionOrder ∧ source.outputName = link.1 ∧
      target.outputName = link.2 ∧ source.sizeBytes ≤ target.sizeBytes := by
  induction h with
  | empty => exact nofun
  | addOp _ added ih =>
    obtain ⟨horder, haliases⟩ := CustomGraph.addOp_eq_ok added
    rw [horder, haliases]
    intro link hlink
    obtain ⟨source, target, hsrc, htarget, hrest⟩ := ih link hlink
    exact ⟨source, target, mem_append_left _ hsrc, mem_append_left _ htarget, hrest⟩
  | addAlias _ added ih =>
    unfold CustomGraph.addAlias at added
    split at added
    · rename_i source target hsrc htarget
      split at added
      · cases added
      · rename_i hsize
        cases added
        intro link hlink
        rcases mem_cons.mp hlink with rfl | hold
        · exact ⟨source, target, mem_of_find?_eq_some hsrc,
            mem_of_find?_eq_some htarget, by simpa using find?_some hsrc,
            by simpa using find?_some htarget, by omega⟩
        · exact ih link hold
    · cases added

/-- The target of a nonempty tensor is a nonempty tensor before it. -/
theorem Built.target_before (h : Built g) (first : TargetsFirst g) {j : ℕ} {source : OpNode ν}
    {target : ν} (hj : g.executionOrder[j]? = some source) (hpos : 0 < source.sizeBytes)
    (halias : aliasTarget g source.outputName = some target) :
    ∃ i < j, ∃ producer, g.executionOrder[i]? = some producer ∧ producer.outputName = target ∧
      source.sizeBytes ≤ producer.sizeBytes := by
  obtain ⟨link, hfind, rfl⟩ := Option.map_eq_some_iff.mp halias
  obtain ⟨_, producer, hnode, hprod, hname, htarget, hsize⟩ :=
    h.fits link (mem_of_find?_eq_some hfind)
  have hlink : link.1 = source.outputName := by simpa using find?_some hfind
  obtain ⟨_, hk⟩ := mem_iff_getElem?.mp hnode
  obtain rfl := g.eq_of_outputName_eq hk hj (hname.trans hlink)
  obtain rfl := Option.some.inj (hk.symm.trans hj)
  obtain ⟨i, hi⟩ := mem_iff_getElem?.mp hprod
  have hlt := first _ _ halias
  rw [births_eq g hj, ← htarget, births_eq g hi] at hlt
  exact ⟨i, hlt, producer, hi, htarget, hsize⟩

theorem Built.aliasesReady (h : Built g) (first : TargetsFirst g) : AliasesReady g := by
  intro j node hj hpos source target hfind
  have halias : aliasTarget g node.outputName = some target := by
    rw [aliasTarget, hfind]
    rfl
  obtain ⟨i, hi, producer, hprod, hname, hsize⟩ := h.target_before first hj hpos halias
  exact ⟨producer, mem_take_iff.mpr ⟨i, hi, hprod⟩, hname, by omega⟩

theorem find?_aliases_eq_none {name : ν} (h : aliasTarget g name = none) :
    g.aliases.find? (fun link => link.1 = name) = none :=
  Option.map_eq_none_iff.mp h

end Building

/-! ### Owners -/

theorem ownerIn_of_none {g : CustomGraph ν} {name : ν} (halias : aliasTarget g name = none)
    (n : ℕ) : ownerIn g n name = name := by
  cases n with
  | zero => rfl
  | succ n => rw [ownerIn, halias]

theorem ownerIn_of_some {g : CustomGraph ν} {name target : ν}
    (halias : aliasTarget g name = some target) (n : ℕ) :
    ownerIn g (n + 1) name = ownerIn g n target := by
  rw [ownerIn, halias]

theorem owner_of_none {g : CustomGraph ν} {name : ν} (halias : aliasTarget g name = none) :
    owner g name = name :=
  ownerIn_of_none halias _

section Layouts

variable {g : CustomGraph ν} {plan : ReusePlan ν} {i j : ℕ} {node earlier : OpNode ν}

section Owners

variable (built : Built g) (first : TargetsFirst g)
include built first

/-- No more aliases lead on from a tensor than tensors were born before it. -/
theorem ownerIn_stable (hj : g.executionOrder[j]? = some node) (hpos : 0 < node.sizeBytes) {n m : ℕ}
    (hn : j ≤ n) (hm : j ≤ m) : ownerIn g n node.outputName = ownerIn g m node.outputName := by
  induction j using Nat.strong_induction_on generalizing node n m with
  | h j ih =>
    cases halias : aliasTarget g node.outputName with
    | none => rw [ownerIn_of_none halias, ownerIn_of_none halias]
    | some target =>
      obtain ⟨i, hi, producer, hprod, rfl, hsize⟩ := built.target_before first hj hpos halias
      obtain ⟨n, rfl⟩ := Nat.exists_eq_add_one_of_ne_zero (show n ≠ 0 by omega)
      obtain ⟨m, rfl⟩ := Nat.exists_eq_add_one_of_ne_zero (show m ≠ 0 by omega)
      rw [ownerIn_of_some halias, ownerIn_of_some halias]
      exact ih i hi hprod (by omega) (by omega) (by omega)

theorem owner_target (hj : g.executionOrder[j]? = some node) (hpos : 0 < node.sizeBytes)
    {target : ν} (halias : aliasTarget g node.outputName = some target) :
    owner g node.outputName = owner g target := by
  obtain ⟨i, hi, producer, hprod, rfl, hsize⟩ := built.target_before first hj hpos halias
  obtain ⟨hlt, -⟩ := List.getElem?_eq_some_iff.mp hj
  rw [owner, ownerIn_stable built first hj hpos hlt.le (Nat.le_succ_of_le hlt.le),
    ownerIn_of_some halias]
  rfl

/-- Aliases lead to a tensor that has a place of its own, which is large enough. -/
theorem exists_owner (hj : g.executionOrder[j]? = some node) (hpos : 0 < node.sizeBytes) :
    ∃ i ≤ j, ∃ place, g.executionOrder[i]? = some place ∧
      place.outputName = owner g node.outputName ∧ node.sizeBytes ≤ place.sizeBytes ∧
        aliasTarget g place.outputName = none := by
  induction j using Nat.strong_induction_on generalizing node with
  | h j ih =>
    cases halias : aliasTarget g node.outputName with
    | none => exact ⟨j, le_rfl, node, hj, (owner_of_none halias).symm, le_rfl, halias⟩
    | some target =>
      rw [owner_target built first hj hpos halias]
      obtain ⟨i, hi, producer, hprod, rfl, hsize⟩ := built.target_before first hj hpos halias
      obtain ⟨k, hk, place, hplace, hname, hfits, hown⟩ := ih i hi hprod (by omega)
      exact ⟨k, by omega, place, hplace, hname, by omega, hown⟩

/-- Where aliased tensors are put on their targets, they are put on their owners. -/
theorem offset_owner {offsets : ν → ℕ}
    (forced : ∀ (j : ℕ) (node : OpNode ν) (target : ν), g.executionOrder[j]? = some node →
      0 < node.sizeBytes → aliasTarget g node.outputName = some target →
      offsets node.outputName = offsets target)
    (hj : g.executionOrder[j]? = some node) (hpos : 0 < node.sizeBytes) :
    offsets node.outputName = offsets (owner g node.outputName) := by
  induction j using Nat.strong_induction_on generalizing node with
  | h j ih =>
    cases halias : aliasTarget g node.outputName with
    | none => rw [owner_of_none halias]
    | some target =>
      rw [forced j node target hj hpos halias, owner_target built first hj hpos halias]
      obtain ⟨i, hi, producer, hprod, rfl, hsize⟩ := built.target_before first hj hpos halias
      exact ih i hi hprod (by omega)

/-! ### The layout with reserved places -/

/-- The tensors in the place of a node miss their rivals. -/
theorem feasible_reserved_iff {offsets : ν → ℕ} {offset : ℕ}
    (hj : g.executionOrder[j]? = some node) :
    offset ∈ FirstFit.Feasible Prod.fst Prod.snd node.sizeBytes (reserved g offsets node) ↔
      ∀ pair ∈ rivals g node,
        offset + pair.1.sizeBytes ≤ offsets (owner g pair.2.outputName) ∨
          offsets (owner g pair.2.outputName) + pair.2.sizeBytes ≤ offset := by
  have hfits : ∀ pair ∈ rivals g node, pair.1.sizeBytes ≤ node.sizeBytes := by
    intro pair hpair
    obtain ⟨hmem, hrival⟩ := mem_filter.mp hpair
    obtain ⟨hpos, howner, -⟩ := of_decide_eq_true hrival
    obtain ⟨k, hk⟩ := mem_iff_getElem?.mp (pair_mem_product.mp hmem).1
    obtain ⟨i, -, place, hplace, hname, hsize, -⟩ := exists_owner built first hk hpos
    obtain rfl := g.eq_of_outputName_eq hplace hj (hname.trans howner)
    cases hplace.symm.trans hj
    exact hsize
  unfold FirstFit.Feasible reserved
  rw [Set.mem_ofPred_eq, forall_mem_map]
  refine forall₂_congr fun pair hpair => ?_
  have := hfits pair hpair
  dsimp only [FirstFit.Clear]
  omega

theorem reservedLayout_looksBack : LooksBack g fun offsets _ node =>
    match aliasTarget g node.outputName with
    | some target => offsets target
    | none => FirstFit.leastOffset Prod.fst Prod.snd node.sizeBytes (reserved g offsets node) := by
  intro j node offsets offsets' hj hpos same
  dsimp only
  split
  · rename_i target halias
    obtain ⟨i, hi, producer, hprod, rfl, hsize⟩ := built.target_before first hj hpos halias
    exact same i hi producer hprod (by omega)
  · -- the places of the rivals were chosen before
    have hsame : reserved g offsets node = reserved g offsets' node := by
      refine map_congr_left fun pair hpair => ?_
      obtain ⟨hmem, hrival⟩ := mem_filter.mp hpair
      obtain ⟨-, -, hsize, hbefore, -⟩ := of_decide_eq_true hrival
      obtain ⟨k, hk⟩ := mem_iff_getElem?.mp (pair_mem_product.mp hmem).2
      obtain ⟨i, -, place, hplace, hname, hfits, -⟩ := exists_owner built first hk hsize
      rw [← hname, births_eq g hplace, births_eq g hj] at hbefore
      dsimp only
      rw [← hname, same i hbefore place hplace (by omega)]
    rw [hsame]

theorem reservedLayout_target (hj : g.executionOrder[j]? = some node) (hpos : 0 < node.sizeBytes)
    {target : ν} (halias : aliasTarget g node.outputName = some target) :
    reservedLayout g node.outputName = reservedLayout g target := by
  have hchoice := layout_eq (reservedLayout_looksBack built first) hj hpos
  rw [halias] at hchoice
  exact hchoice

theorem reservedLayout_owner (hj : g.executionOrder[j]? = some node) (hpos : 0 < node.sizeBytes) :
    reservedLayout g node.outputName = reservedLayout g (owner g node.outputName) :=
  offset_owner built first (fun _ _ _ hj hpos halias =>
    reservedLayout_target built first hj hpos halias) hj hpos

/-- A tensor misses a rival whose place was chosen before. -/
theorem clear_of_rival {user rival : OpNode ν} {place : OpNode ν}
    (hj : g.executionOrder[j]? = some place) (hown : aliasTarget g place.outputName = none)
    (huser : user ∈ g.executionOrder) (hpos : 0 < user.sizeBytes)
    (howner : owner g user.outputName = place.outputName) (hrival : rival ∈ g.executionOrder)
    (hpos' : 0 < rival.sizeBytes) (hbefore : births g (owner g rival.outputName) < j)
    (together : Together g user rival) :
    reservedLayout g user.outputName + user.sizeBytes ≤ reservedLayout g rival.outputName ∨
      reservedLayout g rival.outputName + rival.sizeBytes ≤ reservedLayout g user.outputName := by
  obtain ⟨k, hk⟩ := mem_iff_getElem?.mp huser
  obtain ⟨l, hl⟩ := mem_iff_getElem?.mp hrival
  obtain ⟨i, -, place', hplace, hname, hfits, -⟩ := exists_owner built first hk hpos
  obtain rfl := g.eq_of_outputName_eq hplace hj (hname.trans howner)
  cases hplace.symm.trans hj
  have hchoice := layout_eq (reservedLayout_looksBack built first) hj (by omega)
  rw [hown] at hchoice
  have hclear := (feasible_reserved_iff built first hj).mp
    (FirstFit.leastOffset_isLeast place.sizeBytes (reserved g (reservedLayout g) place)).1
    (user, rival) (mem_filter.mpr ⟨pair_mem_product.mpr ⟨huser, hrival⟩, decide_eq_true
      ⟨hpos, howner, hpos', by rwa [births_eq g hj], together⟩⟩)
  rw [reservedLayout_owner built first hk hpos, reservedLayout_owner built first hl hpos', howner]
  change reservedLayout g place.outputName = _ at hchoice
  rw [hchoice]
  exact hclear

/-- Tensors that are needed at the same time are separate, unless they have one place. -/
theorem separate_of_owner_ne (hi : g.executionOrder[i]? = some earlier)
    (hpos : 0 < earlier.sizeBytes) (hj : g.executionOrder[j]? = some node)
    (hpos' : 0 < node.sizeBytes)
    (together : Together g earlier node)
    (hne : owner g earlier.outputName ≠ owner g node.outputName) :
    FirstFit.Separate Block.start Block.stop (blockAt (reservedLayout g) earlier)
      (blockAt (reservedLayout g) node) := by
  obtain ⟨a, -, place, hplace, hname, -, hown⟩ := exists_owner built first hi hpos
  obtain ⟨b, -, place', hplace', hname', -, hown'⟩ := exists_owner built first hj hpos'
  rcases lt_trichotomy a b with hlt | rfl | hgt
  · refine (clear_of_rival built first hplace' hown' (mem_of_getElem? hj) hpos' hname'.symm
      (mem_of_getElem? hi) hpos ?_ together.symm).symm
    rwa [← hname, births_eq g hplace]
  · cases hplace.symm.trans hplace'
    exact absurd (hname.symm.trans hname') hne
  · refine clear_of_rival built first hplace hown (mem_of_getElem? hi) hpos hname.symm
      (mem_of_getElem? hj) hpos' ?_ together
    rwa [← hname', births_eq g hplace']

end Owners

theorem planOffset_target (h : generateOptimizedReusePlan g = .ok plan)
    (hj : g.executionOrder[j]? = some node) (hpos : 0 < node.sizeBytes) {target : ν}
    (halias : aliasTarget g node.outputName = some target) :
    planOffset plan node.outputName = planOffset plan target := by
  obtain ⟨_, hfind, rfl⟩ := Option.map_eq_some_iff.mp halias
  exact planOffset_eq_target h hj hpos hfind

theorem mem_liveNodes_of_live (hi : g.executionOrder[i]? = some earlier) (hlt : i < j)
    {k : ℕ} (hle : j ≤ k) (hlive : earlier ∈ liveNodes g k) : earlier ∈ liveNodes g j := by
  obtain ⟨-, -, -, hpos, l, consumer, hl, hcons, hin⟩ := mem_liveNodes.mp hlive
  exact mem_liveNodes.mpr ⟨i, hlt, hi, hpos, l, consumer, by omega, hcons, hin⟩

/-- The live tensors are listed in the order of their births. -/
theorem pair_sublist_liveNodes {k : ℕ} (hi : g.executionOrder[i]? = some earlier)
    (hk : g.executionOrder[k]? = some node) (hlt : i < k) (hlive : earlier ∈ liveNodes g j)
    (hlive' : node ∈ liveNodes g j) : [earlier, node] <+ liveNodes g j := by
  obtain ⟨l, hl, hget, -⟩ := liveNodes_before hlive'
  have hbirth : k < j := by
    have := births_eq g hk
    rw [births_eq g hget] at this
    omega
  have hpair : [earlier, node] <+ g.executionOrder.take j := by
    rw [← take_append_drop k (g.executionOrder.take j)]
    refine cons_sublist_iff.mpr ⟨_, _, rfl, ?_, singleton_sublist.mpr ?_⟩
    · rw [take_take]
      exact mem_take_iff.mpr ⟨i, by omega, hi⟩
    · refine mem_iff_getElem?.mpr ⟨0, ?_⟩
      rw [getElem?_drop, Nat.add_zero, getElem?_take_of_lt hbirth, hk]
  have hkept := (hpair.filter fun node => 0 < node.sizeBytes).filter fun node =>
    (j : ℤ) ≤ (deaths g node.outputName).getD g.names.length
  rwa [filter_filter, filter_eq_self.mpr] at hkept
  intro live hmem
  have hfilter : live ∈ liveNodes g j := by
    rcases mem_cons.mp hmem with rfl | hmem
    · exact hlive
    · rwa [mem_singleton.mp hmem]
  rw [liveNodes, filter_filter] at hfilter
  exact (mem_filter.mp hfilter).2

/-- In a sound plan a tensor shares bytes with a live one only if that is its target. -/
theorem aliasSound_iff_separate (h : generateOptimizedReusePlan g = .ok plan) :
    AliasSound g plan ↔ ∀ (j : ℕ) (node earlier : OpNode ν), g.executionOrder[j]? = some node →
      0 < node.sizeBytes → earlier ∈ liveNodes g j →
      aliasTarget g node.outputName ≠ some earlier.outputName →
      FirstFit.Separate Block.start Block.stop (nodeBlock plan earlier) (nodeBlock plan node) := by
  constructor
  · intro sound j node earlier hj hpos hlive hother
    cases halias : aliasTarget g node.outputName with
    | some target =>
      refine sound.sources j node target hj hpos halias earlier hlive fun hname => hother ?_
      rw [halias, hname]
    | none =>
      by_cases hsome : ∃ i < j, ∃ source, g.executionOrder[i]? = some source ∧
          (aliasTarget g source.outputName).isSome
      · obtain ⟨i, hi, source, hsrc, hforced⟩ := hsome
        exact sound.later i j source node hi hsrc hforced hj hpos halias earlier hlive
      · -- no alias so far, and all live blocks are separate
        refine separate_of_live h (fun i hi source hsrc => ?_) hj hpos hlive
        rcases Nat.lt_succ_iff_lt_or_eq.mp hi with hlt | rfl
        · refine find?_aliases_eq_none (Option.not_isSome_iff_eq_none.mp fun hforced => ?_)
          exact hsome ⟨i, hlt, source, hsrc, hforced⟩
        · cases hj.symm.trans hsrc
          exact find?_aliases_eq_none halias
  · intro separate
    refine ⟨fun j source target hj hpos halias earlier hlive hother => ?_,
      fun i j source node _ _ _ hj hpos halias earlier hlive => ?_⟩
    · refine separate j source earlier hj hpos hlive ?_
      rw [halias]
      exact fun heq => hother (Option.some.inj heq).symm
    · refine separate j node earlier hj hpos hlive ?_
      rw [halias]
      exact nofun

section Soundness

variable (built : Built g) (first : TargetsFirst g)
include built first

/-- Of three tensors that are needed at the same time not all have one place. -/
theorem SharedInTurn.not_three (inTurn : SharedInTurn g) {target source other : OpNode ν}
    (htarget : target ∈ liveNodes g j) (hsource : source ∈ liveNodes g j)
    (hother : other ∈ liveNodes g j)
    (halias : aliasTarget g source.outputName = some target.outputName)
    (howner : owner g other.outputName = owner g target.outputName) :
    other = target ∨ other = source := by
  obtain ⟨a, ha, hgeta, -⟩ := liveNodes_before htarget
  obtain ⟨b, hb, hgetb, hsize⟩ := liveNodes_before hsource
  obtain ⟨c, hc, hgetc, hsize'⟩ := liveNodes_before hother
  have hsame := owner_target built first hgetb hsize halias
  have hab := first _ _ halias
  rw [births_eq g hgeta, births_eq g hgetb] at hab
  have hpair : ∀ {i k : ℕ} {earlier later : OpNode ν}, i < k → k < j →
      g.executionOrder[i]? = some earlier → g.executionOrder[k]? = some later →
      0 < later.sizeBytes → earlier ∈ liveNodes g j →
      owner g earlier.outputName = owner g later.outputName →
      aliasTarget g later.outputName = some earlier.outputName := by
    intro i k earlier later hik hk hi hk' hpos hlive howner
    refine inTurn later (mem_of_getElem? hk') hpos earlier ?_ howner
    rw [births_eq g hk']
    exact mem_liveNodes_of_live hi hik hk.le hlive
  rcases lt_trichotomy c b with hlt | rfl | hgt
  · have hagain := hpair hlt hb hgetc hgetb hsize hother (howner.trans hsame.symm)
    have hname := Option.some.inj (halias.symm.trans hagain)
    have := g.eq_of_outputName_eq hgeta hgetc hname
    subst this
    exact .inl (Option.some.inj (hgetc.symm.trans hgeta))
  · exact .inr (Option.some.inj (hgetc.symm.trans hgetb))
  · -- it would be forced onto both of them
    have hone := hpair (hab.trans hgt) hc hgeta hgetc hsize' htarget howner.symm
    have htwo := hpair hgt hc hgetb hgetc hsize' hsource (hsame.trans howner.symm)
    have hname := Option.some.inj (hone.symm.trans htwo)
    have := g.eq_of_outputName_eq hgeta hgetb hname
    omega

/-- Among the live tensors, those with different places are separate. -/
theorem separate_live_of_owner_ne {one other : OpNode ν} (hone : one ∈ liveNodes g j)
    (hother : other ∈ liveNodes g j)
    (hne : owner g one.outputName ≠ owner g other.outputName) :
    FirstFit.Separate Block.start Block.stop (blockAt (reservedLayout g) one)
      (blockAt (reservedLayout g) other) := by
  obtain ⟨a, ha, hgeta, hsize⟩ := liveNodes_before hone
  obtain ⟨b, hb, hgetb, hsize'⟩ := liveNodes_before hother
  refine separate_of_owner_ne built first hgeta hsize hgetb hsize' ?_ hne
  rcases lt_trichotomy a b with hlt | rfl | hgt
  · refine .inl ?_
    rw [births_eq g hgetb]
    exact mem_liveNodes_of_live hgeta hlt hb.le hone
  · cases hgeta.symm.trans hgetb
    exact absurd rfl hne
  · refine .inr ?_
    rw [births_eq g hgeta]
    exact mem_liveNodes_of_live hgetb hgt ha.le hother

/-- A tensor with a place of its own misses the live tensors. -/
theorem clear_of_live (hj : g.executionOrder[j]? = some node) (hpos : 0 < node.sizeBytes)
    (hown : aliasTarget g node.outputName = none) (hlive : earlier ∈ liveNodes g j) :
    FirstFit.Clear Block.start Block.stop node.sizeBytes (reservedLayout g node.outputName)
      (blockAt (reservedLayout g) earlier) := by
  obtain ⟨i, hi, hget, hsize⟩ := liveNodes_before hlive
  have together : Together g earlier node := .inl (by rwa [births_eq g hj])
  refine (separate_of_owner_ne built first hget hsize hj hpos together fun hsame => ?_).symm
  obtain ⟨a, ha, place, hplace, hname, -, -⟩ := exists_owner built first hget hsize
  have := g.eq_of_outputName_eq hplace hj (hname.trans (hsame.trans (owner_of_none hown)))
  omega

/-- If places are kept, the scan finds the place of the layout. -/
theorem PlacesKept.firstFit_eq (kept : PlacesKept g) (hj : g.executionOrder[j]? = some node)
    (hpos : 0 < node.sizeBytes) (hown : aliasTarget g node.outputName = none) :
    FirstFit.firstFit Block.start Block.stop node.sizeBytes (reservedBlocks g j) =
      reservedLayout g node.outputName := by
  have hfree : reservedLayout g node.outputName ∈
      FirstFit.Feasible Block.start Block.stop node.sizeBytes (reservedBlocks g j) := by
    intro block hblock
    obtain ⟨live, hlive, rfl⟩ := mem_map.mp hblock
    exact clear_of_live built first hj hpos hown hlive
  have hleast : IsLeast
      (FirstFit.Feasible Block.start Block.stop node.sizeBytes (reservedBlocks g j))
      (reservedLayout g node.outputName) :=
    ⟨hfree, fun offset hoffset => not_lt.mp fun hlt =>
      kept.lowest j node hj hpos hown offset hlt hoffset⟩
  have hlowest := hleast.unique (FirstFit.leastOffset_isLeast _ _)
  rw [hlowest, FirstFit.firstFit_eq_leastOffset_iff]
  have hstart : ∀ {live : OpNode ν}, live ∈ liveNodes g j →
      reservedLayout g live.outputName = reservedLayout g (owner g live.outputName) := by
    intro live hlive
    obtain ⟨i, -, hget, hsize⟩ := liveNodes_before hlive
    exact reservedLayout_owner built first hget hsize
  refine FirstFit.firstFit_feasible_of_gaps ?_ ?_ ?_
  · intro block hblock
    obtain ⟨live, hlive, rfl⟩ := mem_map.mp hblock
    obtain ⟨-, -, -, hsize⟩ := liveNodes_before hlive
    exact Nat.lt_add_of_pos_right hsize
  · intro a ha b hb
    obtain ⟨one, hone, rfl⟩ := mem_map.mp ha
    obtain ⟨other, hother, rfl⟩ := mem_map.mp hb
    by_cases hsame : owner g one.outputName = owner g other.outputName
    · refine .inr ?_
      dsimp only [blockAt]
      rw [hstart hone, hstart hother, hsame]
    · exact .inl (separate_live_of_owner_ne built first hone hother hsame)
  · intro a ha b hb hbegin hshort
    obtain ⟨one, hone, rfl⟩ := mem_map.mp ha
    obtain ⟨other, hother, rfl⟩ := mem_map.mp hb
    obtain ⟨i, hi, hget, hsize⟩ := liveNodes_before hone
    obtain ⟨k, hk, hget', hsize'⟩ := liveNodes_before hother
    dsimp only [blockAt] at hbegin hshort
    -- two tensors that begin together have one place, so the later one is the source
    have hsame : owner g one.outputName = owner g other.outputName := by
      by_contra hne
      have hapart := separate_live_of_owner_ne built first hone hother hne
      dsimp only [FirstFit.Separate, blockAt] at hapart
      omega
    rcases lt_trichotomy i k with hlt | rfl | hgt
    · have halias := kept.inTurn other (mem_of_getElem? hget') hsize' one
        (by rw [births_eq g hget']; exact mem_liveNodes_of_live hget hlt hk.le hone) hsame
      rw [← hlowest]
      rcases kept.gaps j node hj hpos hown one hone other hother halias (by omega) with
        hlow | ⟨third, hthird, hlater, hnear⟩
      · exact .inl hlow
      · refine .inr ⟨_, mem_map_of_mem hthird, hlater, ?_⟩
        dsimp only [blockAt]
        omega
    · cases hget.symm.trans hget'
      omega
    · have halias := kept.inTurn one (mem_of_getElem? hget) hsize other
        (by rw [births_eq g hget]; exact mem_liveNodes_of_live hget' hgt hi.le hother) hsame.symm
      obtain ⟨l, -, producer, hprod, hname, hfits⟩ := built.target_before first hget hsize halias
      obtain rfl := g.eq_of_outputName_eq hprod hget' hname
      cases hprod.symm.trans hget'
      omega

/-- A scan that is right is not misled by a source that is shorter than its target. -/
theorem SharedInTurn.gap (inTurn : SharedInTurn g) {target source : OpNode ν} {size : ℕ}
    (htarget : target ∈ liveNodes g j) (hsource : source ∈ liveNodes g j)
    (hforced : aliasTarget g source.outputName = some target.outputName)
    (hshort : source.sizeBytes < target.sizeBytes) (hpos : 0 < size)
    (feasible : FirstFit.firstFit Block.start Block.stop size (reservedBlocks g j) ∈
      FirstFit.Feasible Block.start Block.stop size (reservedBlocks g j)) :
    FirstFit.firstFit Block.start Block.stop size (reservedBlocks g j) <
        reservedLayout g target.outputName ∨
      ∃ other ∈ liveNodes g j,
        reservedLayout g target.outputName < reservedLayout g other.outputName ∧
          reservedLayout g other.outputName <
            reservedLayout g target.outputName + source.sizeBytes + size := by
  obtain ⟨a, ha, hgeta, hsize⟩ := liveNodes_before htarget
  obtain ⟨b, hb, hgetb, hsize'⟩ := liveNodes_before hsource
  have hab := first _ _ hforced
  rw [births_eq g hgeta, births_eq g hgetb] at hab
  have hbegin := reservedLayout_target built first hgetb hsize' hforced
  -- Target and source stand at the same offset, the target first.
  have hboth : [blockAt (reservedLayout g) target, blockAt (reservedLayout g) source] <+
      reservedBlocks g j :=
    (pair_sublist_liveNodes hgeta hgetb hab htarget hsource).map (blockAt (reservedLayout g))
  have hnodup : (reservedBlocks g j).Nodup := by
    refine Nodup.of_map Block.tensorName ?_
    rw [reservedBlocks, List.map_map]
    exact g.nodup.sublist (((filter_sublist.trans filter_sublist).trans (take_sublist _ _)).map _)
  -- A third block there would have the same owner, and of one owner at most two are live.
  have hothers : ∀ block ∈ reservedBlocks g j,
      block.start = (blockAt (reservedLayout g) target).start →
        block = blockAt (reservedLayout g) target ∨ block = blockAt (reservedLayout g) source := by
    intro block hblock hsame
    obtain ⟨other, hother, rfl⟩ := mem_map.mp hblock
    have howner : owner g other.outputName = owner g target.outputName := by
      by_contra hne
      have hapart := separate_live_of_owner_ne built first hother htarget hne
      obtain ⟨-, -, -, hsize''⟩ := liveNodes_before hother
      dsimp only [FirstFit.Separate, blockAt] at hapart hsame
      omega
    exact (inTurn.not_three built first htarget hsource hother hforced howner).imp
      (congrArg _) (congrArg _)
  refine (FirstFit.gap_of_firstFit_feasible feasible hpos hboth hnodup (Nat.le_add_right _ _)
    hbegin.symm ?_ hothers).imp_right fun ⟨_, hblock, hlater, hnear⟩ => ?_
  · dsimp only [blockAt]
    omega
  · obtain ⟨other, hother, rfl⟩ := mem_map.mp hblock
    refine ⟨other, hother, hlater, ?_⟩
    dsimp only [blockAt] at hnear
    omega

variable (h : generateOptimizedReusePlan g = .ok plan)
include h

/-- A sound plan is the layout. -/
theorem AliasSound.planOffset_eq (sound : AliasSound g plan) (hj : g.executionOrder[j]? = some node)
    (hpos : 0 < node.sizeBytes) :
    planOffset plan node.outputName = reservedLayout g node.outputName := by
  have hseparate := (aliasSound_iff_separate h).mp sound
  have hforced : ∀ (j : ℕ) (node : OpNode ν) (target : ν), g.executionOrder[j]? = some node →
      0 < node.sizeBytes → aliasTarget g node.outputName = some target →
      planOffset plan node.outputName = planOffset plan target :=
    fun _ _ _ hj hpos halias => planOffset_target h hj hpos halias
  refine eq_layout (reservedLayout_looksBack built first) (fun j node hj hpos _ => ?_) hj hpos
  cases halias : aliasTarget g node.outputName with
  | some target => exact hforced j node target hj hpos halias
  | none =>
    have hscan := planOffset_eq_firstFit h hj hpos (find?_aliases_eq_none halias)
    refine IsLeast.unique ⟨?_, fun offset hoffset => ?_⟩ (FirstFit.leastOffset_isLeast _ _)
    · rw [feasible_reserved_iff built first hj]
      intro pair hpair
      obtain ⟨hmem, hrival⟩ := mem_filter.mp hpair
      obtain ⟨hsize, howner, hsize', hbefore, together⟩ := of_decide_eq_true hrival
      obtain ⟨huser, hother⟩ := pair_mem_product.mp hmem
      obtain ⟨k, hk⟩ := mem_iff_getElem?.mp huser
      obtain ⟨l, hl⟩ := mem_iff_getElem?.mp hother
      have hne : owner g pair.2.outputName ≠ owner g pair.1.outputName := by
        intro hsame
        rw [hsame, howner] at hbefore
        exact lt_irrefl _ hbefore
      rw [← howner, ← offset_owner built first hforced hk hsize,
        ← offset_owner built first hforced hl hsize']
      rcases together with hlive | hlive
      · rw [births_eq g hl] at hlive
        refine hseparate l pair.2 pair.1 hl hsize' hlive fun hforce => hne ?_
        exact owner_target built first hl hsize' hforce
      · rw [births_eq g hk] at hlive
        refine (hseparate k pair.1 pair.2 hk hsize hlive fun hforce => hne ?_).symm
        exact (owner_target built first hk hsize hforce).symm
    · -- the live tensors are among the rivals
      rw [hscan]
      refine FirstFit.firstFit_le_of_feasible fun block hblock => ?_
      obtain ⟨live, hlive, rfl⟩ := mem_map.mp hblock
      obtain ⟨i, hi, hget, hsize⟩ := liveNodes_before hlive
      obtain ⟨a, ha, place, hplace, hname, -, -⟩ := exists_owner built first hget hsize
      have hclear := (feasible_reserved_iff built first hj).mp hoffset (node, live)
        (mem_filter.mpr ⟨pair_mem_product.mpr ⟨mem_of_getElem? hj, mem_of_getElem? hget⟩,
          decide_eq_true ⟨hpos, owner_of_none halias, hsize, ?_, .inr ?_⟩⟩)
      · rw [← offset_owner built first hforced hget hsize] at hclear
        exact hclear
      · rw [← hname, births_eq g hplace, births_eq g hj]
        omega
      · rwa [births_eq g hj]

/-- And so is every plan if the places are kept. -/
theorem PlacesKept.planOffset_eq (kept : PlacesKept g) (hj : g.executionOrder[j]? = some node)
    (hpos : 0 < node.sizeBytes) :
    planOffset plan node.outputName = reservedLayout g node.outputName := by
  induction j using Nat.strong_induction_on generalizing node with
  | h j ih =>
    cases halias : aliasTarget g node.outputName with
    | some target =>
      obtain ⟨i, hi, producer, hprod, rfl, hsize⟩ := built.target_before first hj hpos halias
      rw [planOffset_target h hj hpos halias, reservedLayout_target built first hj hpos halias]
      exact ih i hi hprod (by omega)
    | none =>
      rw [planOffset_eq_firstFit h hj hpos (find?_aliases_eq_none halias),
        ← kept.firstFit_eq built first hj hpos halias]
      exact congrArg (FirstFit.firstFit Block.start Block.stop node.sizeBytes)
        (map_blockAt_congr (fun _ hlive => liveNodes_before hlive)
          fun i hi _ hget hsize => ih i hi hget hsize)

/-- In a sound plan the places are kept. -/
theorem AliasSound.placesKept (sound : AliasSound g plan) : PlacesKept g := by
  have hseparate := (aliasSound_iff_separate h).mp sound
  have heq : ∀ {j : ℕ} {node : OpNode ν}, g.executionOrder[j]? = some node → 0 < node.sizeBytes →
      planOffset plan node.outputName = reservedLayout g node.outputName :=
    fun hj hpos => sound.planOffset_eq built first h hj hpos
  have hblocks : ∀ j, liveBlocks g plan j = reservedBlocks g j := fun j =>
    map_blockAt_congr (fun _ hlive => liveNodes_before hlive) fun _ _ _ hget hsize =>
      heq hget hsize
  have inTurn : SharedInTurn g := by
    intro later hlater hpos earlier hlive howner
    obtain ⟨k, hk⟩ := mem_iff_getElem?.mp hlater
    rw [births_eq g hk] at hlive
    obtain ⟨i, -, hget, hsize⟩ := liveNodes_before hlive
    by_contra hne
    have hapart := hseparate k later earlier hk hpos hlive hne
    have hsame : planOffset plan earlier.outputName = planOffset plan later.outputName := by
      rw [heq hget hsize, heq hk hpos, reservedLayout_owner built first hget hsize,
        reservedLayout_owner built first hk hpos, howner]
    dsimp only [FirstFit.Separate, nodeBlock] at hapart
    omega
  refine ⟨inTurn, fun j node hj hpos halias offset hlt hfree => ?_,
    fun j node hj hpos halias target htarget source hsource hforced hshort => ?_⟩
  · rw [← heq hj hpos, planOffset_eq_firstFit h hj hpos (find?_aliases_eq_none halias),
      hblocks] at hlt
    exact absurd (FirstFit.firstFit_le_of_feasible hfree) (not_le.mpr hlt)
  · have hscan := planOffset_eq_firstFit h hj hpos (find?_aliases_eq_none halias)
    rw [heq hj hpos, hblocks] at hscan
    rw [hscan]
    refine inTurn.gap built first htarget hsource hforced hshort hpos ?_
    rw [← hscan]
    intro block hblock
    obtain ⟨live, hlive, rfl⟩ := mem_map.mp hblock
    exact clear_of_live built first hj hpos halias hlive

theorem aliasSound_iff : AliasSound g plan ↔ PlacesKept g := by
  refine ⟨fun sound => sound.placesKept built first h, fun kept => ?_⟩
  rw [aliasSound_iff_separate h]
  intro j node earlier hj hpos hlive hother
  obtain ⟨i, hi, hget, hsize⟩ := liveNodes_before hlive
  have hapart := separate_of_owner_ne built first hget hsize hj hpos
    (.inl (by rwa [births_eq g hj])) fun hsame => hother
      (kept.inTurn node (mem_of_getElem? hj) hpos earlier (by rwa [births_eq g hj]) hsame)
  dsimp only [FirstFit.Separate, blockAt, nodeBlock] at hapart ⊢
  rw [kept.planOffset_eq built first h hget hsize, kept.planOffset_eq built first h hj hpos]
  exact hapart

end Soundness

end Layouts

/-- Plans of graphs whose aliases name earlier tensors. Aliased tensors and those behind them miss
what is live at their birth if and only if tensors with one place are needed in turn, and the layout
that reserves the places of the targets loses nothing by it and has no false gaps. -/
theorem alias_sound_iff {g : CustomGraph ν} (built : Built g) (first : TargetsFirst g) :
    ∃ plan, generateOptimizedReusePlan g = .ok plan ∧ (AliasSound g plan ↔ PlacesKept g) := by
  obtain ⟨plan, h⟩ := exists_plan (built.aliasesReady first)
  exact ⟨plan, h, aliasSound_iff built first h⟩

/-- The calls that build a graph, its aliases last. -/
def buildAliased (calls : List (CustomGraph.OpCall ν)) (links : List (ν × ν)) :
    Except (GraphError ν) (CustomGraph ν) := do
  let g ← (CustomGraph.empty ν).addOps calls
  links.foldlM (fun g link => g.addAlias link.1 link.2) g

theorem built_of_buildAliased {calls : List (CustomGraph.OpCall ν)} {links : List (ν × ν)}
    {g : CustomGraph ν} (h : buildAliased calls links = .ok g) : Built g := by
  obtain ⟨g₀, hcalls, hlinks⟩ := bind_eq_ok.mp h
  have hops : ∀ (calls : List (CustomGraph.OpCall ν)) (g g' : CustomGraph ν), Built g →
      g.addOps calls = .ok g' → Built g' := by
    intro calls
    induction calls with
    | nil =>
      intro g g' hg hok
      cases hok
      exact hg
    | cons call rest ih =>
      intro g g' hg hok
      obtain ⟨g₁, hcall, hrest⟩ := foldlM_cons_eq_ok.mp hok
      exact ih g₁ g' (.addOp hg hcall) hrest
  have hbuilt := hops calls _ g₀ .empty hcalls
  clear hcalls h
  induction links generalizing g₀ with
  | nil =>
    cases hlinks
    exact hbuilt
  | cons link rest ih =>
    obtain ⟨g₁, hlink, hrest⟩ := foldlM_cons_eq_ok.mp hlinks
    exact ih g₁ hrest (.addAlias hbuilt hlink)

theorem aliasTarget_singleton {g : CustomGraph ν} {name source target target' : ν}
    (h : g.aliases = [(source, target)]) (halias : aliasTarget g name = some target') :
    name = source ∧ target' = target := by
  rw [aliasTarget, h] at halias
  by_cases hname : source = name
  · subst hname
    exact ⟨rfl, by simpa using halias.symm⟩
  · simp [hname] at halias

/-- The third tensor is computed in the place of the second one, which is longer and still read when
the fourth one is placed. -/
def inPlaceCalls : List (CustomGraph.OpCall ℕ) :=
  [⟨0, "input", [], [2, 3], .bfloat16⟩, ⟨1, "gemm", [0], [2, 5], .bfloat16⟩,
    ⟨2, "add", [1, 0], [2, 3], .bfloat16⟩, ⟨3, "add", [2, 1], [2, 3], .bfloat16⟩]

theorem alias_sound_iff_inPlace :
    ∃ g plan, buildAliased inPlaceCalls [(2, 1)] = .ok g ∧
      generateOptimizedReusePlan g = .ok plan ∧
      (plan.entries.map fun entry => entry.2.offset) = [0, 12, 12, 0] ∧ AliasSound g plan := by
  obtain ⟨g, hg⟩ : ∃ g, buildAliased inPlaceCalls [(2, 1)] = .ok g := ⟨_, rfl⟩
  have built := built_of_buildAliased hg
  have haliases : g.aliases = [(2, 1)] := by
    cases hg
    rfl
  have first : TargetsFirst g := by
    intro source target halias
    obtain ⟨rfl, rfl⟩ := aliasTarget_singleton haliases halias
    cases hg
    decide +kernel
  have inTurn : SharedInTurn g := by
    unfold SharedInTurn
    cases hg
    decide +kernel
  have hall : ∀ entry ∈ g.executionOrder.zipIdx, 0 < entry.1.sizeBytes →
      aliasTarget g entry.1.outputName = none →
      (∀ offset < reservedLayout g entry.1.outputName,
        offset ∉ FirstFit.Feasible Block.start Block.stop entry.1.sizeBytes
          (reservedBlocks g entry.2)) ∧
      ∀ target ∈ liveNodes g entry.2, ∀ source ∈ liveNodes g entry.2,
        aliasTarget g source.outputName = some target.outputName →
          reservedLayout g entry.1.outputName < reservedLayout g target.outputName := by
    cases hg
    decide +kernel
  have kept : PlacesKept g := by
    refine ⟨inTurn, fun j node hj hpos halias => ?_,
      fun j node hj hpos halias target htarget source hsource hforced _ => .inl ?_⟩
    · exact (hall (node, j) (List.mk_mem_zipIdx_iff_getElem?.mpr hj) hpos halias).1
    · exact (hall (node, j) (List.mk_mem_zipIdx_iff_getElem?.mpr hj) hpos halias).2 target htarget
        source hsource hforced
  obtain ⟨plan, hplan, hiff⟩ := alias_sound_iff built first
  refine ⟨g, plan, hg, hplan, ?_, hiff.mpr kept⟩
  cases hg
  cases hplan
  decide +kernel

/-- The last tensor of a chain is forced onto the first one, which is dead by then. -/
def forcedCalls : List (CustomGraph.OpCall ℕ) :=
  [⟨0, "input", [], [2, 3], .bfloat16⟩, ⟨1, "gemm", [0], [2, 3], .bfloat16⟩,
    ⟨2, "gemm", [1], [2, 3], .bfloat16⟩, ⟨3, "gemm", [2], [2, 3], .bfloat16⟩]

/-- The input of the last operation has got the place of the first tensor. -/
theorem alias_overwrites_input : ¬ ∀ g : CustomGraph ℕ, Built g → g.Topological →
    TargetsFirst g → ∃ plan, generateOptimizedReusePlan g = .ok plan ∧ AliasSound g plan := by
  intro hall
  obtain ⟨g, hg⟩ : ∃ g, buildAliased forcedCalls [(3, 0)] = .ok g := ⟨_, rfl⟩
  have haliases : g.aliases = [(3, 0)] := by
    cases hg
    rfl
  have first : TargetsFirst g := by
    intro source target halias
    obtain ⟨rfl, rfl⟩ := aliasTarget_singleton haliases halias
    cases hg
    decide +kernel
  have horder : g.executionOrder = forcedCalls.map CustomGraph.OpCall.node := by
    cases hg
    rfl
  have topological : g.Topological := CustomGraph.topological_of_order horder (by decide)
  obtain ⟨plan, hplan, sound⟩ := hall g (built_of_buildAliased hg) topological first
  have hlast : g.executionOrder[3]? = some (CustomGraph.OpCall.node
      ⟨3, "gemm", [2], [2, 3], .bfloat16⟩) := by
    rw [horder]
    rfl
  have hinput : g.executionOrder[2]? = some (CustomGraph.OpCall.node
      ⟨2, "gemm", [1], [2, 3], .bfloat16⟩) := by
    rw [horder]
    rfl
  have hlive := mem_liveNodes.mpr ⟨2, by decide, hinput, by decide, 3, _, le_rfl, hlast,
    mem_singleton_self 2⟩
  have hapart := sound.sources 3 _ 0 hlast (by decide) (by rw [aliasTarget, haliases]; rfl) _ hlive
    (by decide)
  have hoffsets : planOffset plan 2 = 0 ∧ planOffset plan 3 = 0 := by
    cases hg
    cases hplan
    decide +kernel
  dsimp only [FirstFit.Separate, nodeBlock, CustomGraph.OpCall.node] at hapart
  rw [hoffsets.1, hoffsets.2] at hapart
  rcases hapart with h | h <;> exact absurd h (by decide)

end Graph
