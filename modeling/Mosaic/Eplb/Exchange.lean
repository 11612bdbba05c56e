import Mosaic.Eplb.Plans
import Mathlib.Data.List.Forall2

/-!
# The exchange of expert weights

All ranks rearrange a layer together. What they post fits together, so the transfer does not hang,
and afterwards every slot has the weights of its new expert.
-/

namespace Eplb

open List Fallible Function

variable {ω : Type}

/-! ### Writes to the slots -/

section Writes

variable {writes : List ((ℕ × ℕ) × ω)} {tensor slot : ℕ}

theorem writeAll_concat (buffer : Weights ω) (writes : List ((ℕ × ℕ) × ω)) (w : (ℕ × ℕ) × ω) :
    writeAll buffer (writes ++ [w]) = fun tensor slot =>
      if (tensor, slot) = w.1 then w.2 else writeAll buffer writes tensor slot := by
  unfold writeAll
  rw [foldl_append]
  rfl

/-- A place that is never written keeps its value. -/
theorem writeAll_of_notMem (buffer : Weights ω) (h : ∀ w ∈ writes, w.1 ≠ (tensor, slot)) :
    writeAll buffer writes tensor slot = buffer tensor slot := by
  induction writes using List.reverseRecOn with
  | nil => rfl
  | append_singleton writes w ih =>
    rw [writeAll_concat]
    dsimp only
    rw [if_neg fun heq => h w (by simp) heq.symm]
    exact ih fun x hx => h x (mem_append_left _ hx)

/-- A place that is written, and always with the same value, has this value. -/
theorem writeAll_of_mem (buffer : Weights ω) {v : ω}
    (all : ∀ w ∈ writes, w.1 = (tensor, slot) → w.2 = v)
    (written : ∃ w ∈ writes, w.1 = (tensor, slot)) :
    writeAll buffer writes tensor slot = v := by
  induction writes using List.reverseRecOn with
  | nil =>
    obtain ⟨w, hw, -⟩ := written
    cases hw
  | append_singleton writes w ih =>
    rw [writeAll_concat]
    dsimp only
    by_cases hlast : (tensor, slot) = w.1
    · rw [if_pos hlast]
      exact all w (by simp) hlast.symm
    · rw [if_neg hlast]
      apply ih fun x hx => all x (mem_append_left _ hx)
      obtain ⟨x, hx, heq⟩ := written
      rcases mem_append.mp hx with hx | hx
      · exact ⟨x, hx, heq⟩
      · exact absurd (mem_singleton.mp hx ▸ heq.symm) hlast

end Writes

/-! ### The transfers of a plan -/

section Ops

variable {numTensors peer : ℕ}

theorem flatMap_ite_of_nodup {α : Type} {l : List ℕ} (hl : l.Nodup) (x : ℕ) (v : List α) :
    (l.flatMap fun y => if y = x then v else []) = if x ∈ l then v else [] := by
  have hfilter : (l.flatMap fun y => if y = x then v else []) =
      (l.filter fun y => y = x).flatMap fun _ => v := by
    induction l with
    | nil => rfl
    | cons y rest ih =>
      rw [flatMap_cons, ih (nodup_cons.mp hl).2, filter_cons]
      by_cases hy : y = x <;> simp [hy]
  rw [hfilter, filter_eq_of_nodup hl]
  split <;> simp

theorem sendsTo_append (ops ops' : List P2POp) :
    sendsTo peer (ops ++ ops') = sendsTo peer ops ++ sendsTo peer ops' :=
  filterMap_append

theorem recvsFrom_append (ops ops' : List P2POp) :
    recvsFrom peer (ops ++ ops') = recvsFrom peer ops ++ recvsFrom peer ops' :=
  filterMap_append

theorem sendsTo_sendingOps {s : Sending} (h : s.ranks.Nodup) :
    sendsTo peer (s.ops numTensors) =
      if peer ∈ s.ranks then (List.range numTensors).map fun tensor => (tensor, s.src) else [] := by
  unfold sendsTo Sending.ops
  rw [filterMap_flatMap, ← flatMap_ite_of_nodup h]
  congr 1
  funext dst
  rw [filterMap_map]
  by_cases hdst : dst = peer
  · simp [hdst]
  · simp [hdst]

theorem sendsTo_sends {plan : List Sending} (h : ∀ s ∈ plan, s.ranks.Nodup) :
    sendsTo peer (plan.flatMap (Sending.ops numTensors)) =
      (plan.filter fun s => peer ∈ s.ranks).flatMap fun s =>
        (List.range numTensors).map fun tensor => (tensor, s.src) := by
  induction plan with
  | nil => rfl
  | cons s rest ih =>
    rw [flatMap_cons, sendsTo_append, ih fun s hs => h s (mem_cons_of_mem _ hs),
      sendsTo_sendingOps (h s mem_cons_self), filter_cons]
    by_cases hmem : peer ∈ s.ranks <;> simp [hmem]

theorem recvsFrom_receivingOps (r : Receiving) :
    recvsFrom peer (r.ops numTensors) =
      if r.source = peer then (List.range numTensors).map fun tensor => (tensor, r.dst)
      else [] := by
  unfold recvsFrom Receiving.ops
  rw [filterMap_map]
  by_cases hsource : r.source = peer
  · simp [hsource]
  · simp [hsource]

theorem recvsFrom_recvs (plan : List Receiving) :
    recvsFrom peer (plan.flatMap (Receiving.ops numTensors)) =
      (plan.filter fun r => r.source = peer).flatMap fun r =>
        (List.range numTensors).map fun tensor => (tensor, r.dst) := by
  induction plan with
  | nil => rfl
  | cons r rest ih =>
    rw [flatMap_cons, recvsFrom_append, ih, recvsFrom_receivingOps, filter_cons]
    by_cases hsource : r.source = peer <;> simp [hsource]

/-- The transfers of one kind do not count as the other one. -/
theorem sendsTo_recvs (plan : List Receiving) :
    sendsTo peer (plan.flatMap (Receiving.ops numTensors)) = [] := by
  unfold sendsTo
  rw [filterMap_eq_nil_iff]
  intro op hop
  obtain ⟨_, -, hop⟩ := mem_flatMap.mp hop
  obtain ⟨_, -, rfl⟩ := mem_map.mp hop
  rfl

theorem recvsFrom_sends (plan : List Sending) :
    recvsFrom peer (plan.flatMap (Sending.ops numTensors)) = [] := by
  unfold recvsFrom
  rw [filterMap_eq_nil_iff]
  intro op hop
  obtain ⟨_, -, hop⟩ := mem_flatMap.mp hop
  obtain ⟨_, -, hop⟩ := mem_flatMap.mp hop
  obtain ⟨_, -, rfl⟩ := mem_map.mp hop
  rfl

end Ops

/-! ### Matching sends and receives -/

section Matching

variable {sends : List Sending} {recvs : List Receiving}

/-- Where the receives of a plan go. -/
def places (numTensors : ℕ) (recvs : List Receiving) : List (ℕ × ℕ) :=
  recvs.flatMap fun r => (List.range numTensors).map fun tensor => (tensor, r.dst)

/-- What the sends of a plan give. -/
def values (numTensors : ℕ) (weights : Weights ω) (sends : List Sending) : List ω :=
  sends.flatMap fun s => (List.range numTensors).map fun tensor => weights tensor s.src

theorem length_places (numTensors : ℕ) (recvs : List Receiving) :
    (places numTensors recvs).length = recvs.length * numTensors := by
  simp [places, length_flatMap]

theorem length_values (numTensors : ℕ) (weights : Weights ω) (sends : List Sending) :
    (values numTensors weights sends).length = sends.length * numTensors := by
  simp [values, length_flatMap]

/-- Plans with the same experts are matched expert by expert and tensor by tensor. -/
theorem mem_zip_of_matched {numTensors : ℕ} {weights : Weights ω} {w : (ℕ × ℕ) × ω}
    (h : List.Forall₂ (fun s r => s.expert = r.expert) sends recvs)
    (hw : w ∈ (places numTensors recvs).zip (values numTensors weights sends)) :
    ∃ s ∈ sends, ∃ r ∈ recvs, s.expert = r.expert ∧ ∃ tensor < numTensors,
      w = ((tensor, r.dst), weights tensor s.src) := by
  induction h with
  | nil => simp [places] at hw
  | @cons s r sends recvs hexpert _ ih =>
    unfold places values at hw
    rw [flatMap_cons, flatMap_cons, zip_append (by simp), mem_append] at hw
    rcases hw with hw | hw
    · rw [zip_map', mem_map] at hw
      obtain ⟨tensor, htensor, rfl⟩ := hw
      exact ⟨s, mem_cons_self, r, mem_cons_self, hexpert, tensor, mem_range.mp htensor, rfl⟩
    · obtain ⟨s', hs, r', hr, hrest⟩ := ih hw
      exact ⟨s', mem_cons_of_mem _ hs, r', mem_cons_of_mem _ hr, hrest⟩

end Matching

namespace ExpertMaps

variable {m : ExpertMaps} {rank numTensors : ℕ}

/-! ### Copies on one rank -/

section LocalCopies

/-- What holds of the slots of a rank after the given pairs of slots were compared. -/
structure CopiedLocally (m : ExpertMaps) (rank numTensors : ℕ) (weights : Weights ω)
    (pairs : List (ℕ × ℕ)) (st : LocalCopies ω) : Prop where
  unchanged : ∀ slot, m.isUnchanged rank slot = true → st.isReceivedLocally slot = true
  complete : ∀ x ∈ pairs, m.new rank x.2 ≠ -1 → m.old rank x.1 = m.new rank x.2 →
    st.isReceivedLocally x.2 = true
  sound : ∀ slot, st.isReceivedLocally slot = true → m.isUnchanged rank slot = true ∨
    m.new rank slot ≠ -1 ∧ ∃ src < m.numLocalExperts, m.old rank src = m.new rank slot ∧
      ∀ tensor < numTensors, st.buffer tensor slot = weights tensor src

theorem CopiedLocally.step {weights : Weights ω} {pairs : List (ℕ × ℕ)} {st : LocalCopies ω}
    {src dst : ℕ} (h : CopiedLocally m rank numTensors weights pairs st)
    (hsrc : src < m.numLocalExperts) :
    CopiedLocally m rank numTensors weights (pairs ++ [(src, dst)])
      (m.localCopy rank numTensors weights st src dst) := by
  -- the state stays, and the new pair asks for nothing
  have hsame (hpair : m.new rank dst ≠ -1 → m.old rank src = m.new rank dst →
      st.isReceivedLocally dst = true) :
      CopiedLocally m rank numTensors weights (pairs ++ [(src, dst)]) st := by
    refine ⟨h.unchanged, fun x hx => ?_, h.sound⟩
    rcases mem_append.mp hx with hx | hx
    · exact h.complete x hx
    · obtain rfl := mem_singleton.mp hx
      exact hpair
  unfold localCopy
  split
  · rename_i hreceived
    exact hsame fun _ _ => hreceived
  split
  · rename_i hempty
    refine hsame fun hnew hold => ?_
    rcases hempty with hempty | hempty
    · exact absurd (hold ▸ hempty) hnew
    · exact absurd hempty hnew
  split
  · rename_i hnot hempty hold
    have hne : m.new rank dst ≠ -1 := fun heq => hempty (.inr heq)
    refine ⟨fun slot hslot => ?_, fun x hx hnew hx' => ?_, fun slot hslot => ?_⟩
    · dsimp only
      rw [update_apply]
      split
      · rfl
      · exact h.unchanged slot hslot
    · dsimp only
      rw [update_apply]
      split
      · rfl
      · rename_i hdst
        rcases mem_append.mp hx with hx | hx
        · exact h.complete x hx hnew hx'
        · exact absurd (congrArg Prod.snd (mem_singleton.mp hx)) hdst
    · dsimp only at hslot ⊢
      by_cases hdst : slot = dst
      · subst hdst
        refine .inr ⟨hne, src, hsrc, hold, fun tensor htensor => ?_⟩
        exact if_pos ⟨htensor, rfl⟩
      · rw [update_of_ne hdst] at hslot
        refine (h.sound slot hslot).imp_right fun ⟨hnew, src', hsrc', hold', hbuffer⟩ =>
          ⟨hnew, src', hsrc', hold', fun tensor htensor => ?_⟩
        rw [← hbuffer tensor htensor]
        exact if_neg fun hand => hdst hand.2
  · rename_i hold
    exact hsame fun _ heq => absurd heq hold

/-- The slots that a rank serves itself, and what is in its buffer for them. -/
theorem localCopies_spec (m : ExpertMaps) (rank numTensors : ℕ) (weights buffer : Weights ω) :
    CopiedLocally m rank numTensors weights
      ((List.range m.numLocalExperts).flatMap fun src =>
        (List.range m.numLocalExperts).map fun dst => (src, dst))
      (m.localCopies rank numTensors weights buffer) := by
  have hfold : ∀ pairs : List (ℕ × ℕ), (∀ x ∈ pairs, x.1 < m.numLocalExperts) →
      CopiedLocally m rank numTensors weights pairs
        (pairs.foldl (fun st x => m.localCopy rank numTensors weights st x.1 x.2)
          ⟨m.isUnchanged rank, buffer⟩) := by
    intro pairs
    induction pairs using List.reverseRecOn with
    | nil => exact fun _ => ⟨fun _ h => h, nofun, fun _ h => .inl h⟩
    | append_singleton pairs x ih =>
      intro hpairs
      rw [foldl_append]
      exact (ih fun y hy => hpairs y (mem_append_left _ hy)).step (hpairs x (by simp))
  have heq : m.localCopies rank numTensors weights buffer =
      ((List.range m.numLocalExperts).flatMap fun src =>
        (List.range m.numLocalExperts).map fun dst => (src, dst)).foldl
          (fun st x => m.localCopy rank numTensors weights st x.1 x.2)
          ⟨m.isUnchanged rank, buffer⟩ := by
    unfold localCopies
    rw [foldl_flatMap]
    congr 1
    funext st src
    rw [foldl_map]
  rw [heq]
  apply hfold
  intro x hx
  obtain ⟨src, hsrc, hx⟩ := mem_flatMap.mp hx
  obtain ⟨dst, -, rfl⟩ := mem_map.mp hx
  exact mem_range.mp hsrc

/-- A slot is served on its rank iff it keeps its expert or the rank holds it. -/
theorem isReceivedLocally_iff (m : ExpertMaps) (rank numTensors : ℕ) (weights buffer : Weights ω)
    {slot : ℕ} (hslot : slot < m.numLocalExperts) :
    (m.localCopies rank numTensors weights buffer).isReceivedLocally slot = true ↔
      m.Served rank slot := by
  have h := m.localCopies_spec rank numTensors weights buffer
  constructor
  · intro hreceived
    rcases h.sound slot hreceived with hunchanged | ⟨hnew, src, hsrc, hold, -⟩
    · exact .inl (by simpa [isUnchanged] using hunchanged)
    · exact .inr ⟨hnew, src, hsrc, hold⟩
  · rintro (hsame | ⟨hnew, src, hsrc, hold⟩)
    · exact h.unchanged slot (by simpa [isUnchanged] using hsame)
    · refine h.complete (src, slot) ?_ hnew hold
      exact mem_flatMap.mpr ⟨src, mem_range.mpr hsrc, mem_map.mpr ⟨slot, mem_range.mpr hslot, rfl⟩⟩

end LocalCopies

/-! ### Copies from the buffer -/

section CopyBack

/-- The weights after the copies from the buffer. -/
def copied (m : ExpertMaps) (rank numTensors : ℕ) (isReceivedLocally : ℕ → Bool)
    (loc : List (ℤ × ℕ)) (numSlots : ℕ) (weights buffer : Weights ω) : Weights ω :=
  fun tensor slot =>
    if tensor < numTensors ∧ slot < numSlots then
      match m.copySource rank isReceivedLocally loc slot with
      | .ok (some src) => buffer tensor src
      | _ => weights tensor slot
    else weights tensor slot

theorem copyBack_eq_ok {isReceivedLocally : ℕ → Bool} {loc : List (ℤ × ℕ)}
    (weights buffer : Weights ω)
    (h : ∀ dst < m.numLocalExperts, ∃ src, m.copySource rank isReceivedLocally loc dst = .ok src) :
    m.copyBack rank numTensors isReceivedLocally loc weights buffer =
      .ok (m.copied rank numTensors isReceivedLocally loc m.numLocalExperts weights buffer) := by
  unfold copyBack
  generalize m.numLocalExperts = n at h ⊢
  induction n with
  | zero =>
    refine congrArg Except.ok ?_
    funext tensor slot
    exact (if_neg fun hand => Nat.not_lt_zero slot hand.2).symm
  | succ n ih =>
    obtain ⟨src, hsrc⟩ := h n (Nat.lt_succ_self n)
    rw [range_succ, foldlM_append_eq_ok]
    refine ⟨_, ih fun dst hdst => h dst (Nat.lt_succ_of_lt hdst), ?_⟩
    rw [foldlM_cons_eq_ok]
    refine ⟨_, bind_eq_ok.mpr ⟨src, hsrc, ?_⟩, rfl⟩
    -- the copies so far concern the slots below `n`
    cases src with
    | none =>
      refine congrArg Except.ok ?_
      funext tensor slot
      unfold copied
      by_cases hslot : slot = n
      · subst hslot
        rw [if_neg fun hand => lt_irrefl _ hand.2, hsrc]
        split <;> rfl
      · have hlt : slot < n + 1 ↔ slot < n := by omega
        simp only [hlt]
    | some src =>
      refine congrArg Except.ok ?_
      funext tensor slot
      unfold copySlot copied
      by_cases hslot : slot = n
      · subst hslot
        rw [hsrc]
        by_cases htensor : tensor < numTensors
        · rw [if_pos ⟨htensor, rfl⟩, if_pos ⟨htensor, Nat.lt_succ_self _⟩]
        · rw [if_neg fun hand => htensor hand.1, if_neg fun hand => htensor hand.1,
            if_neg fun hand => htensor hand.1]
      · have hlt : slot < n + 1 ↔ slot < n := by omega
        rw [if_neg fun hand => hslot hand.2]
        simp only [hlt]

end CopyBack

/-! ### All ranks together -/

section Together

/-- Before the rearrangement every slot has the weights of its expert. -/
def Stored (m : ExpertMaps) (numTensors : ℕ) (weights : ℕ → Weights ω) (held : ℤ → ℕ → ω) : Prop :=
  ∀ rank < m.numRanks, ∀ slot < m.numLocalExperts, m.old rank slot ≠ -1 →
    ∀ tensor < numTensors, weights rank tensor slot = held (m.old rank slot) tensor

/-- A rank receives the experts that it needs and does not hold, each once and from a rank that
holds it. -/
structure Delivered (m : ExpertMaps) (rank : ℕ) (plan : List Receiving) : Prop where
  needed : ∀ r ∈ plan, m.Needs rank r.expert ∧ ¬m.Holds rank r.expert
  once : ∀ e, e ≠ -1 → m.Needs rank e → ¬m.Holds rank e → ∃ a < m.numRanks, m.Holds a e ∧
    (plan.filter fun r => r.expert = e).map Receiving.source = [a]

variable {a b : ℕ} {loc : List (ℤ × ℕ)} {locs : ℕ → List (ℤ × ℕ)} {weights : ℕ → Weights ω}
  {held : ℤ → ℕ → ω}

/-- What a rank posts. -/
def planOps (m : ExpertMaps) (numTensors : ℕ) (locs : ℕ → List (ℤ × ℕ)) (rank : ℕ) :
    List P2POp :=
  (m.sends rank).flatMap (Sending.ops numTensors) ++
    (m.recvs rank (locs rank)).flatMap (Receiving.ops numTensors)

theorem ranks_nodup_of_mem_sends (ha : a < m.numRanks) {s : Sending} (hs : s ∈ m.sends a) :
    s.ranks.Nodup := by
  obtain ⟨hloc, hranks⟩ := mem_sends.mp hs
  obtain ⟨hslot, hold, -⟩ := mem_expertsSendLoc hloc
  rw [hranks]
  exact nodup_share (mem_senders.mpr ⟨ha, s.src, hslot, hold⟩)

theorem sendsTo_planOps (ha : a < m.numRanks) (b : ℕ) :
    sendsTo b (m.planOps numTensors locs a) = (m.sendsFor a b).flatMap fun s =>
      (List.range numTensors).map fun tensor => (tensor, s.src) := by
  unfold planOps
  rw [sendsTo_append, sendsTo_recvs, append_nil,
    sendsTo_sends fun s hs => ranks_nodup_of_mem_sends ha hs]
  rfl

theorem recvsFrom_planOps (a b : ℕ) :
    recvsFrom a (m.planOps numTensors locs b) = places numTensors (m.recvsOf b a (locs b)) := by
  unfold planOps
  rw [recvsFrom_append, recvsFrom_sends, nil_append, recvsFrom_recvs]
  rfl

/-- What is sent is matched with what is received, expert by expert. -/
theorem matched (known : m.Known) (ha : a < m.numRanks) (hb : b < m.numRanks)
    (hloc : m.RecvLoc b loc) :
    List.Forall₂ (fun s r => s.expert = r.expert) (m.sendsFor a b) (m.recvsOf b a loc) := by
  have heq := sendsFor_expert_eq known ha hb hloc
  rw [← forall₂_eq_eq_eq, forall₂_map_left_iff, forall₂_map_right_iff] at heq
  exact heq

/-- Nothing that is posted is left over. -/
theorem paired_planOps {ops : ℕ → List P2POp} (known : m.Known)
    (hlocs : ∀ rank < m.numRanks, m.RecvLoc rank (locs rank))
    (hops : ∀ rank < m.numRanks, ops rank = m.planOps numTensors locs rank) :
    Paired m.numRanks ops := by
  intro a ha b hb
  have hlen := (matched known ha hb (hlocs b hb)).length_eq
  rw [hops a ha, hops b hb, sendsTo_planOps ha, recvsFrom_planOps, length_places, ← hlen]
  simp [length_flatMap]

/-- What arrives depends on the transfers of the ranks only. -/
theorem arrivals_congr {ops ops' : ℕ → List P2POp} {numRanks : ℕ}
    (h : ∀ rank < numRanks, ops rank = ops' rank) (weights : ℕ → Weights ω) (hb : b < numRanks) :
    arrivals numRanks ops weights b = arrivals numRanks ops' weights b := by
  unfold arrivals
  rw [flatMap_def, flatMap_def]
  congr 1
  apply map_congr_left
  intro a ha
  rw [h a (mem_range.mp ha), h b hb]

theorem arrivals_planOps (weights : ℕ → Weights ω) (b : ℕ) :
    arrivals m.numRanks (m.planOps numTensors locs) weights b =
      (List.range m.numRanks).flatMap fun a => (places numTensors (m.recvsOf b a (locs b))).zip
        (values numTensors (weights a) (m.sendsFor a b)) := by
  unfold arrivals
  rw [flatMap_def, flatMap_def]
  congr 1
  apply map_congr_left
  intro a ha
  rw [recvsFrom_planOps, sendsTo_planOps (mem_range.mp ha), map_flatMap]
  simp only [map_map]
  rfl

section

variable (known : m.Known) (hlocs : ∀ rank < m.numRanks, m.RecvLoc rank (locs rank))
include known hlocs

/-- What arrives at a rank is right: weights of the expert that the slot is for. -/
theorem mem_arrivals (stored : m.Stored numTensors weights held) (hb : b < m.numRanks)
    {w : (ℕ × ℕ) × ω} (hw : w ∈ arrivals m.numRanks (m.planOps numTensors locs) weights b) :
    ∃ r ∈ m.recvs b (locs b), ∃ tensor < numTensors,
      w = ((tensor, r.dst), held (m.new b r.dst) tensor) := by
  rw [arrivals_planOps] at hw
  obtain ⟨a, ha, hw⟩ := mem_flatMap.mp hw
  have ha := mem_range.mp ha
  obtain ⟨s, hs, r, hr, hexpert, tensor, htensor, rfl⟩ :=
    mem_zip_of_matched (matched known ha hb (hlocs b hb)) hw
  have hr := mem_of_mem_filter hr
  obtain ⟨hslot, hold, hne⟩ := mem_expertsSendLoc (mem_sends.mp (mem_of_mem_filter hs)).1
  obtain ⟨-, -, hnew, -⟩ := (hlocs b hb).slots (mem_recvs.mp hr).1
  refine ⟨r, hr, tensor, htensor, ?_⟩
  rw [stored a ha s.src hslot (hold ▸ hne) tensor htensor, hold, hexpert, hnew]

/-- Everything that a rank receives arrives. -/
theorem exists_mem_arrivals (weights : ℕ → Weights ω) (hb : b < m.numRanks) {r : Receiving}
    (hr : r ∈ m.recvs b (locs b)) {tensor : ℕ} (htensor : tensor < numTensors) :
    ∃ w ∈ arrivals m.numRanks (m.planOps numTensors locs) weights b, w.1 = (tensor, r.dst) := by
  obtain ⟨hloc, hsource⟩ := mem_recvs.mp hr
  obtain ⟨hsenders, hreceiver⟩ := (hlocs b hb).roles known hb (mem_map_of_mem hloc)
  have ha : r.source < m.numRanks := by
    rw [hsource]
    exact (mem_senders.mp (source_mem hsenders hreceiver)).1
  have hplace : (tensor, r.dst) ∈ places numTensors (m.recvsOf b r.source (locs b)) :=
    mem_flatMap.mpr ⟨r, mem_filter.mpr ⟨hr, decide_eq_true rfl⟩,
      mem_map.mpr ⟨tensor, mem_range.mpr htensor, rfl⟩⟩
  have hlen := (matched known ha hb (hlocs b hb)).length_eq
  have hzip : ((places numTensors (m.recvsOf b r.source (locs b))).zip
      (values numTensors (weights r.source) (m.sendsFor r.source b))).map Prod.fst =
        places numTensors (m.recvsOf b r.source (locs b)) :=
    map_fst_zip (by rw [length_places, length_values, hlen])
  rw [← hzip] at hplace
  obtain ⟨w, hw, heq⟩ := mem_map.mp hplace
  rw [arrivals_planOps]
  exact ⟨w, mem_flatMap.mpr ⟨r.source, mem_range.mpr ha, hw⟩, heq⟩

end

theorem filter_expert_eq {plan : List Receiving} (h : (plan.map Receiving.expert).Nodup)
    {r : Receiving} (hr : r ∈ plan) : (plan.filter fun x => x.expert = r.expert) = [r] := by
  induction plan with
  | nil => cases hr
  | cons x rest ih =>
    obtain ⟨hnotMem, hrest⟩ := nodup_cons.mp h
    rw [filter_cons]
    rcases mem_cons.mp hr with rfl | hr
    · have hnone : (rest.filter fun x => x.expert = r.expert) = [] := by
        rw [filter_eq_nil_iff]
        intro y hy heq
        exact hnotMem (mem_map.mpr ⟨y, hy, of_decide_eq_true heq⟩)
      rw [if_pos (decide_eq_true rfl), hnone]
    · have hne : x.expert ≠ r.expert := fun heq =>
        hnotMem (heq ▸ mem_map_of_mem hr)
      rw [if_neg (by simpa using hne), ih hrest hr]

/-- A rank receives each expert that it lacks exactly once. -/
theorem delivered (known : m.Known) (hb : b < m.numRanks) (hloc : m.RecvLoc b loc) :
    m.Delivered b (m.recvs b loc) where
  needed r hr := by
    obtain ⟨-, hneeds, hnot⟩ := hloc.mem_keys.mp (mem_map_of_mem (mem_recvs.mp hr).1)
    exact ⟨hneeds, hnot⟩
  once e hne hneeds hnot := by
    have hkey := hloc.mem_keys.mpr ⟨hne, hneeds, hnot⟩
    obtain ⟨hsenders, hreceiver⟩ := hloc.roles known hb hkey
    obtain ⟨x, hx, rfl⟩ := mem_map.mp hkey
    have hr : m.receivingOf b x ∈ m.recvs b loc := mem_recvs.mpr ⟨hx, rfl⟩
    obtain ⟨ha, hholds⟩ := mem_senders.mp (source_mem hsenders hreceiver)
    refine ⟨m.source x.1 b, ha, hholds, ?_⟩
    have hnodup := (recvs_pairwise hloc).imp fun h => h.ne
    exact congrArg (List.map Receiving.source) (filter_expert_eq hnodup hr)

theorem exists_lookup {e : ℤ} (h : e ∈ loc.map Prod.fst) :
    ∃ slot, loc.lookup e = some slot ∧ (e, slot) ∈ loc := by
  induction loc with
  | nil => cases h
  | cons x rest ih =>
    obtain ⟨key, slot⟩ := x
    by_cases hkey : e = key
    · subst hkey
      exact ⟨slot, lookup_cons_self, mem_cons_self⟩
    · obtain ⟨slot', hget, hmem⟩ := ih ((mem_cons.mp h).resolve_left hkey)
      refine ⟨slot', ?_, mem_cons_of_mem _ hmem⟩
      rw [lookup_cons, beq_false_of_ne hkey]
      exact hget

/-- Where a slot gets its weights from. -/
theorem copySource_spec (m : ExpertMaps) (rank : ℕ) (received : ℕ → Bool) {slot : ℕ}
    (hslot : slot < m.numLocalExperts) :
    (m.isUnchanged rank slot = true ∧
      m.copySource rank received (m.expertsRecvLoc rank received) slot = .ok none) ∨
    (m.isUnchanged rank slot = false ∧ received slot = true ∧
      m.copySource rank received (m.expertsRecvLoc rank received) slot = .ok (some slot)) ∨
    (m.new rank slot = -1 ∧
      m.copySource rank received (m.expertsRecvLoc rank received) slot = .ok none) ∨
    ∃ src, (m.new rank slot, src) ∈ m.expertsRecvLoc rank received ∧
      m.copySource rank received (m.expertsRecvLoc rank received) slot = .ok (some src) := by
  unfold copySource
  split
  · rename_i hunchanged
    exact .inl ⟨hunchanged, rfl⟩
  rename_i hchanged
  split
  · rename_i hserved
    exact .inr (.inl ⟨Bool.eq_false_iff.mpr hchanged, hserved, rfl⟩)
  rename_i hserved
  split
  · rename_i hempty
    exact .inr (.inr (.inl ⟨hempty, rfl⟩))
  · rename_i hne
    have hkey := (firstSlots_spec received (m.new rank) m.numLocalExperts).complete slot hslot
      (Bool.eq_false_iff.mpr hserved) hne
    obtain ⟨src, hget, hmem⟩ := exists_lookup hkey
    refine .inr (.inr (.inr ⟨src, hmem, ?_⟩))
    unfold expertsRecvLoc
    rw [hget]

/-- The local copies of a rank. -/
def copiesOf (m : ExpertMaps) (numTensors : ℕ) (weights buffers : ℕ → Weights ω) (rank : ℕ) :
    LocalCopies ω :=
  m.localCopies rank numTensors (weights rank) (buffers rank)

/-- The slots that a rank receives experts in. -/
def locOf (m : ExpertMaps) (numTensors : ℕ) (weights buffers : ℕ → Weights ω) (rank : ℕ) :
    List (ℤ × ℕ) :=
  m.expertsRecvLoc rank (m.copiesOf numTensors weights buffers rank).isReceivedLocally

/-- The weights of a rank in the end. -/
def rearrangedWeights (m : ExpertMaps) (numTensors : ℕ) (weights buffers : ℕ → Weights ω)
    (rank : ℕ) : Weights ω :=
  m.copied rank numTensors (m.copiesOf numTensors weights buffers rank).isReceivedLocally
    (m.locOf numTensors weights buffers rank) m.numLocalExperts (weights rank)
    (writeAll (m.copiesOf numTensors weights buffers rank).buffer
      (arrivals m.numRanks (m.planOps numTensors (m.locOf numTensors weights buffers)) weights
        rank))

variable {buffers : ℕ → Weights ω}

theorem recvLoc_locOf (rank : ℕ) : m.RecvLoc rank (m.locOf numTensors weights buffers rank) :=
  ⟨_, fun _ hslot => isReceivedLocally_iff _ _ _ _ _ hslot, rfl⟩

/-- Every rank posts its plans. -/
theorem post_eq_ok (known : m.Known) (hrank : rank < m.numRanks) :
    m.post rank numTensors (weights rank) (buffers rank) = .ok
      { isReceivedLocally := (m.copiesOf numTensors weights buffers rank).isReceivedLocally
        buffer := (m.copiesOf numTensors weights buffers rank).buffer
        expertsRecvLoc := m.locOf numTensors weights buffers rank
        p2pOps := m.planOps numTensors (m.locOf numTensors weights buffers) rank } := by
  refine bind_eq_ok.mpr ⟨_, sendPlan_eq_ok hrank, ?_⟩
  exact bind_eq_ok.mpr ⟨_, recvPlan_eq_ok known hrank (recvLoc_locOf rank), rfl⟩

theorem zipIdx_map_range {α : Type} (f : ℕ → α) (n : ℕ) :
    ((List.range n).map f).zipIdx = (List.range n).map fun i => (f i, i) := by
  induction n with
  | zero => rfl
  | succ n ih =>
    rw [range_succ, map_append, zipIdx_append, ih, map_append]
    simp

/-- The rearrangement returns. -/
theorem shuffleLayer_eq_ok (known : m.Known) {transfer : Transfer ω} (inOrder : transfer.InOrder)
    (weights buffers : ℕ → Weights ω) :
    m.shuffleLayer transfer numTensors weights buffers =
      .ok ((List.range m.numRanks).map (m.rearrangedWeights numTensors weights buffers)) := by
  let posted : ℕ → Posted ω := fun rank =>
    { isReceivedLocally := (m.copiesOf numTensors weights buffers rank).isReceivedLocally
      buffer := (m.copiesOf numTensors weights buffers rank).buffer
      expertsRecvLoc := m.locOf numTensors weights buffers rank
      p2pOps := m.planOps numTensors (m.locOf numTensors weights buffers) rank }
  have hposted : ((List.range m.numRanks).mapM fun rank =>
      m.post rank numTensors (weights rank) (buffers rank)) =
        .ok ((List.range m.numRanks).map posted) :=
    mapM_eq_ok _ fun rank hrank => post_eq_ok known (mem_range.mp hrank)
  have hget : ∀ rank < m.numRanks,
      ((List.range m.numRanks).map posted)[rank]? = some (posted rank) := by
    intro rank hrank
    rw [getElem?_map, getElem?_range hrank]
    rfl
  have hops : ∀ rank < m.numRanks,
      (((List.range m.numRanks).map posted)[rank]?.map Posted.p2pOps).getD [] =
        m.planOps numTensors (m.locOf numTensors weights buffers) rank := by
    intro rank hrank
    rw [hget rank hrank]
    rfl
  refine bind_eq_ok.mpr ⟨_, hposted, ?_⟩
  obtain ⟨received, htransfer, hreceived⟩ := inOrder m.numRanks _ weights
    (fun rank => (((List.range m.numRanks).map posted)[rank]?.map Posted.buffer).getD
      (buffers rank)) (paired_planOps known (fun rank _ => recvLoc_locOf rank) hops)
  refine bind_eq_ok.mpr ⟨received, htransfer, ?_⟩
  -- every rank copies from its buffer
  rw [zipIdx_map_range]
  have hresult : ((List.range m.numRanks).map fun rank => (posted rank, rank)).map
      (fun x => m.rearrangedWeights numTensors weights buffers x.2) =
        (List.range m.numRanks).map (m.rearrangedWeights numTensors weights buffers) := by
    rw [map_map]
    rfl
  rw [← hresult]
  apply mapM_eq_ok
  intro x hx
  obtain ⟨rank, hrank, rfl⟩ := mem_map.mp hx
  have hrank := mem_range.mp hrank
  dsimp only
  rw [hreceived rank hrank, arrivals_congr hops weights hrank, hget rank hrank]
  refine copyBack_eq_ok _ _ fun dst hdst => ?_
  obtain ⟨-, h⟩ | ⟨-, -, h⟩ | ⟨-, h⟩ | ⟨_, -, h⟩ := copySource_spec m rank
    (m.copiesOf numTensors weights buffers rank).isReceivedLocally hdst
  · exact ⟨_, h⟩
  · exact ⟨_, h⟩
  · exact ⟨_, h⟩
  · exact ⟨_, h⟩

/-- In the end every slot has the weights of its new expert. -/
theorem rearrangedWeights_eq (known : m.Known) (stored : m.Stored numTensors weights held)
    (hrank : rank < m.numRanks) {slot : ℕ} (hslot : slot < m.numLocalExperts)
    (hne : m.new rank slot ≠ -1) {tensor : ℕ} (htensor : tensor < numTensors) :
    m.rearrangedWeights numTensors weights buffers rank tensor slot =
      held (m.new rank slot) tensor := by
  have hlocs : ∀ rank < m.numRanks, m.RecvLoc rank (m.locOf numTensors weights buffers rank) :=
    fun rank _ => recvLoc_locOf rank
  have hcopies := m.localCopies_spec rank numTensors (weights rank) (buffers rank)
  have hserved := m.isReceivedLocally_iff rank numTensors (weights rank) (buffers rank) hslot
  unfold rearrangedWeights copied
  rw [if_pos ⟨htensor, hslot⟩]
  obtain ⟨hunchanged, h⟩ | ⟨hchanged, hreceived, h⟩ | ⟨hempty, -⟩ | ⟨src, hsrc, h⟩ :=
    copySource_spec m rank (m.copiesOf numTensors weights buffers rank).isReceivedLocally hslot
  · -- the slot keeps its weights
    unfold locOf
    rw [h]
    have hsame : m.old rank slot = m.new rank slot := by simpa [isUnchanged] using hunchanged
    rw [stored rank hrank slot hslot (hsame ▸ hne) tensor htensor, hsame]
  · -- copied on the rank; nothing arrives in this slot of the buffer
    have huntouched : ∀ w ∈ arrivals m.numRanks
        (m.planOps numTensors (m.locOf numTensors weights buffers)) weights rank,
        w.1 ≠ (tensor, slot) := by
      intro w hw heq
      obtain ⟨r, hr, t, -, rfl⟩ := mem_arrivals known hlocs stored hrank hw
      obtain ⟨-, rfl⟩ := Prod.mk.inj heq
      exact ((hlocs rank hrank).slots (mem_recvs.mp hr).1).2.1 (hserved.mp hreceived)
    rcases hcopies.sound slot hreceived with hunchanged | ⟨-, src, hsrc, hold, hbuffer⟩
    · rw [hchanged] at hunchanged
      cases hunchanged
    · unfold locOf at huntouched ⊢
      rw [h]
      dsimp only
      rw [writeAll_of_notMem _ huntouched]
      unfold copiesOf
      rw [hbuffer tensor htensor, stored rank hrank src hsrc (hold ▸ hne) tensor htensor, hold]
  · exact absurd hempty hne
  · -- received from another rank
    have hr : m.receivingOf rank (m.new rank slot, src) ∈
        m.recvs rank (m.locOf numTensors weights buffers rank) := mem_recvs.mpr ⟨hsrc, rfl⟩
    obtain ⟨w, hw, hplace⟩ := exists_mem_arrivals known hlocs weights hrank hr htensor
    have hnew : m.new rank src = m.new rank slot := ((hlocs rank hrank).slots hsrc).2.2.1
    have hvalue : ∀ w ∈ arrivals m.numRanks
        (m.planOps numTensors (m.locOf numTensors weights buffers)) weights rank,
        w.1 = (tensor, src) → w.2 = held (m.new rank slot) tensor := by
      intro w hw heq
      obtain ⟨r, hr, t, -, rfl⟩ := mem_arrivals known hlocs stored hrank hw
      obtain ⟨rfl, rfl⟩ := Prod.mk.inj heq
      rw [hnew]
    unfold locOf at hvalue hw ⊢
    rw [h]
    dsimp only
    exact writeAll_of_mem _ hvalue ⟨w, hw, hplace⟩

/-- The exchange is matched and complete: what a rank sends to another is what the other one
expects, in the same order; a rank receives each expert that it lacks once and from a rank that
holds it; nobody raises an exception or waits forever; and in the end every slot has the weights of
its new expert. -/
theorem rearranged (m : ExpertMaps) (known : m.Known) {transfer : Transfer ω}
    (inOrder : transfer.InOrder) (numTensors : ℕ) (weights buffers : ℕ → Weights ω)
    (held : ℤ → ℕ → ω) (stored : m.Stored numTensors weights held) :
    ∃ (sends : ℕ → List Sending) (recvs : ℕ → List Receiving) (result : List (Weights ω)),
      (∀ rank < m.numRanks, m.sendPlan rank = .ok (sends rank) ∧
        m.recvPlan rank (m.expertsRecvLoc rank (m.localCopies rank numTensors (weights rank)
          (buffers rank)).isReceivedLocally) = .ok (recvs rank)) ∧
      (∀ a < m.numRanks, ∀ b < m.numRanks, expertsTo b (sends a) = expertsFrom a (recvs b)) ∧
      (∀ rank < m.numRanks, m.Delivered rank (recvs rank)) ∧
      m.shuffleLayer transfer numTensors weights buffers = .ok result ∧
      ∀ rank < m.numRanks, ∀ slot < m.numLocalExperts, m.new rank slot ≠ -1 →
        ∀ tensor < numTensors,
          (result[rank]?).map (fun w => w tensor slot) = some (held (m.new rank slot) tensor) := by
  refine ⟨m.sends, fun rank => m.recvs rank (m.locOf numTensors weights buffers rank), _,
    fun rank hrank => ⟨sendPlan_eq_ok hrank, recvPlan_eq_ok known hrank (recvLoc_locOf rank)⟩,
    fun a ha b hb => ?_, fun rank hrank => delivered known hrank (recvLoc_locOf rank),
    shuffleLayer_eq_ok known inOrder weights buffers,
    fun rank hrank slot hslot hne tensor htensor => ?_⟩
  · rw [expertsTo_eq fun s hs => ranks_nodup_of_mem_sends ha hs]
    exact sendsFor_expert_eq known ha hb (recvLoc_locOf b)
  · rw [getElem?_map, getElem?_range hrank]
    exact congrArg some (rearrangedWeights_eq known stored hrank hslot hne htensor)

end Together

/-- Two ranks exchange experts; one of them duplicates an expert, and one has an empty slot. -/
def twoRanks : ExpertMaps where
  numRanks := 2
  numLocalExperts := 3
  oldIndices := [0, 1, 2, 0, 3, -1]
  newIndices := [3, 0, 3, 1, 2, -1]
  old_length := rfl
  new_length := rfl

/-- The value of a weight is its expert and its tensor. -/
theorem rearranged_twoRanks :
    ∃ result, twoRanks.shuffleLayer exchange 2
        (fun rank tensor slot => (twoRanks.old rank slot, tensor)) (fun _ _ _ => (0, 0)) =
          .ok result ∧
      (result[0]?).map (fun w => w 1 2) = some (3, 1) := by
  have known : twoRanks.Known := by
    unfold Known
    decide
  obtain ⟨-, -, result, -, -, -, hok, hresult⟩ := rearranged twoRanks known exchange_inOrder 2
    (fun rank tensor slot => (twoRanks.old rank slot, tensor)) (fun _ _ _ => (0, 0))
    (fun e tensor => (e, tensor)) fun _ _ _ _ _ _ _ => rfl
  exact ⟨result, hok, hresult 0 (by decide) 2 (by decide) (by decide) 1 (by decide)⟩

end ExpertMaps

end Eplb
