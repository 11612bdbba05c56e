import Mosaic.Kv.Layout
import Mathlib.Algebra.BigOperators.Group.List.Basic
import Mathlib.Algebra.Group.Action.Defs

/-!
# The layout is a partition

Every layer of a hybrid model is in one group and in one tensor. Groups are pieces of the lists of
layers of one specification, and tensors are the columns of the table of groups, so that two layers
of one group never share a tensor.
-/

namespace Kv

open List Fallible Int

/-! ### Merging equal specifications -/

namespace KVCacheSpec

/-- The specification records at most one of the two sizes. -/
def Mergeable (spec : KVCacheSpec) : Prop :=
  ¬ (spec.recordedWindow.isSome ∧ spec.recordedChunkSize.isSome)

instance (spec : KVCacheSpec) : Decidable spec.Mergeable :=
  inferInstanceAs (Decidable (¬ _))

/-- The failure of a specification that records both sizes. -/
def mergeError : KvError :=
  .assertionError ("Model with both sliding window layers and chunked local attention " ++
    "layers is not supported.")

theorem mergeWindowSizes_const (recorded : KVCacheSpec → Option ℕ) (spec : KVCacheSpec) (n : ℕ) :
    mergeWindowSizes ((List.replicate (n + 1) spec).filterMap recorded) = .ok (recorded spec) := by
  rw [mergeWindowSizes]
  cases h : recorded spec with
  | none => rw [filterMap_replicate_of_none h, dedup_nil]
  | some size =>
    rw [filterMap_replicate_of_some h, replicate_dedup n.succ_ne_zero]

theorem mergeFullAttention_const (attn : AttentionSpec) (window chunkSize : Option ℕ) (n : ℕ) :
    mergeFullAttention attn (List.replicate (n + 1) (fullAttention attn window chunkSize)) =
      if window.isSome ∧ chunkSize.isSome then .error mergeError
      else .ok (fullAttention attn window chunkSize) := by
  have hfull : ¬ ∃ spec ∈ List.replicate (n + 1) (fullAttention attn window chunkSize),
      spec.isFullAttention = false := by
    rintro ⟨spec, hmem, hnot⟩
    obtain rfl := eq_of_mem_replicate hmem
    cases hnot
  have hattn : ¬ ∃ spec ∈ List.replicate (n + 1) (fullAttention attn window chunkSize),
      spec.attn? ≠ some attn := by
    rintro ⟨spec, hmem, hne⟩
    obtain rfl := eq_of_mem_replicate hmem
    exact hne rfl
  rw [mergeFullAttention, if_neg hfull, mergeWindowSizes_const, mergeWindowSizes_const]
  change (if ∃ spec ∈ _, _ then _ else if window.isSome ∧ chunkSize.isSome then _ else _) = _
  rw [if_neg hattn]
  rfl

/-- Equal specifications are merged into themselves. -/
theorem merge_const {spec : KVCacheSpec} {specs : List KVCacheSpec} (hne : specs ≠ [])
    (hall : ∀ x ∈ specs, x = spec) :
    merge specs = if spec.Mergeable then .ok spec else .error mergeError := by
  obtain ⟨n, rfl⟩ : ∃ n, specs = List.replicate (n + 1) spec := by
    refine ⟨specs.length - 1, ?_⟩
    have hpos := length_pos_iff.mpr hne
    rw [Nat.sub_add_cancel hpos]
    exact eq_replicate_of_mem hall
  have hrest : ∀ x ∈ List.replicate n spec, x = spec := fun x => eq_of_mem_replicate
  cases spec with
  | fullAttention attn window chunkSize =>
    refine (mergeFullAttention_const attn window chunkSize n).trans ?_
    by_cases h : window.isSome ∧ chunkSize.isSome
    · rw [if_pos h, if_neg (fun hmergeable => hmergeable h)]
    · rw [if_neg h]
      exact (if_pos h).symm
  | _ =>
    rw [replicate_succ, merge, if_pos hrest, if_pos (by simp [Mergeable, recordedWindow])]
    simp

/-- A page that is not empty is needed for a request. -/
theorem maxBlocks_pos {cfg : VllmConfig} (hlen : 0 < cfg.maxModelLen)
    (hbatch : 0 < cfg.maxNumBatchedTokens) {spec : KVCacheSpec} {pageSize : ℕ}
    (hpage : spec.pageSizeBytes = .ok pageSize) (hpos : 0 < pageSize) :
    0 < spec.maxBlocks cfg := by
  have hblock : ∀ attn : AttentionSpec, attn.pageSizeBytes = pageSize → 0 < attn.blockSize := by
    intro attn hattn
    rcases Nat.eq_zero_or_pos attn.blockSize with hzero | hblock
    · rw [AttentionSpec.pageSizeBytes, hzero] at hattn
      omega
    · exact hblock
  have hcdiv : ∀ {a b : ℕ}, 0 < a → 0 < b → 0 < cdiv a b := fun ha hb =>
    Nat.div_pos (by omega) hb
  cases spec with
  | fullAttention attn _ _ => exact hcdiv hlen (hblock attn (Except.ok.inj hpage))
  | slidingWindow attn _ => exact Nat.succ_pos _
  | chunkedLocalAttention attn _ =>
    exact hcdiv (lt_min (Nat.add_pos_right _ hbatch) hlen) (hblock attn (Except.ok.inj hpage))
  | mamba _ _ _ _ _ => exact Nat.one_pos

end KVCacheSpec

/-! ### The groups -/

section Groups

variable {kvCacheSpec : List (String × KVCacheSpec)} {spec : KVCacheSpec}

theorem layerSpec_eq_ok (hkeys : (kvCacheSpec.map Prod.fst).Nodup) {layerName : String}
    (h : (layerName, spec) ∈ kvCacheSpec) :
    layerSpec kvCacheSpec layerName = .ok spec := by
  have hget : kvCacheSpec.lookup layerName = some spec := by
    induction kvCacheSpec with
    | nil => cases h
    | cons layer rest ih =>
      rw [map_cons, nodup_cons] at hkeys
      rcases mem_cons.mp h with rfl | hrest
      · exact lookup_cons_self
      · have hne : layerName ≠ layer.1 := fun heq =>
          hkeys.1 (heq ▸ mem_map_of_mem hrest)
        rw [lookup_cons, beq_false_of_ne hne]
        exact ih hkeys.2 hrest
  rw [layerSpec, hget]

/-- Layers of one specification, as many as there are in a group. -/
structure Alike (kvCacheSpec : List (String × KVCacheSpec)) (groupSize : ℕ)
    (layerNames : List String) : Prop where
  nonempty : layerNames ≠ []
  length_le : layerNames.length ≤ groupSize
  same : ∃ spec, ∀ name ∈ layerNames, (name, spec) ∈ kvCacheSpec

theorem groupSize_sameTypeLayers (hne : kvCacheSpec ≠ []) :
    ∃ groupSize, groupSize? (sameTypeLayers kvCacheSpec) = .ok groupSize ∧ 0 < groupSize := by
  have hrows : sameTypeLayers kvCacheSpec ≠ [] := by
    intro hnil
    have hperm := Ragged.perm_groupBy kvCacheSpec
    rw [← sameTypeLayers, hnil, flatMap_nil, nil_perm, map_eq_nil_iff] at hperm
    exact hne hperm
  cases hmin : ((sameTypeLayers kvCacheSpec).map fun row => row.2.length).min? with
  | none =>
    rw [min?_eq_none_iff, map_eq_nil_iff] at hmin
    exact absurd hmin hrows
  | some size =>
    obtain ⟨row, hrow, rfl⟩ := mem_map.mp (min?_mem hmin)
    refine ⟨row.2.length, by rw [groupSize?, hmin], ?_⟩
    exact length_pos_iff.mpr (Ragged.mem_groupBy hrow).1

variable {layerNames : List String} {groupSize : ℕ}

theorem alike_groupedLayers (hsize : 0 < groupSize)
    (h : layerNames ∈ groupedLayers (sameTypeLayers kvCacheSpec) groupSize) :
    Alike kvCacheSpec groupSize layerNames := by
  obtain ⟨row, hrow, hpiece⟩ := mem_flatMap.mp h
  have hflatten := Ragged.flatten_chunks hsize row.2
  obtain ⟨hne, hlength⟩ := Ragged.mem_chunks hsize hpiece
  refine ⟨hne, hlength, row.1, fun name hname => (Ragged.mem_groupBy hrow).2 name ?_⟩
  rw [← hflatten]
  exact mem_flatten_of_mem hpiece hname

theorem perm_groupedLayers {groupSize : ℕ} (hsize : 0 < groupSize) :
    (groupedLayers (sameTypeLayers kvCacheSpec) groupSize).flatten.Perm
      (kvCacheSpec.map Prod.fst) := by
  rw [groupedLayers, flatMap_def, flatten_flatten, map_map]
  have hpieces : List.flatten ∘ (fun row : KVCacheSpec × List String =>
      Ragged.chunks groupSize row.2) = Prod.snd :=
    funext fun row => Ragged.flatten_chunks hsize row.2
  rw [hpieces, ← flatMap_def]
  exact Ragged.perm_groupBy kvCacheSpec

section

variable (hkeys : (kvCacheSpec.map Prod.fst).Nodup) (hne : layerNames ≠ [])
  (hsame : ∀ name ∈ layerNames, (name, spec) ∈ kvCacheSpec)
include hkeys hne hsame

/-- The group of layers of one specification. -/
theorem mergeLayers : (layerNames.mapM (layerSpec kvCacheSpec) >>= KVCacheSpec.merge) =
      if spec.Mergeable then .ok spec else .error KVCacheSpec.mergeError := by
  rw [mapM_eq_ok layerNames fun name hname => layerSpec_eq_ok hkeys (hsame name hname)]
  refine KVCacheSpec.merge_const (fun hnil => hne (map_eq_nil_iff.mp hnil)) ?_
  intro x hx
  obtain ⟨_, _, rfl⟩ := mem_map.mp hx
  rfl

theorem createGroup_eq : (do
      let layerSpecs ← layerNames.mapM (layerSpec kvCacheSpec)
      let mergedLayerSpec ← KVCacheSpec.merge layerSpecs
      return (⟨layerNames, mergedLayerSpec⟩ : KVCacheGroupSpec)) =
      if spec.Mergeable then .ok ⟨layerNames, spec⟩ else .error KVCacheSpec.mergeError := by
  rw [← bind_assoc, mergeLayers hkeys hne hsame]
  split
  · rfl
  · rfl

end

/-- The layers of a group have the specification of the group. -/
def GroupOf (kvCacheSpec : List (String × KVCacheSpec)) (layerNames : List String)
    (group : KVCacheGroupSpec) : Prop :=
  group.layerNames = layerNames ∧ ∀ name ∈ layerNames, (name, group.kvCacheSpec) ∈ kvCacheSpec

variable {grouped : List (List String)}

section

variable (hkeys : (kvCacheSpec.map Prod.fst).Nodup)
  (halike : ∀ names ∈ grouped, Alike kvCacheSpec groupSize names)
include hkeys halike

theorem createKvCacheGroupSpecs_isOk (hmerge : ∀ layer ∈ kvCacheSpec, layer.2.Mergeable) :
    ∃ groups, createKvCacheGroupSpecs kvCacheSpec grouped = .ok groups ∧
      List.Forall₂ (GroupOf kvCacheSpec) grouped groups := by
  refine mapM_isOk_forall₂ fun names hnames => ?_
  obtain ⟨hne, -, spec, hsame⟩ := halike names hnames
  obtain ⟨name, hname⟩ := exists_mem_of_ne_nil _ hne
  refine ⟨⟨names, spec⟩, ?_, rfl, hsame⟩
  rw [createGroup_eq hkeys hne hsame, if_pos (hmerge _ (hsame name hname))]

/-- The group of a layer that records two sizes cannot be built. -/
theorem createKvCacheGroupSpecs_error (hperm : grouped.flatten.Perm (kvCacheSpec.map Prod.fst))
    (hmerge : ∃ layer ∈ kvCacheSpec, ¬ layer.2.Mergeable) :
    createKvCacheGroupSpecs kvCacheSpec grouped = .error KVCacheSpec.mergeError := by
  refine mapM_eq_error (fun names hnames => ?_) ?_
  · obtain ⟨hne, -, spec, hsame⟩ := halike names hnames
    rw [createGroup_eq hkeys hne hsame]
    split
    · exact .inl ⟨_, rfl⟩
    · exact .inr rfl
  · obtain ⟨layer, hlayer, hnot⟩ := hmerge
    have hmem := hperm.mem_iff.mpr (mem_map_of_mem (f := Prod.fst) hlayer)
    obtain ⟨names, hnames, hname⟩ := mem_flatten.mp hmem
    obtain ⟨hne, -, spec, hsame⟩ := halike names hnames
    have hspec : spec = layer.2 := by
      have hleft := layerSpec_eq_ok hkeys (hsame _ hname)
      have hright : layerSpec kvCacheSpec layer.1 = .ok layer.2 := layerSpec_eq_ok hkeys hlayer
      exact Except.ok.inj (hleft.symm.trans hright)
    refine ⟨names, hnames, ?_⟩
    rw [createGroup_eq hkeys hne hsame, hspec, if_neg hnot]

end

section

variable {groups : List KVCacheGroupSpec} (h : List.Forall₂ (GroupOf kvCacheSpec) grouped groups)
include h

theorem map_layerNames : groups.map KVCacheGroupSpec.layerNames = grouped := by
  induction h with
  | nil => rfl
  | cons hgroup _ ih => rw [map_cons, hgroup.1, ih]

theorem spec_of_mem_groups {group : KVCacheGroupSpec} (hgroup : group ∈ groups) :
    group.layerNames ∈ grouped ∧
      ∀ name ∈ group.layerNames, (name, group.kvCacheSpec) ∈ kvCacheSpec := by
  induction h with
  | nil => cases hgroup
  | cons hfirst _ ih =>
    rcases mem_cons.mp hgroup with rfl | hrest
    · rw [hfirst.1]
      exact ⟨mem_cons_self, hfirst.2⟩
    · exact ⟨mem_cons_of_mem _ (ih hrest).1, (ih hrest).2⟩

end

theorem getUniformPageSize_eq_ok (hne : kvCacheSpec ≠ []) {pageSize : ℕ}
    (hpage : ∀ layer ∈ kvCacheSpec, layer.2.pageSizeBytes = .ok pageSize) :
    getUniformPageSize kvCacheSpec = .ok pageSize := by
  have hsizes : ∀ spec ∈ kvCacheSpec.map Prod.snd, spec.pageSizeBytes = .ok pageSize := by
    intro spec hspec
    obtain ⟨layer, hlayer, rfl⟩ := mem_map.mp hspec
    exact hpage layer hlayer
  have hlength : (kvCacheSpec.map Prod.snd).length ≠ 0 := by
    rw [length_map]
    exact (length_pos_iff.mpr hne).ne'
  rw [getUniformPageSize, mapM_eq_ok _ hsizes, map_const']
  simp only [bind, Except.bind]
  rw [replicate_dedup hlength]
  rfl

end Groups

/-! ### What is logged -/

theorem le_foldl_max {sizes : List ℕ} {start : ℕ} : start ≤ sizes.foldl max start := by
  induction sizes generalizing start with
  | nil => exact le_rfl
  | cons size sizes ih => exact (le_max_left start size).trans ih

theorem getMaxConcurrency_isOk {cfg : VllmConfig} (hlen : 0 < cfg.maxModelLen)
    (hbatch : 0 < cfg.maxNumBatchedTokens) {pageSize : ℕ} (hpos : 0 < pageSize)
    {config : KVCacheConfig} (hne : config.kvCacheGroups ≠ [])
    (hpage : ∀ group ∈ config.kvCacheGroups, group.layerNames ≠ [] ∧
      group.kvCacheSpec.pageSizeBytes = .ok pageSize) :
    ∃ concurrency, getMaxConcurrencyForKvCacheConfig cfg config = .ok concurrency := by
  cases hgroups : config.kvCacheGroups with
  | nil => exact absurd hgroups hne
  | cons first rest =>
    rw [hgroups] at hpage
    obtain ⟨hnames, hfirst⟩ := hpage first mem_cons_self
    have husage : ∀ spec ∈ (first :: rest).map KVCacheGroupSpec.kvCacheSpec,
        spec.maxMemoryUsageBytes cfg = .ok (spec.maxBlocks cfg * pageSize) := by
      intro spec hspec
      obtain ⟨group, hgroup, rfl⟩ := mem_map.mp hspec
      exact bind_eq_ok.mpr ⟨pageSize, (hpage group hgroup).2, rfl⟩
    have hlayers : 0 < ((first :: rest).map fun group => group.layerNames.length).foldl max 0 := by
      refine lt_of_lt_of_le (length_pos_iff.mpr hnames) ?_
      exact (le_max_right 0 _).trans le_foldl_max
    have hblocks := KVCacheSpec.maxBlocks_pos hlen hbatch hfirst hpos
    have hsum : 0 < (((first :: rest).map KVCacheGroupSpec.kvCacheSpec).map fun spec =>
        spec.maxBlocks cfg * pageSize).sum := by
      rw [map_cons, map_cons, sum_cons]
      exact Nat.add_pos_left (Nat.mul_pos hblocks hpos) _
    have hmemory := Nat.mul_pos hpos hlayers
    have hcdiv : 0 < cdiv (((first :: rest).map fun group =>
        group.layerNames.length).foldl max 0 * (((first :: rest).map
        KVCacheGroupSpec.kvCacheSpec).map fun spec => spec.maxBlocks cfg * pageSize).sum)
        (pageSize * ((first :: rest).map fun group => group.layerNames.length).foldl max 0) := by
      have hpositive := Nat.mul_pos hlayers hsum
      exact Nat.div_pos (by omega) hmemory
    rw [getMaxConcurrencyForKvCacheConfig, hgroups]
    dsimp only
    rw [maxMemoryUsageBytes, mapM_eq_ok _ husage, hfirst]
    change ∃ concurrency, (if _ = 0 then _ else if _ = 0 then _ else Except.ok _) =
      Except.ok concurrency
    rw [if_neg hmemory.ne', if_neg hcdiv.ne']
    exact ⟨_, rfl⟩

/-! ### The configuration -/

/-- The layers are parted into groups of one specification, and into tensors of `numBlocks` pages,
none of which is shared within a group. -/
structure IsLayout (kvCacheSpec : List (String × KVCacheSpec)) (pageSize : ℕ)
    (config : KVCacheConfig) : Prop where
  groups : (config.kvCacheGroups.flatMap KVCacheGroupSpec.layerNames).Perm
    (kvCacheSpec.map Prod.fst)
  same : ∀ group ∈ config.kvCacheGroups, ∀ name ∈ group.layerNames,
    (name, group.kvCacheSpec) ∈ kvCacheSpec
  tensors : (config.kvCacheTensors.flatMap KVCacheTensor.sharedBy).Perm
    (kvCacheSpec.map Prod.fst)
  apart : ∀ tensor ∈ config.kvCacheTensors, ∀ group ∈ config.kvCacheGroups,
    ∀ name ∈ tensor.sharedBy, ∀ name' ∈ tensor.sharedBy,
    name ∈ group.layerNames → name' ∈ group.layerNames → name = name'
  enough : ∀ group ∈ config.kvCacheGroups,
    group.layerNames.length ≤ config.kvCacheTensors.length
  pages : ∀ tensor ∈ config.kvCacheTensors, tensor.size = config.numBlocks * pageSize

theorem isLayout_kvCacheTensors {kvCacheSpec : List (String × KVCacheSpec)}
    (hkeys : (kvCacheSpec.map Prod.fst).Nodup) {groupSize pageSize numBlocks : ℕ}
    {grouped : List (List String)} (halike : ∀ names ∈ grouped, Alike kvCacheSpec groupSize names)
    (hperm : grouped.flatten.Perm (kvCacheSpec.map Prod.fst)) {groups : List KVCacheGroupSpec}
    (hgroups : List.Forall₂ (GroupOf kvCacheSpec) grouped groups) :
    IsLayout kvCacheSpec pageSize
      ⟨numBlocks, kvCacheTensors groupSize (pageSize * numBlocks) grouped, groups⟩ where
  groups := by
    rw [flatMap_def]
    rwa [map_layerNames hgroups]
  same group hgroup := (spec_of_mem_groups hgroups hgroup).2
  tensors := by
    have hshared : (kvCacheTensors groupSize (pageSize * numBlocks) grouped).map
        KVCacheTensor.sharedBy = Ragged.columns groupSize grouped := by
      rw [kvCacheTensors, map_map]
      exact map_id _
    rw [flatMap_def]
    dsimp only
    rw [hshared]
    exact (Ragged.perm_columns fun names hnames => (halike names hnames).length_le).trans hperm
  apart tensor htensor group hgroup name hname name' hname' hin hin' := by
    obtain ⟨_, hshared, rfl⟩ := mem_map.mp htensor
    obtain ⟨_, -, rfl⟩ := mem_map.mp hshared
    exact Ragged.eq_of_mem_column (hperm.nodup_iff.mpr hkeys) hname hname'
      (spec_of_mem_groups hgroups hgroup).1 hin hin'
  enough group hgroup := by
    have hlength := (halike _ (spec_of_mem_groups hgroups hgroup).1).length_le
    simpa [kvCacheTensors, Ragged.columns] using hlength
  pages tensor htensor := by
    obtain ⟨_, -, rfl⟩ := mem_map.mp htensor
    exact mul_comm _ _

/-- The tensors fit into the memory that is divided among them. -/
theorem sum_size_kvCacheTensors {numGpuBlocksOverride : Option ℕ} {groupSize pageSize : ℕ}
    {availableMemory : ℤ} (hmemory : 0 ≤ availableMemory) {grouped : List (List String)}
    {numBlocks : ℕ}
    (hok : getNumBlocks numGpuBlocksOverride groupSize availableMemory pageSize = .ok numBlocks)
    (hnone : numGpuBlocksOverride = none) :
    ((((kvCacheTensors groupSize (pageSize * numBlocks) grouped).map KVCacheTensor.size).sum : ℕ) :
      ℤ) ≤ availableMemory := by
  have hsum : ((kvCacheTensors groupSize (pageSize * numBlocks) grouped).map
      KVCacheTensor.size).sum = groupSize * (pageSize * numBlocks) := by
    rw [kvCacheTensors, map_map]
    change ((Ragged.columns groupSize grouped).map fun _ => pageSize * numBlocks).sum = _
    rw [map_const', sum_replicate, Ragged.columns, length_map, length_range, smul_eq_mul]
  subst hnone
  rw [getNumBlocks] at hok
  split at hok
  · cases hok
  · rename_i hpos
    obtain ⟨memory, rfl⟩ := eq_ofNat_of_zero_le hmemory
    have hblocks := Except.ok.inj hok
    rw [Option.getD_none] at hblocks
    have hdiv : numBlocks = memory / pageSize / groupSize := by
      rw [← hblocks, ← natCast_div, ← natCast_div, max_eq_left (natCast_nonneg _), toNat_natCast]
    rw [hsum, hdiv]
    refine ofNat_le.mpr ?_
    calc groupSize * (pageSize * (memory / pageSize / groupSize))
        = pageSize * (groupSize * (memory / pageSize / groupSize)) := mul_left_comm _ _ _
      _ ≤ pageSize * (memory / pageSize) := Nat.mul_le_mul_left _ (Nat.mul_div_le _ _)
      _ ≤ memory := Nat.mul_div_le _ _

/-- Layers with pages of one size are laid out, unless a layer records both sizes, or the pages are
empty. -/
theorem uniformPageSize_partition {cfg : VllmConfig} (hlen : 0 < cfg.maxModelLen)
    (hbatch : 0 < cfg.maxNumBatchedTokens) (numGpuBlocksOverride : Option ℕ)
    {kvCacheSpec : List (String × KVCacheSpec)} (hkeys : (kvCacheSpec.map Prod.fst).Nodup)
    (hne : kvCacheSpec ≠ []) {pageSize : ℕ}
    (hpage : ∀ layer ∈ kvCacheSpec, layer.2.pageSizeBytes = .ok pageSize) {availableMemory : ℤ}
    (hmemory : 0 ≤ availableMemory) :
    ((∃ layer ∈ kvCacheSpec, ¬ layer.2.Mergeable) →
      getKvCacheConfigUniformPageSize cfg numGpuBlocksOverride kvCacheSpec availableMemory =
        .error KVCacheSpec.mergeError) ∧
    ((∀ layer ∈ kvCacheSpec, layer.2.Mergeable) → pageSize = 0 →
      getKvCacheConfigUniformPageSize cfg numGpuBlocksOverride kvCacheSpec availableMemory =
        .error .zeroDivisionError) ∧
    ((∀ layer ∈ kvCacheSpec, layer.2.Mergeable) → 0 < pageSize →
      ∃ config, getKvCacheConfigUniformPageSize cfg numGpuBlocksOverride kvCacheSpec
          availableMemory = .ok config ∧
        IsLayout kvCacheSpec pageSize config ∧
        (numGpuBlocksOverride = none →
          ((config.kvCacheTensors.map KVCacheTensor.size).sum : ℕ) ≤ availableMemory)) := by
  obtain ⟨groupSize, hsize, hpositive⟩ := groupSize_sameTypeLayers hne
  have halike : ∀ names ∈ groupedLayers (sameTypeLayers kvCacheSpec) groupSize,
      Alike kvCacheSpec groupSize names := fun names => alike_groupedLayers hpositive
  have hperm := @perm_groupedLayers kvCacheSpec _ hpositive
  have huniform := getUniformPageSize_eq_ok hne hpage
  refine ⟨fun hnot => ?_, fun hmerge hzero => ?_, fun hmerge hpos => ?_⟩
  · -- A layer with both sizes: the merge of its group raises.
    have herror := createKvCacheGroupSpecs_error hkeys halike hperm hnot
    refine bind_eq_error.mpr (.inr ⟨groupSize, hsize, ?_⟩)
    exact bind_eq_error.mpr (.inl herror)
  · -- Empty pages: the specs merge, and then the number of blocks divides by zero.
    obtain ⟨groups, hgroups, -⟩ := createKvCacheGroupSpecs_isOk hkeys halike hmerge
    have hblocks : getNumBlocks numGpuBlocksOverride groupSize availableMemory pageSize =
        .error .zeroDivisionError := if_pos (.inl hzero)
    refine bind_eq_error.mpr (.inr ⟨groupSize, hsize, ?_⟩)
    refine bind_eq_error.mpr (.inr ⟨groups, hgroups, ?_⟩)
    refine bind_eq_error.mpr (.inr ⟨pageSize, huniform, ?_⟩)
    exact bind_eq_error.mpr (.inl hblocks)
  · -- The rest is laid out, each step of the source in turn.
    obtain ⟨groups, hgroups, hgood⟩ := createKvCacheGroupSpecs_isOk hkeys halike hmerge
    obtain ⟨numBlocks, hblocks⟩ : ∃ numBlocks,
        getNumBlocks numGpuBlocksOverride groupSize availableMemory pageSize = .ok numBlocks :=
      ⟨_, if_neg (not_or.mpr ⟨hpos.ne', hpositive.ne'⟩)⟩
    have hgroupsNe : groups ≠ [] := by
      intro hnil
      have hgrouped := map_layerNames hgood
      rw [hnil, map_nil] at hgrouped
      rw [← hgrouped, flatten_nil, nil_perm, map_eq_nil_iff] at hperm
      exact hne hperm
    have hpages : ∀ group ∈ groups, group.layerNames ≠ [] ∧
        group.kvCacheSpec.pageSizeBytes = .ok pageSize := by
      intro group hgroup
      obtain ⟨hnames, hspec⟩ := spec_of_mem_groups hgood hgroup
      obtain ⟨name, hname⟩ := exists_mem_of_ne_nil _ (halike _ hnames).nonempty
      exact ⟨(halike _ hnames).nonempty, hpage _ (hspec name hname)⟩
    obtain ⟨concurrency, hconcurrency⟩ : ∃ concurrency, getMaxConcurrencyForKvCacheConfig cfg
        ⟨numBlocks, kvCacheTensors groupSize (pageSize * numBlocks)
          (groupedLayers (sameTypeLayers kvCacheSpec) groupSize), groups⟩ = .ok concurrency :=
      getMaxConcurrency_isOk hlen hbatch hpos hgroupsNe hpages
    refine ⟨_, ?_, isLayout_kvCacheTensors hkeys halike hperm hgood,
      sum_size_kvCacheTensors hmemory hblocks⟩
    refine bind_eq_ok.mpr ⟨groupSize, hsize, ?_⟩
    refine bind_eq_ok.mpr ⟨groups, hgroups, ?_⟩
    refine bind_eq_ok.mpr ⟨pageSize, huniform, ?_⟩
    refine bind_eq_ok.mpr ⟨numBlocks, hblocks, ?_⟩
    exact bind_eq_ok.mpr ⟨concurrency, hconcurrency, rfl⟩

/-- Heads of one entry in blocks of two tokens. -/
def smallHead : AttentionSpec := ⟨2, 1, 1, .float32, false⟩

/-- One full attention layer and two layers with a window. -/
def oneToTwo : List (String × KVCacheSpec) :=
  [("full.0", .fullAttention smallHead none none), ("sw.0", .slidingWindow smallHead 4),
    ("sw.1", .slidingWindow smallHead 4)]

/-- All three layers share one tensor. -/
theorem uniformPageSize_partition_oneToTwo : ∃ config,
    getKvCacheConfigUniformPageSize ⟨8, 8⟩ none oneToTwo 100 = .ok config ∧
      IsLayout oneToTwo 16 config ∧
      (((config.kvCacheTensors.map KVCacheTensor.size).sum : ℕ) : ℤ) ≤ 100 := by
  obtain ⟨config, hok, hlayout, hsum⟩ := (@uniformPageSize_partition ⟨8, 8⟩ (by decide) (by decide)
    none oneToTwo (by decide) (by decide) 16 (by decide) 100 (by decide)).2.2 (by decide)
    (by decide)
  exact ⟨config, hok, hlayout, hsum rfl⟩

/-- A layer that records two sizes, and a layer without heads. -/
theorem uniformPageSize_fails :
    getKvCacheConfigUniformPageSize ⟨8, 8⟩ none
        [("full.0", .fullAttention smallHead (some 4) (some 4))] 100 =
      .error KVCacheSpec.mergeError ∧
    getKvCacheConfigUniformPageSize ⟨8, 8⟩ none
        [("full.0", .fullAttention ⟨2, 0, 1, .float32, false⟩ none none)] 100 =
      .error .zeroDivisionError :=
  ⟨rfl, rfl⟩

end Kv
