import Mosaic.Control.Fallible
import Mathlib.Data.Int.Basic
import Mathlib.Data.List.Basic
import Mathlib.Data.List.GetD
import Mathlib.Logic.Equiv.List

/-!
# Block hashes

The tokens of a request are cut into blocks, and the hash of a block covers the hash of the block
before it, the tokens of the block, and extra keys: the adapter, the multimodal items that overlap
the block, and for the first block the salt. The hashes of a request form a chain. The hash
function and the seed of all chains are parameters.
-/

namespace Kv

open List Option

/-- The exceptions that the modelled code raises. -/
inductive KvError where
  | assertionError (message : String)
  | attributeError
  | indexError
  | keyError
  | runtimeError
  | valueError (message : String)
  | zeroDivisionError
  deriving DecidableEq, Repr

/-! ### Requests -/

/-- The tokens that a multimodal item takes the place of. -/
structure PlaceholderRange where
  offset : ℕ
  length : ℕ
  deriving DecidableEq

/-- What the cache reads of a request. -/
structure Request where
  requestId : String
  allTokenIds : List ℤ
  loraIntId : Option ℤ := none
  cacheSalt : Option String := none
  mmPositions : List PlaceholderRange := []
  mmHashes : List String := []
  /-- The request asks for the log probabilities of its prompt. -/
  promptLogprobs : Bool := false
  numComputedTokens : ℕ := 0
  deriving DecidableEq

namespace Request

def numTokens (r : Request) : ℕ := r.allTokenIds.length

/-- The tokens of one block. -/
def blockTokens (r : Request) (blockSize i : ℕ) : List ℤ :=
  (r.allTokenIds.take ((i + 1) * blockSize)).drop (i * blockSize)

end Request

/-- Extra keys are adapter ids, hashes of items, and salts. -/
inductive ExtraKey where
  | int (value : ℤ)
  | str (value : String)
  deriving DecidableEq

/-! ### Hashes -/

/-- The hash function, and the seed of every chain. -/
structure HashEnv where
  hashFn : ℤ → List ℤ → Option (List ExtraKey) → ℤ
  noneHash : ℤ

structure BlockHash where
  hashValue : ℤ
  tokenIds : List ℤ
  extraKeys : Option (List ExtraKey)
  deriving DecidableEq

structure BlockHashWithGroupId where
  blockHash : BlockHash
  groupId : ℕ
  deriving DecidableEq

/-- The value that stands for the parent of a block. A hash of zero counts as none. -/
def HashEnv.parentValue (env : HashEnv) : Option ℤ → ℤ
  | none => env.noneHash
  | some value => if value = 0 then env.noneHash else value

def hashBlockTokens (env : HashEnv) (parentBlockHash : Option ℤ) (currBlockTokenIds : List ℤ)
    (extraKeys : Option (List ExtraKey)) : BlockHash where
  hashValue := env.hashFn (env.parentValue parentBlockHash) currBlockTokenIds extraKeys
  tokenIds := currBlockTokenIds
  extraKeys := extraKeys

/-! ### Extra keys -/

def needExtraKeys (r : Request) : Bool :=
  !r.mmHashes.isEmpty || r.loraIntId.isSome || r.cacheSalt.isSome

/-- The loop over the items, from the current one on: the hashes of those that the block reaches,
and the item at which the next block starts. -/
def genMmLoop (startTokenIdx endTokenIdx : ℕ) :
    List (PlaceholderRange × String) → ℕ → List ExtraKey × ℕ
  | [], currMmIdx => ([], currMmIdx)
  | (pos, hash) :: rest, currMmIdx =>
    if endTokenIdx > pos.offset then
      if startTokenIdx > pos.offset + pos.length then
        genMmLoop startTokenIdx endTokenIdx rest (currMmIdx + 1)
      else if endTokenIdx ≥ pos.offset + pos.length then
        -- the item ends in this block, which may contain the next one too
        let (keys, nextMmIdx) := genMmLoop startTokenIdx endTokenIdx rest (currMmIdx + 1)
        (.str hash :: keys, nextMmIdx)
      else ([.str hash], currMmIdx)
    else ([], currMmIdx)

/-- The keys for multimodal items. A negative index counts from the last item. -/
def genMmExtraHashKeys (r : Request) (startTokenIdx endTokenIdx : ℕ) (startMmIdx : ℤ) :
    Except KvError (List ExtraKey × ℤ) :=
  match r.mmPositions.getLast? with
  | none => .ok ([], startMmIdx)
  | some last =>
    if r.mmPositions.length ≠ r.mmHashes.length then
      .error (.valueError ("The number of multi-modal positions and hashes must match. This " ++
        "is likely because you did not enable MM hashing. " ++
        "Please set `mm_processor_cache_gb > 0`."))
    else if last.offset + last.length < startTokenIdx then .ok ([], startMmIdx)
    else if startMmIdx < 0 ∧ r.mmPositions.length < -startMmIdx then .error (.assertionError "")
    else
      let currMmIdx :=
        (if startMmIdx < 0 then r.mmPositions.length + startMmIdx else startMmIdx).toNat
      let (keys, nextMmIdx) := genMmLoop startTokenIdx endTokenIdx
        ((r.mmPositions.zip r.mmHashes).drop currMmIdx) currMmIdx
      .ok (keys, nextMmIdx)

def genLoraExtraHashKeys (r : Request) : List ExtraKey :=
  r.loraIntId.toList.map .int

/-- The salt, if it is not empty, is a key of the first block. -/
def cacheSaltKeys (r : Request) (startTokenIdx : ℕ) : List ExtraKey :=
  if startTokenIdx = 0 then (r.cacheSalt.toList.filter (· ≠ "")).map .str else []

def generateBlockHashExtraKeys (r : Request) (startTokenIdx endTokenIdx : ℕ) (startMmIdx : ℤ) :
    Except KvError (Option (List ExtraKey) × ℤ) := do
  let (mmExtraKeys, newStartMmIdx) ← genMmExtraHashKeys r startTokenIdx endTokenIdx startMmIdx
  let extraKeys := genLoraExtraHashKeys r ++ mmExtraKeys ++ cacheSaltKeys r startTokenIdx
  return (if extraKeys.isEmpty then none else some extraKeys, newStartMmIdx)

/-! ### The hashes of a request -/

/-- The extra keys of a block of the prompt, and the item at which the next block starts. -/
def promptExtraKeys (r : Request) (blockSize i : ℕ) (currMmIdx : ℤ) :
    Except KvError (Option (List ExtraKey) × ℤ) :=
  if needExtraKeys r then
    generateBlockHashExtraKeys r (i * blockSize) ((i + 1) * blockSize) currMmIdx
  else .ok (none, currMmIdx)

/-- The loop over the full blocks, from block `i` on. -/
def hashRequestLoop (env : HashEnv) (blockSize : ℕ) (r : Request) :
    ℕ → ℕ → Option ℤ → ℤ → Except KvError (List BlockHash)
  | 0, _, _, _ => .ok []
  | n + 1, i, parent, currMmIdx => do
    let (keys, nextMmIdx) ← promptExtraKeys r blockSize i currMmIdx
    let blockHash := hashBlockTokens env parent (r.blockTokens blockSize i) keys
    let rest ← hashRequestLoop env blockSize r n (i + 1) (some blockHash.hashValue) nextMmIdx
    return blockHash :: rest

/-- The hashes of the full blocks of a request. -/
def hashRequestTokens (env : HashEnv) (blockSize : ℕ) (r : Request) :
    Except KvError (List BlockHash) :=
  hashRequestLoop env blockSize r (r.numTokens / blockSize) 0 none 0

/-! ### Chains -/

/-- The hash function has no collisions and never returns a value that stands for no parent. -/
structure HashEnv.CollisionFree (env : HashEnv) : Prop where
  injective : ∀ p p' t t' k k', env.hashFn p t k = env.hashFn p' t' k' → p = p' ∧ t = t' ∧ k = k'
  ne_zero : ∀ p t k, env.hashFn p t k ≠ 0
  ne_noneHash : ∀ p t k, env.hashFn p t k ≠ env.noneHash

/-- The hash is that of its tokens and keys below the parent. -/
def Extends (env : HashEnv) (parent : Option ℤ) (h : BlockHash) : Prop :=
  h.hashValue = env.hashFn (env.parentValue parent) h.tokenIds h.extraKeys

/-- The hash value before position `i`. -/
def prevValue (hs : List BlockHash) (i : ℕ) : Option ℤ :=
  if i = 0 then none else hs[i - 1]?.map BlockHash.hashValue

/-- Each hash extends the one before it, and the first one the seed. -/
def HashChain (env : HashEnv) (hs : List BlockHash) : Prop :=
  ∀ i h, hs[i]? = some h → Extends env (prevValue hs i) h

theorem extends_hashBlockTokens (env : HashEnv) (parent : Option ℤ) (tokens : List ℤ)
    (keys : Option (List ExtraKey)) : Extends env parent (hashBlockTokens env parent tokens keys) :=
  rfl

theorem hashChain_nil (env : HashEnv) : HashChain env [] := nofun

theorem prevValue_zero (hs : List BlockHash) : prevValue hs 0 = none := rfl

theorem prevValue_succ (hs : List BlockHash) (i : ℕ) :
    prevValue hs (i + 1) = hs[i]?.map BlockHash.hashValue := rfl

variable {hs : List BlockHash}

theorem prevValue_append (later : List BlockHash) {i : ℕ}
    (h : i ≤ hs.length) : prevValue (hs ++ later) i = prevValue hs i := by
  cases i with
  | zero => rfl
  | succ i => rw [prevValue_succ, prevValue_succ, getElem?_append_left h]

theorem hashChain_concat {env : HashEnv} (h : HashChain env hs)
    {b : BlockHash} (hb : Extends env (prevValue hs hs.length) b) :
    HashChain env (hs ++ [b]) := by
  intro i b' hb'
  rw [getElem?_append] at hb'
  split at hb'
  · rename_i hi
    rw [prevValue_append _ (le_of_lt hi)]
    exact h i b' hb'
  · rename_i hi
    -- only the new position is left
    obtain ⟨hzero, rfl⟩ : i - hs.length = 0 ∧ b = b' := by
      cases hsub : i - hs.length with
      | zero =>
        rw [hsub] at hb'
        exact ⟨rfl, some.inj hb'⟩
      | succ n =>
        rw [hsub] at hb'
        cases hb'
    obtain rfl : i = hs.length := by omega
    rw [prevValue_append _ le_rfl]
    exact hb

theorem hashChain_hashRequestLoop {env : HashEnv} {blockSize : ℕ} {r : Request} {n i : ℕ}
    {parent : Option ℤ} {currMmIdx : ℤ} {hs done : List BlockHash}
    (h : hashRequestLoop env blockSize r n i parent currMmIdx = .ok hs)
    (hdone : HashChain env done) (hparent : parent = prevValue done done.length) :
    HashChain env (done ++ hs) := by
  induction n generalizing i parent currMmIdx hs done with
  | zero =>
    cases h
    simpa using hdone
  | succ n ih =>
    rw [hashRequestLoop] at h
    obtain ⟨⟨_, _⟩, -, h⟩ := Fallible.bind_eq_ok.mp h
    obtain ⟨_, hrest, h⟩ := Fallible.bind_eq_ok.mp h
    cases h
    rw [append_cons]
    refine ih hrest (hashChain_concat hdone ?_) ?_
    · rw [← hparent]
      exact extends_hashBlockTokens _ _ _ _
    · simp [prevValue]

/-- The hashes of a request form a chain. -/
theorem hashChain_hashRequestTokens {env : HashEnv} {blockSize : ℕ} {r : Request}
    (h : hashRequestTokens env blockSize r = .ok hs) : HashChain env hs :=
  hashChain_hashRequestLoop h (hashChain_nil env) rfl

section CollisionFree

variable {env : HashEnv} {hs hs' : List BlockHash} {h : BlockHash} {i j : ℕ}

/-- Two extensions with the same value have the same parent and the same contents. -/
theorem HashEnv.CollisionFree.extends_inj (hfree : env.CollisionFree) {parent parent' : Option ℤ}
    {h' : BlockHash} (hext : Extends env parent h) (hext' : Extends env parent' h')
    (hvalue : h.hashValue = h'.hashValue) :
    env.parentValue parent = env.parentValue parent' ∧ h = h' := by
  rw [hext, hext'] at hvalue
  obtain ⟨hparent, htoks, hkeys⟩ := hfree.injective _ _ _ _ _ _ hvalue
  refine ⟨hparent, ?_⟩
  cases h
  cases h'
  simp only [Extends] at hext hext'
  simp_all

theorem HashEnv.CollisionFree.parentValue_some (hfree : env.CollisionFree) {parent : Option ℤ}
    (hext : Extends env parent h) : env.parentValue (some h.hashValue) = h.hashValue := by
  have hne : h.hashValue ≠ 0 := by
    rw [hext]
    exact hfree.ne_zero _ _ _
  exact if_neg hne

/-- Equal hashes of two chains stand at equal positions, below equal prefixes. -/
theorem HashChain.eq_of_getElem?_eq (hfree : env.CollisionFree) (hchain : HashChain env hs)
    (hchain' : HashChain env hs') (hi : hs[i]? = some h) (hj : hs'[j]? = some h) :
    i = j ∧ hs.take (i + 1) = hs'.take (j + 1) := by
  induction i generalizing j h with
  | zero =>
    cases j with
    | zero => simp [take_one, head?_eq_getElem?, hi, hj]
    | succ j =>
      -- the seed is not a hash value
      obtain ⟨hparent, -⟩ := hfree.extends_inj (hchain 0 h hi) (hchain' (j + 1) h hj) rfl
      obtain ⟨hlt, -⟩ := List.getElem?_eq_some_iff.mp hj
      have hp : hs'[j]? = some hs'[j] := getElem?_eq_getElem (by omega)
      have hext := hchain' j _ hp
      rw [prevValue_zero, prevValue_succ, hp, map_some, hfree.parentValue_some hext]
        at hparent
      exact absurd (hparent.trans hext).symm (hfree.ne_noneHash _ _ _)
  | succ i ih =>
    obtain ⟨hilt, -⟩ := List.getElem?_eq_some_iff.mp hi
    have hp : hs[i]? = some hs[i] := getElem?_eq_getElem (by omega)
    have hext := hchain i _ hp
    cases j with
    | zero =>
      obtain ⟨hparent, -⟩ := hfree.extends_inj (hchain (i + 1) h hi) (hchain' 0 h hj) rfl
      rw [prevValue_zero, prevValue_succ, hp, map_some, hfree.parentValue_some hext]
        at hparent
      exact absurd (hext.symm.trans hparent) (hfree.ne_noneHash _ _ _)
    | succ j =>
      obtain ⟨hjlt, -⟩ := List.getElem?_eq_some_iff.mp hj
      have hp' : hs'[j]? = some hs'[j] := getElem?_eq_getElem (by omega)
      have hext' := hchain' j _ hp'
      obtain ⟨hparent, -⟩ := hfree.extends_inj (hchain (i + 1) h hi) (hchain' (j + 1) h hj) rfl
      rw [prevValue_succ, prevValue_succ, hp, hp', map_some, map_some,
        hfree.parentValue_some hext, hfree.parentValue_some hext'] at hparent
      have heq : hs[i] = hs'[j] := (hfree.extends_inj hext hext' hparent).2
      obtain ⟨rfl, htake⟩ := ih hp (heq ▸ hp')
      refine ⟨rfl, ?_⟩
      rw [take_add_one, hi, htake, ← hj, ← take_add_one]

end CollisionFree

/-! ### A hash function without collisions -/

def ExtraKey.code : ExtraKey → ℤ ⊕ List ℕ
  | .int value => .inl value
  | .str value => .inr (value.toList.map Char.toNat)

theorem ExtraKey.code_injective : Function.Injective ExtraKey.code := by
  intro k k' h
  cases k <;> cases k' <;> simp only [code, Sum.inl.injEq, Sum.inr.injEq, reduceCtorEq] at h
  · rw [h]
  · have hchars : Function.Injective Char.toNat := fun c c' hc => Char.toNat_inj.mp hc
    rw [String.toList_injective (hchars.list_map h)]

/-- The hash is the number of its arguments. -/
def encodedHash : HashEnv where
  hashFn parent tokens keys :=
    (Encodable.encode (parent, tokens, keys.map (List.map ExtraKey.code)) + 2 : ℕ)
  noneHash := 1

theorem encodedHash_collisionFree : encodedHash.CollisionFree where
  injective p p' t t' k k' h := by
    have hencode : (p, t, k.map (List.map ExtraKey.code)) =
        (p', t', k'.map (List.map ExtraKey.code)) := by
      apply Encodable.encode_injective
      simp only [encodedHash] at h
      omega
    obtain ⟨hp, ht, hk⟩ : p = p' ∧ t = t' ∧ _ := by simpa using hencode
    exact ⟨hp, ht, map_injective ExtraKey.code_injective.list_map hk⟩
  ne_zero p t k := by
    simp only [encodedHash]
    omega
  ne_noneHash p t k := by
    simp only [encodedHash]
    omega

end Kv
