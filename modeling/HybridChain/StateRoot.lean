import HybridChain.Utxo

/-!
# The two roots of a pool

`GetRootHash` of `blockchain.go` hashes all outputs in the order of the map; `CalculateMerkleRoot`
of `utxo.go` builds a hash tree. A miner writes the first root into a header, a validator compares
it with the second.

## Main definitions

* `getRootHash`, `KeyOrder`, `merkleTexts`
* `lookalike`: another output with the same line

## Main results

* `calculateMerkleRoot_eq_hashHex_iff`: when the roots can be equal
* `root_determines_balances_iff`, `balances_differ_under_one_root`
-/

namespace HybridChain

open List
open KeyedLog (Store)

/-! ## The root hash -/

/-- The eight bytes in which an amount is written, most significant first. -/
structure FloatBytes where
  bytes : ℚ → List UInt8
  length_bytes : ∀ amount, (bytes amount).length = 8

/-- An order in which every map of outputs is enumerated. -/
structure KeyOrder where
  keys : Store String UTXO → List String
  nodup_keys : ∀ utxos, (keys utxos).Nodup
  mem_keys : ∀ {utxos key}, key ∈ keys utxos ↔ key ∈ utxos

def sortedKeys : KeyOrder where
  keys := UTXOPool.sortKeys
  nodup_keys := UTXOPool.nodup_sortKeys
  mem_keys := UTXOPool.mem_sortKeys

/-- What `GetRootHash` hashes. -/
def rootText (float : FloatBytes) (order : KeyOrder) (utxos : Store String UTXO) : List UInt8 :=
  (order.keys utxos).flatMap fun key =>
    let utxo := (utxos.lookup key).getD {}
    Text.bytes key ++ Text.bytes utxo.owner ++ float.bytes utxo.amount

def getRootHash (C : Crypto) (float : FloatBytes) (order : KeyOrder) (utxos : Store String UTXO) :
    String :=
  C.hashHex (rootText float order utxos)

lemma dash_mem_bytes_utxoKey (transactionID : String) (i : ℤ) :
    45 ∈ Text.bytes (utxoKey transactionID i) := by
  have hdash : Text.bytes "-" = [45] := by decide
  rw [utxoKey, Text.bytes_append, Text.bytes_append, hdash]
  simp

variable (float : FloatBytes) (order : KeyOrder) {utxos : Store String UTXO}

lemma dash_mem_rootText
    {transactionID : String} {i : ℤ} (h : utxoKey transactionID i ∈ utxos) :
    45 ∈ rootText float order utxos := by
  refine mem_flatMap.mpr ⟨_, order.mem_keys.mpr h, ?_⟩
  simp [dash_mem_bytes_utxoKey]

variable {key : String}

lemma rootText_of_forall_mem {utxo : UTXO} (hkey : ∀ k, k ∈ utxos ↔ k = key)
    (hutxo : utxos.lookup key = some utxo) : rootText float order utxos =
      Text.bytes key ++ Text.bytes utxo.owner ++ float.bytes utxo.amount := by
  have hkeys : order.keys utxos = [key] := by
    refine perm_singleton.mp ?_
    refine (perm_ext_iff_of_nodup (order.nodup_keys utxos) (nodup_singleton key)).mpr ?_
    intro k
    rw [order.mem_keys, hkey, mem_singleton]
  simp [rootText, hkeys, hutxo]

/-! ## The Merkle root -/

namespace UTXOPool

variable (C : Crypto)

/-- The byte strings hashed on one level of the tree. -/
def pairTexts : List String → List (List UInt8)
  | [] => []
  | [h] => [Text.bytes (h ++ h)]
  | h₁ :: h₂ :: hs => Text.bytes (h₁ ++ h₂) :: pairTexts hs

lemma merkleLevel_eq : ∀ hashes : List String,
    merkleLevel C hashes = (pairTexts hashes).map C.hashHex
  | [] | [_] => rfl
  | _ :: _ :: hs => congrArg (_ :: ·) (merkleLevel_eq hs)

lemma exists_of_mem_pairTexts : ∀ {hashes : List String} {text : List UInt8},
    text ∈ pairTexts hashes → ∃ a ∈ hashes, ∃ b ∈ hashes, text = Text.bytes a ++ Text.bytes b
  | [], _, h => by simp [pairTexts] at h
  | [a], _, h => by
    refine ⟨a, by simp, a, by simp, ?_⟩
    simpa [pairTexts] using h
  | a :: b :: hs, text, h => by
    rcases mem_cons.mp h with rfl | h
    · exact ⟨a, by simp, b, by simp, Text.bytes_append a b⟩
    · obtain ⟨c, hc, d, hd, htext⟩ := exists_of_mem_pairTexts h
      exact ⟨c, by simp [hc], d, by simp [hd], htext⟩

/-- The byte strings hashed above the leaves of the tree. -/
def levelTexts (hashes : List String) : List (List UInt8) :=
  if _h : hashes.length > 1 then pairTexts hashes ++ levelTexts (merkleLevel C hashes) else []
  termination_by hashes.length
  decreasing_by
    have := length_merkleLevel C hashes
    omega

/-- The lines of the tree, in the order of the keys. -/
def leafTexts (utxos : Store String UTXO) : List (List UInt8) := (sortKeys utxos).map fun key =>
    Text.bytes ((utxos.lookup key).getD {}).merkleText

/-- The byte strings hashed in the Merkle tree of a pool. -/
def merkleTexts (utxos : Store String UTXO) : List (List UInt8) :=
  leafTexts utxos ++ levelTexts C ((leafTexts utxos).map C.hashHex)

variable {utxos : Store String UTXO} (utxo : UTXO)

lemma calculateMerkleRoot_eq (h : utxos ≠ ∅) :
    calculateMerkleRoot C utxos = merkleLevels C ((leafTexts utxos).map C.hashHex) := by
  rw [calculateMerkleRoot, calculateMerkleRootBy, if_neg h, leafTexts, map_map]
  rfl

/-- **Above two leaves the root is the hash of two hashes**, which have no dashes. -/
lemma exists_merkleLevels_eq (hashes : List String) (hlen : 1 < hashes.length)
    (hdash : ∀ h ∈ hashes, 45 ∉ Text.bytes h) :
    ∃ text ∈ levelTexts C hashes, merkleLevels C hashes = C.hashHex text ∧ 45 ∉ text := by
  have hpair : ∀ text ∈ pairTexts hashes, 45 ∉ text := by
    intro text htext
    obtain ⟨a, ha, b, hb, rfl⟩ := exists_of_mem_pairTexts htext
    simp [hdash a ha, hdash b hb]
  have hlevel : 2 * (merkleLevel C hashes).length ≤ hashes.length + 1 := length_merkleLevel C hashes
  rw [merkleLevels, dif_pos hlen, levelTexts, dif_pos hlen]
  by_cases hnext : 1 < (merkleLevel C hashes).length
  · have hhex : ∀ h ∈ merkleLevel C hashes, 45 ∉ Text.bytes h := by
      intro h hh
      rw [merkleLevel_eq] at hh
      obtain ⟨text, -, rfl⟩ := mem_map.mp hh
      exact Text.dash_not_mem_bytes_hex _
    obtain ⟨text, htext, hroot, hno⟩ := exists_merkleLevels_eq (merkleLevel C hashes) hnext hhex
    exact ⟨text, mem_append_right _ htext, hroot, hno⟩
  · rw [merkleLevels, dif_neg hnext]
    cases hashes with
    | nil => simp at hlen
    | cons a rest =>
      cases rest with
      | nil => simp at hlen
      | cons b hs =>
        have hfirst : Text.bytes (a ++ b) ∈ pairTexts (a :: b :: hs) := mem_cons_self
        exact ⟨_, mem_append_left _ hfirst, rfl, hpair _ hfirst⟩
  termination_by hashes.length
  decreasing_by omega

lemma eq_singleton_of_keys
    (h : utxos.keys = {key}) : ∃ utxo, utxos = Finmap.singleton key utxo := by
  have hmem : ∀ k, k ∈ utxos ↔ k = key := by
    intro k
    rw [← Finmap.mem_keys, h, Finset.mem_singleton]
  obtain ⟨utxo, hutxo⟩ := Finmap.mem_iff.mp ((hmem key).mpr rfl)
  refine ⟨utxo, Finmap.ext_lookup fun k => ?_⟩
  by_cases hk : k = key
  · rw [hk, hutxo, Finmap.lookup_singleton_eq]
  · rw [Finmap.lookup_eq_none.mpr (mt (hmem k).mp hk), Finmap.lookup_eq_none.mpr]
    simpa using hk

lemma leafTexts_singleton (key : String) (utxo : UTXO) :
    leafTexts (Finmap.singleton key utxo) = [Text.bytes utxo.merkleText] := by
  simp [leafTexts, sortKeys, sortStrings]

lemma calculateMerkleRoot_singleton (key : String) (utxo : UTXO) :
    calculateMerkleRoot C (Finmap.singleton key utxo) = C.hashHex (Text.bytes utxo.merkleText) := by
  have hne : (Finmap.singleton key utxo : Store String UTXO) ≠ ∅ := by
    intro h
    have := congrArg (Finmap.lookup key) h
    simp at this
  rw [calculateMerkleRoot_eq C hne, leafTexts_singleton, merkleLevels]
  rfl

lemma calculateMerkleRoot_empty_ne (text : List UInt8) :
    calculateMerkleRoot C ∅ ≠ C.hashHex text := by
  intro h
  have hlen := C.length_bytes_hashHex text
  rw [← h, calculateMerkleRoot, calculateMerkleRootBy, if_pos rfl] at hlen
  exact absurd hlen (by decide)

/-- **A pool that holds outputs** holds a single one, or its root is the hash of two hashes. -/
lemma eq_singleton_or_exists_calculateMerkleRoot_eq (hne : utxos ≠ ∅) :
    (∃ key utxo, utxos = Finmap.singleton key utxo) ∨
      ∃ text ∈ merkleTexts C utxos, calculateMerkleRoot C utxos = C.hashHex text ∧ 45 ∉ text := by
  have hlen : (leafTexts utxos).length = utxos.keys.card := by simp [leafTexts]
  have hcard : 0 < utxos.keys.card := by
    rw [Finset.card_pos, Finset.nonempty_iff_ne_empty]
    intro hempty
    refine hne (Finmap.ext_lookup fun k => ?_)
    rw [Finmap.lookup_empty, Finmap.lookup_eq_none, ← Finmap.mem_keys, hempty]
    exact Finset.notMem_empty k
  by_cases hone : utxos.keys.card = 1
  · obtain ⟨key, hkey⟩ := Finset.card_eq_one.mp hone
    obtain ⟨utxo, rfl⟩ := eq_singleton_of_keys hkey
    exact .inl ⟨key, utxo, rfl⟩
  · have htwo : 1 < ((leafTexts utxos).map C.hashHex).length := by
      rw [length_map]
      omega
    have hhex : ∀ h ∈ (leafTexts utxos).map C.hashHex, 45 ∉ Text.bytes h := by
      intro h hh
      obtain ⟨data, -, rfl⟩ := mem_map.mp hh
      exact Text.dash_not_mem_bytes_hex _
    obtain ⟨data, hdata, hroot, hno⟩ := exists_merkleLevels_eq C _ htwo hhex
    rw [← calculateMerkleRoot_eq C hne] at hroot
    exact .inr ⟨data, mem_append_right _ hdata, hroot, hno⟩

/-- **When a Merkle root is the hash of a text with a dash**: the pool holds a single output, and
the text is its line.

**Proof sketch.** No outputs give an empty root, and at least two give the hash of two hashes, in
which there is no dash. -/
theorem calculateMerkleRoot_eq_hashHex_iff {text : List UInt8} (hdash : 45 ∈ text)
    (hinj : Set.InjOn C.sha256 {data | data ∈ text :: merkleTexts C utxos}) :
    calculateMerkleRoot C utxos = C.hashHex text ↔
      ∃ key utxo, utxos = Finmap.singleton key utxo ∧ Text.bytes utxo.merkleText = text := by
  have hinj' : ∀ data ∈ merkleTexts C utxos, C.hashHex data = C.hashHex text → data = text :=
    fun data hdata h => hinj (mem_cons_of_mem _ hdata) mem_cons_self (C.hashHex_eq_iff.mp h)
  constructor
  · intro hroot
    have hne : utxos ≠ ∅ := by
      rintro rfl
      exact calculateMerkleRoot_empty_ne C text hroot
    rcases eq_singleton_or_exists_calculateMerkleRoot_eq C hne with
      ⟨key, utxo, rfl⟩ | ⟨data, hdata, hdataRoot, hno⟩
    · rw [calculateMerkleRoot_singleton] at hroot
      refine ⟨key, utxo, rfl, hinj' _ ?_ hroot⟩
      simp [merkleTexts, leafTexts_singleton]
    · obtain rfl := hinj' data hdata (hdataRoot ▸ hroot)
      exact absurd hdash hno
  · rintro ⟨key, utxo, rfl, rfl⟩
    exact calculateMerkleRoot_singleton C key utxo

/-! ## What the Merkle root does not determine -/

/-- The tree depends on the lines of the outputs only: an output may be replaced by another one with
the same line. -/
lemma calculateMerkleRoot_insert {utxo utxo' : UTXO}
    (hutxo : utxos.lookup key = some utxo) (htext : utxo'.merkleText = utxo.merkleText) :
    calculateMerkleRoot C (utxos.insert key utxo') = calculateMerkleRoot C utxos := by
  have hkey : key ∈ utxos := Finmap.mem_of_lookup_eq_some hutxo
  have hne : utxos ≠ ∅ := by
    rintro rfl
    exact Finmap.notMem_empty hkey
  have hne' : utxos.insert key utxo' ≠ ∅ := by
    intro hempty
    exact Finmap.notMem_empty (hempty ▸ Finmap.mem_insert.mpr (.inl rfl))
  have hkeys : (utxos.insert key utxo').keys = utxos.keys := by
    ext k
    rw [Finmap.mem_keys, Finmap.mem_insert, Finmap.mem_keys]
    exact or_iff_right_of_imp fun hk => hk ▸ hkey
  have hleaves : leafTexts (utxos.insert key utxo') = leafTexts utxos := by
    rw [leafTexts, leafTexts, sortKeys, hkeys]
    apply map_congr_left
    intro k _
    rw [KeyedLog.lookup_insert_eq]
    split_ifs with hk
    · subst hk
      rw [hutxo, Option.getD_some, Option.getD_some, htext]
    · rfl
  rw [calculateMerkleRoot_eq C hne', calculateMerkleRoot_eq C hne, hleaves]

lemma exists_calculateMerkleRoot_eq (hne : utxos ≠ ∅) :
    ∃ text, calculateMerkleRoot C utxos = C.hashHex text := by
  rcases eq_singleton_or_exists_calculateMerkleRoot_eq C hne with
    ⟨key, utxo, rfl⟩ | ⟨text, -, hroot, -⟩
  · exact ⟨_, calculateMerkleRoot_singleton C key utxo⟩
  · exact ⟨text, hroot⟩

lemma calculateMerkleRoot_eq_empty_iff :
    calculateMerkleRoot C utxos = calculateMerkleRoot C ∅ ↔ utxos = ∅ := by
  refine ⟨fun hroot => ?_, fun hempty => by rw [hempty]⟩
  by_contra hne
  obtain ⟨text, htext⟩ := exists_calculateMerkleRoot_eq C hne
  exact calculateMerkleRoot_empty_ne C text (hroot.symm.trans htext)

/-- An output with the same line that counts differently: the flag is flipped, and an amount of zero
is replaced by one that is too small to be printed. -/
def lookalike (utxo : UTXO) : UTXO :=
  if utxo.amount = 0 then { utxo with amount := 1 / 2 ^ 40, spent := false }
  else { utxo with spent := !utxo.spent }

lemma merkleText_lookalike : (lookalike utxo).merkleText = utxo.merkleText := by
  unfold lookalike
  split_ifs with hzero
  · have hfixed : Text.fixed 8 (1 / 2 ^ 40) = Text.fixed 8 0 := by decide +kernel
    simp only [UTXO.merkleText, UTXO.merkleLine, hzero, hfixed]
  · rfl

@[simp] lemma owner_lookalike : (lookalike utxo).owner = utxo.owner := by
  unfold lookalike
  split_ifs <;> rfl

lemma value_lookalike_ne : (if ¬ (lookalike utxo).spent then (lookalike utxo).amount else 0) ≠
      if ¬ utxo.spent then utxo.amount else 0 := by
  unfold lookalike
  by_cases hzero : utxo.amount = 0
  · rw [if_pos hzero]
    norm_num [hzero]
  · rw [if_neg hzero]
    cases utxo.spent
    · simpa using Ne.symm hzero
    · simpa using hzero

/-- **Only the root of no outputs determines the balances.**

**Proof sketch.** No other pool has the root of the empty one, since all other roots are hashes. In
a pool that holds an output, this output is replaced by its lookalike: the line and so the root stay
as they are, while the balance of the owner changes. -/
theorem root_determines_balances_iff (pool : UTXOPool) : (∀ pool' : UTXOPool,
      calculateMerkleRoot C pool'.utxos = calculateMerkleRoot C pool.utxos →
        ∀ address, pool'.getBalance address = pool.getBalance address) ↔
      pool.utxos = ∅ := by
  constructor
  · intro h
    by_contra hne
    obtain ⟨key, utxo, hutxo⟩ : ∃ key utxo, pool.utxos.lookup key = some utxo := by
      by_contra! hnone
      refine hne (Finmap.ext_lookup fun k => ?_)
      rw [Finmap.lookup_empty, Option.eq_none_iff_forall_ne_some]
      exact hnone k
    have hbalance := h { pool with utxos := pool.utxos.insert key (lookalike utxo) }
      (calculateMerkleRoot_insert C hutxo (merkleText_lookalike utxo)) utxo.owner
    rw [getBalance, getBalance, KeyedLog.total_insert, KeyedLog.weight_of_lookup _ hutxo]
      at hbalance
    simp only [owner_lookalike, true_and] at hbalance
    exact value_lookalike_ne utxo (by linarith)
  · intro hempty pool' hroot address
    rw [hempty, calculateMerkleRoot_eq_empty_iff] at hroot
    rw [getBalance, getBalance, hroot, hempty]

def tenTokens : UTXO := { transactionID := "t", amount := 10, owner := "a" }

/-- A pool with this output alone has one root, whether the output is spent or not. -/
theorem balances_differ_under_one_root :
    calculateMerkleRoot Crypto.sample (Finmap.singleton "t-0" tenTokens) =
        calculateMerkleRoot Crypto.sample (Finmap.singleton "t-0" tenTokens.markSpent) ∧
      getBalance { utxos := Finmap.singleton "t-0" tenTokens } "a" = 10 ∧
      getBalance { utxos := Finmap.singleton "t-0" tenTokens.markSpent } "a" = 0 := by
  refine ⟨?_, by decide +kernel, by decide +kernel⟩
  rw [calculateMerkleRoot_singleton, calculateMerkleRoot_singleton]
  rfl

end UTXOPool

end HybridChain
