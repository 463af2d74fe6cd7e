import HybridChain.Lib.Stride
import HybridChain.PoolState

/-!
# State transfer in chunks

`GetStateChunks` cuts the outputs of a pool into chunks and adds to each one siblings of the Merkle
tree. The receiver checks a chunk with `VerifyStateChunk` and writes it with `ApplyStateChunk`.

A run-time panic is `none`. The text of an amount under `%v` is a parameter, and so is the order in
which the map of a chunk is enumerated.

## Main definitions

* `getStateChunks`, `verifyStateChunk`
* `TreeHash`, `ChunkHash`: what sender and receiver hash

## Main results

* `transfer_lossless`: the chunks rebuild the outputs
* `not_treeHash`, `honest_chunks_rejected`: and the check refuses them
-/

namespace HybridChain

open List Text
open KeyedLog (Store)
open Crypto (sample)

/-- The value of a 64-bit `int`: what does not fit wraps around. -/
def int64 (n : ℤ) : ℤ := n.bmod (2 ^ 64)

lemma int64_of_lt {n : ℤ} (h0 : 0 ≤ n) (h : n < 2 ^ 63) : int64 n = n :=
  Int.bmod_eq_of_le (by omega) (by omega)

namespace UTXOPool

/-! ## The sender -/

section Sender

variable (C : Crypto)

/-- The siblings that one level of the tree contributes to a proof. The index of a node is read as
the index of a key on every level. -/
def levelProof (chunkKeys : List String) : List String → List String → List String
  | [], _ => []
  | [h], keys => if (keys.take 1).any (· ∈ chunkKeys) then [h] else []
  | _ :: h₂ :: hs, keys =>
    (if (keys.take 2).any (· ∈ chunkKeys) then [h₂] else []) ++
      levelProof chunkKeys hs (keys.drop 2)

/-- The siblings of all levels, from the leaves up. -/
def levelsProof (chunkKeys allKeys : List String) (level : List String) : List String :=
  if _h : level.length > 1 then
    levelProof chunkKeys level allKeys ++ levelsProof chunkKeys allKeys (merkleLevel C level)
  else []
  termination_by level.length
  decreasing_by
    have := length_merkleLevel C level
    omega

def generateMerkleProofForChunk (utxos : Store String UTXO) (chunkKeys allKeys : List String) :
    List String :=
  levelsProof C chunkKeys allKeys (allKeys.map fun key =>
    C.hashHex (bytes ((utxos.lookup key).getD {}).merkleText))

def restrict (utxos : Store String UTXO) (chunkKeys : List String) : Store String UTXO :=
  chunkKeys.foldl (fun chunk key => chunk.insert key ((utxos.lookup key).getD {})) ∅

/-- The chunk that `GetStateChunks` makes of some keys. -/
def stateChunk (utxos : Store String UTXO) (keys chunkKeys : List String) (chunkID total : ℤ) :
    StateChunk where
  chunkID := chunkID
  utxos := restrict utxos chunkKeys
  merkleProof := generateMerkleProofForChunk C utxos chunkKeys keys
  total := total

/-- The loop of `GetStateChunks` from an index on. Slicing outside the bounds panics. -/
def chunkLoop (utxos : Store String UTXO) (keys : List String) (chunkSize totalChunks : ℤ) :
    ℕ → ℤ → Option (List StateChunk)
  | 0, i => if i < keys.length then none else some []
  | fuel + 1, i =>
    if i < keys.length then
      let stop := min (int64 (i + chunkSize)) keys.length
      if 0 ≤ i ∧ i ≤ stop then
        let chunkKeys := (keys.drop i.toNat).take (stop - i).toNat
        (chunkLoop utxos keys chunkSize totalChunks fuel (int64 (i + chunkSize))).map
          (stateChunk C utxos keys chunkKeys (int64 (i.tdiv chunkSize)) totalChunks :: ·)
      else none
    else some []

/-- `GetStateChunks`: a division by zero and a negative capacity panic. -/
def getStateChunks (pool : UTXOPool) (chunkSize : ℤ) : Option (List StateChunk) :=
  let keys := sortKeys pool.utxos
  if chunkSize = 0 then none
  else
    let totalChunks := int64 ((int64 (int64 (keys.length + chunkSize) - 1)).tdiv chunkSize)
    if totalChunks < 0 then none
    else chunkLoop C pool.utxos keys chunkSize totalChunks keys.length 0

end Sender

/-! ## The chunks of a pool -/

lemma sortKeys_ne_nil {utxos : Store String UTXO} (hne : utxos ≠ ∅) : sortKeys utxos ≠ [] := by
  intro hnil
  refine hne (Finmap.ext_lookup fun key => ?_)
  rw [Finmap.lookup_empty, Finmap.lookup_eq_none, ← mem_sortKeys, hnil]
  exact not_mem_nil

section Chunks

variable (C : Crypto) {utxos : Store String UTXO} {keys : List String} {k : ℕ}
  (chunks : List StateChunk) (chunkKeys : List String) (pool : UTXOPool)

lemma lookup_restrict (key : String) : (restrict utxos chunkKeys).lookup key =
      if key ∈ chunkKeys then some ((utxos.lookup key).getD {}) else none := by
  have hfold : ∀ chunk : Store String UTXO,
      (chunkKeys.foldl (fun chunk key => chunk.insert key ((utxos.lookup key).getD {}))
        chunk).lookup key =
      if key ∈ chunkKeys then some ((utxos.lookup key).getD {}) else chunk.lookup key := by
    induction chunkKeys with
    | nil => exact fun chunk => rfl
    | cons j chunkKeys ih =>
      intro chunk
      rw [foldl_cons, ih, KeyedLog.lookup_insert_eq]
      by_cases hj : j = key
      · subst hj
        simp
      · simp [hj, Ne.symm hj]
  rw [restrict, hfold, Finmap.lookup_empty]

lemma chunkLoop_succ (hk : 0 < k) (hlen : keys.length + k ≤ 2 ^ 63) (total : ℤ) (fuel : ℕ) {j : ℕ}
    (hj : k * j < keys.length) : chunkLoop C utxos keys k total (fuel + 1) ((k * j : ℕ) : ℤ) =
      (chunkLoop C utxos keys k total fuel ((k * (j + 1) : ℕ) : ℤ)).map
        (stateChunk C utxos keys ((keys.drop (k * j)).take k) j total :: ·) := by
  have hnext : int64 (((k * j : ℕ) : ℤ) + k) = ((k * (j + 1) : ℕ) : ℤ) := by
    have hsum : ((k * j : ℕ) : ℤ) + k = ((k * (j + 1) : ℕ) : ℤ) := by
      rw [Nat.mul_succ, Nat.cast_add]
    rw [hsum]
    apply int64_of_lt (by omega)
    rw [Nat.mul_succ]
    omega
  have hID : int64 (((k * j : ℕ) : ℤ).tdiv k) = j := by
    rw [Nat.cast_mul, Int.mul_tdiv_cancel_left _ (by omega)]
    apply int64_of_lt (by omega)
    have : j ≤ k * j := Nat.le_mul_of_pos_left j hk
    omega
  have hkeys : (keys.drop (k * j)).take
      (min ((k * (j + 1) : ℕ) : ℤ) keys.length - ((k * j : ℕ) : ℤ)).toNat =
      (keys.drop (k * j)).take k := by
    rw [take_eq_take_iff, length_drop, Nat.mul_succ]
    omega
  have hbounds : 0 ≤ ((k * j : ℕ) : ℤ) ∧
      ((k * j : ℕ) : ℤ) ≤ min ((k * (j + 1) : ℕ) : ℤ) keys.length := by
    rw [Nat.mul_succ]
    omega
  rw [chunkLoop, if_pos (by omega)]
  simp only [hnext, hID, hbounds, and_self, if_true, Int.toNat_natCast, hkeys]

lemma lt_batches_iff (hk : 0 < k) (n j : ℕ) : j < (n + (k - 1)) / k ↔ k * j < n := by
  rw [Nat.lt_iff_add_one_le, Nat.le_div_iff_mul_le hk, Nat.add_mul, Nat.mul_comm j k]
  omega

lemma chunkLoop_eq (hk : 0 < k) (hlen : keys.length + k ≤ 2 ^ 63) (total : ℤ) (fuel j : ℕ)
    (hfuel : keys.length ≤ fuel + k * j) : chunkLoop C utxos keys k total fuel ((k * j : ℕ) : ℤ) =
      some ((List.range' j ((keys.length + (k - 1)) / k - j)).map fun i =>
        stateChunk C utxos keys ((keys.drop (k * i)).take k) i total) := by
  have hbatches := lt_batches_iff hk keys.length j
  have hdone : keys.length ≤ k * j → (keys.length + (k - 1)) / k - j = 0 := by omega
  induction fuel generalizing j with
  | zero =>
    rw [chunkLoop, if_neg (by omega), hdone (by omega)]
    rfl
  | succ fuel ih =>
    by_cases hj : k * j < keys.length
    · have hsplit :
          (keys.length + (k - 1)) / k - j = (keys.length + (k - 1)) / k - (j + 1) + 1 := by
        omega
      have hnext := lt_batches_iff hk keys.length (j + 1)
      rw [chunkLoop_succ C hk hlen total fuel hj,
        ih (j + 1) (by rw [Nat.mul_succ]; omega) hnext (by omega), Option.map_some, hsplit,
        range'_succ, map_cons]
    · rw [chunkLoop, if_neg (by omega), hdone (by omega)]
      rfl

def stateChunks (pool : UTXOPool) (k : ℕ) : List StateChunk :=
  (List.range ((pool.utxos.keys.card + (k - 1)) / k)).map fun i =>
    stateChunk C pool.utxos (sortKeys pool.utxos) (((sortKeys pool.utxos).drop (k * i)).take k)
      i ((pool.utxos.keys.card + (k - 1)) / k : ℕ)

@[simp] lemma length_stateChunks (k : ℕ) :
    (stateChunks C pool k).length = (pool.utxos.keys.card + (k - 1)) / k := by
  rw [stateChunks, length_map, length_range]

/-- **The chunks of a pool** are the batches of its sorted keys, unless an index overflows. -/
theorem getStateChunks_eq (hk : 0 < k) (hlen : pool.utxos.keys.card + k < 2 ^ 63) :
    pool.getStateChunks C k = some (stateChunks C pool k) := by
  have hdiv : (pool.utxos.keys.card + (k - 1)) / k ≤ pool.utxos.keys.card + (k - 1) :=
    Nat.div_le_self _ _
  have hsum : int64 (int64 ((pool.utxos.keys.card : ℤ) + k) - 1) =
      ((pool.utxos.keys.card + (k - 1) : ℕ) : ℤ) := by
    have hcard : int64 ((pool.utxos.keys.card : ℤ) + k) = pool.utxos.keys.card + k :=
      int64_of_lt (by omega) (by omega)
    rw [hcard, int64_of_lt (by omega) (by omega)]
    omega
  have htotal : int64 ((int64 (int64 ((pool.utxos.keys.card : ℤ) + k) - 1)).tdiv k) =
      ((pool.utxos.keys.card + (k - 1)) / k : ℕ) := by
    rw [hsum, ← Int.ofNat_tdiv, int64_of_lt (Int.natCast_nonneg _) (by omega)]
  have hkeys : (sortKeys pool.utxos).length + k ≤ 2 ^ 63 := by
    rw [length_sortKeys]
    omega
  have hloop := @chunkLoop_eq C pool.utxos _ _ hk hkeys
    ((pool.utxos.keys.card + (k - 1)) / k : ℕ) (sortKeys pool.utxos).length 0 (by omega)
  rw [Nat.mul_zero, Nat.sub_zero, length_sortKeys, ← range_eq_range'] at hloop
  rw [getStateChunks, if_neg (by omega)]
  rw [length_sortKeys, htotal, if_neg (not_lt.mpr (Int.natCast_nonneg _))]
  exact hloop

lemma keys_restrict :
    (restrict utxos chunkKeys).keys = chunkKeys.toFinset := by
  ext key
  rw [Finmap.mem_keys, ← Finmap.lookup_isSome, lookup_restrict, mem_toFinset]
  split_ifs with hkey
  · simpa using hkey
  · simpa using hkey

/-- **Lists of keys that together are those of a pool** give maps that together hold its outputs. -/
lemma lookup_iff_exists_restrict {batches : List (List String)}
    (hkeys : ∀ key, key ∈ batches.flatten ↔ key ∈ utxos) (key : String) (utxo : UTXO) :
    utxos.lookup key = some utxo ↔
      ∃ batch ∈ batches, (restrict utxos batch).lookup key = some utxo := by
  constructor
  · intro h
    obtain ⟨batch, hbatch, hkey⟩ :=
      mem_flatten.mp ((hkeys key).mpr (Finmap.mem_of_lookup_eq_some h))
    exact ⟨batch, hbatch, by rw [lookup_restrict, if_pos hkey, h, Option.getD_some]⟩
  · rintro ⟨batch, hbatch, h⟩
    rw [lookup_restrict] at h
    split_ifs at h with hkey
    obtain ⟨utxo', hutxo'⟩ :=
      Finmap.mem_iff.mp ((hkeys key).mp (mem_flatten.mpr ⟨batch, hbatch, hkey⟩))
    rw [hutxo'] at h ⊢
    exact h

lemma lookup_iff_exists_stateChunk (hk : 0 < k) (key : String) (utxo : UTXO) :
    pool.utxos.lookup key = some utxo ↔
      ∃ chunk ∈ stateChunks C pool k, chunk.utxos.lookup key = some utxo := by
  have hkeys : ∀ key, key ∈ (Stride.batches k (sortKeys pool.utxos)).flatten ↔
      key ∈ pool.utxos := by
    intro key
    rw [Stride.flatten_batches hk, mem_sortKeys]
  rw [lookup_iff_exists_restrict hkeys, Stride.batches, length_sortKeys, stateChunks]
  simp only [mem_map, exists_exists_and_eq_and]
  rfl

lemma pairwise_stateChunks (hk : 0 < k) :
    (stateChunks C pool k).Pairwise fun c d => c.utxos.Disjoint d.utxos := by
  have hnodup : (Stride.batches k (sortKeys pool.utxos)).flatten.Nodup := by
    rw [Stride.flatten_batches hk]
    exact nodup_sortKeys pool.utxos
  have hbatches := (nodup_flatten.mp hnodup).2
  rw [Stride.batches, length_sortKeys, pairwise_map] at hbatches
  rw [stateChunks, pairwise_map]
  refine hbatches.imp fun hdisjoint key h₁ h₂ => ?_
  rw [← Finmap.mem_keys, stateChunk, keys_restrict, mem_toFinset] at h₁ h₂
  exact hdisjoint h₁ h₂

/-- Chunks that agree with a map leave under their keys what the map holds there, in whatever order
they are applied. -/
lemma lookup_foldl_applyStateChunk
    (hsub : ∀ chunk ∈ chunks, ∀ key utxo, chunk.utxos.lookup key = some utxo →
      utxos.lookup key = some utxo) (pool : UTXOPool) (key : String) :
    (chunks.foldl (applyStateChunk C) pool).utxos.lookup key =
      if ∃ chunk ∈ chunks, key ∈ chunk.utxos then utxos.lookup key
      else pool.utxos.lookup key := by
  induction chunks generalizing pool with
  | nil => simp
  | cons chunk chunks ih =>
    rw [foldl_cons, ih fun c hc => hsub c (by simp [hc])]
    by_cases hlater : ∃ c ∈ chunks, key ∈ c.utxos
    · rw [if_pos hlater, if_pos]
      obtain ⟨c, hc, hkey⟩ := hlater
      exact ⟨c, by simp [hc], hkey⟩
    · rw [if_neg hlater]
      change (chunk.utxos ∪ pool.utxos).lookup key = _
      by_cases hkey : key ∈ chunk.utxos
      · obtain ⟨utxo, hutxo⟩ := Finmap.mem_iff.mp hkey
        rw [Finmap.lookup_union_left hkey, if_pos ⟨chunk, by simp, hkey⟩, hutxo,
          hsub chunk (by simp) key utxo hutxo]
      · rw [Finmap.lookup_union_right hkey, if_neg]
        rintro ⟨c, hc, hcKey⟩
        rcases mem_cons.mp hc with rfl | hc
        · exact hkey hcKey
        · exact hlater ⟨c, hc, hcKey⟩

lemma utxos_foldl_applyStateChunk {chunks : List StateChunk}
    (h : ∀ key utxo, utxos.lookup key = some utxo ↔
      ∃ chunk ∈ chunks, chunk.utxos.lookup key = some utxo) :
    (chunks.foldl (applyStateChunk C) {}).utxos = utxos := by
  apply Finmap.ext_lookup
  intro key
  have hsub : ∀ chunk ∈ chunks, ∀ key utxo, chunk.utxos.lookup key = some utxo →
      utxos.lookup key = some utxo :=
    fun chunk hchunk key utxo hutxo => (h key utxo).mpr ⟨chunk, hchunk, hutxo⟩
  rw [lookup_foldl_applyStateChunk C chunks hsub]
  split_ifs with hkey
  · rfl
  · rw [Finmap.lookup_empty, eq_comm, Option.eq_none_iff_forall_ne_some]
    intro utxo hutxo
    obtain ⟨chunk, hchunk, hlookup⟩ := (h key utxo).mp hutxo
    exact hkey ⟨chunk, hchunk, Finmap.mem_of_lookup_eq_some hlookup⟩

lemma coherent_foldl_applyStateChunk {pool : UTXOPool}
    (h : pool.Coherent C) : (chunks.foldl (applyStateChunk C) pool).Coherent C := by
  induction chunks generalizing pool with
  | nil => exact h
  | cons chunk chunks ih => exact ih rfl

/-- **State transfer in chunks loses nothing.** The chunks are numbered consecutively, hold at most
as many outputs as asked for, share no key, and hold together the outputs of the pool; applied to a
new pool in any order they rebuild them, with their root.

**Proof sketch.** The keys of the chunks are the batches of the sorted keys. Each chunk agrees with
the pool, so that the order in which chunks are applied does not matter. -/
theorem transfer_lossless (pool : UTXOPool) (chunkSize : ℤ)
    (hlen : pool.utxos.keys.card < 2 ^ 62) (hsize : 1 ≤ chunkSize) (hsize' : chunkSize < 2 ^ 62) :
    ∃ chunks, pool.getStateChunks C chunkSize = some chunks ∧
      chunks.map StateChunk.chunkID = (List.range chunks.length).map Int.ofNat ∧
      (∀ chunk ∈ chunks, chunk.total = chunks.length ∧ chunk.utxos.keys.card ≤ chunkSize) ∧
      (chunks.Pairwise fun c d => c.utxos.Disjoint d.utxos) ∧
      (∀ key utxo, pool.utxos.lookup key = some utxo ↔
        ∃ chunk ∈ chunks, chunk.utxos.lookup key = some utxo) ∧
      ∀ received : List StateChunk, received.Perm chunks →
        (received.foldl (applyStateChunk C) {}).utxos = pool.utxos ∧
        (received.foldl (applyStateChunk C) {}).merkleRoot =
          calculateMerkleRoot C pool.utxos := by
  obtain ⟨k, rfl⟩ := Int.eq_ofNat_of_zero_le (by omega : 0 ≤ chunkSize)
  have hk : 0 < k := by omega
  have hunion := lookup_iff_exists_stateChunk C pool hk
  refine ⟨_, getStateChunks_eq C pool hk (by omega), ?_, ?_, pairwise_stateChunks C pool hk, hunion,
    ?_⟩
  · rw [length_stateChunks, stateChunks, map_map]
    rfl
  · intro chunk hchunk
    obtain ⟨i, -, rfl⟩ := mem_map.mp hchunk
    refine ⟨by rw [length_stateChunks]; rfl, ?_⟩
    rw [stateChunk, keys_restrict]
    exact_mod_cast (toFinset_card_le _).trans (length_take_le _ _)
  · intro received hperm
    have hutxos : (received.foldl (applyStateChunk C) {}).utxos = pool.utxos := by
      apply utxos_foldl_applyStateChunk
      intro key utxo
      rw [hunion key utxo]
      exact ⟨fun ⟨c, hc, h⟩ => ⟨c, hperm.mem_iff.mpr hc, h⟩,
        fun ⟨c, hc, h⟩ => ⟨c, hperm.mem_iff.mp hc, h⟩⟩
    have hroot : (received.foldl (applyStateChunk C) {}).Coherent C :=
      coherent_foldl_applyStateChunk C received rfl
    exact ⟨hutxos, by rw [hroot, hutxos]⟩

def threeOutputs : UTXOPool where
  utxos := ((Finmap.singleton "p-0" { transactionID := "p", amount := 1, owner := "a" }).insert
    "q-0" { transactionID := "q", amount := 2, owner := "b" }).insert
    "q-1" { transactionID := "q", outputIndex := 1, amount := 3, owner := "a" }

theorem transfer_lossless_threeOutputs : threeOutputs.utxos.keys.card = 3 ∧
      ∃ chunks, threeOutputs.getStateChunks sample 2 = some chunks ∧
        ∀ received : List StateChunk, received.Perm chunks →
          (received.foldl (applyStateChunk sample) {}).utxos = threeOutputs.utxos := by
  refine ⟨by decide +kernel, ?_⟩
  obtain ⟨chunks, hchunks, -, -, -, -, hreceived⟩ :=
    transfer_lossless sample threeOutputs 2 (by decide +kernel) (by decide) (by decide)
  exact ⟨chunks, hchunks, fun received hperm => (hreceived received hperm).1⟩

end Chunks

/-! ## The receiver -/

section Receiver

variable (C : Crypto) (float : ℚ → String)

/-- The fields of an output as `%v` prints them. -/
def formatFields (utxo : UTXO) : List String :=
  [utxo.transactionID, toString utxo.outputIndex, float utxo.amount, utxo.owner,
    toString utxo.spent, toString utxo.blockHeight.toNat, toString utxo.timestamp,
    utxo.scriptPubKey]

/-- `fmt.Sprintf("%s:%v", key, utxo)`. -/
def chunkText (key : String) (utxo : UTXO) : String :=
  key ++ ":\x7b" ++ " ".intercalate (formatFields float utxo) ++ "\x7d"

/-- What `hashPair` hashes: the smaller text first. -/
def pairText (left right : String) : String := if right < left then right ++ left else left ++ right

def hashPair (left right : String) : String := C.hashHex (bytes (pairText left right))

/-- The pairs hashed on one level, and what is left of the proof. A last node without a partner
takes one from the proof, or else itself. -/
def levelPairs : List String → List String → List (String × String) × List String
  | [], proof => ([], proof)
  | [h], [] => ([(h, h)], [])
  | [h], p :: proof => ([(h, p)], proof)
  | h₁ :: h₂ :: hs, proof => ((h₁, h₂) :: (levelPairs hs proof).1, (levelPairs hs proof).2)

lemma length_levelPairs : ∀ level proof : List String,
    2 * (levelPairs level proof).1.length ≤ level.length + 1 ∧
      (levelPairs level proof).2.length ≤ proof.length
  | [], proof | [_], [] | [_], _ :: _ => by simp [levelPairs]
  | _ :: _ :: hs, proof => by
    have ih := length_levelPairs hs proof
    simp only [levelPairs, length_cons]
    omega

/-- One turn of the loop of `VerifyStateChunk`: the next level, to which a node of the proof is
added unless it is the last one, and what is left of the proof. -/
def climb (level proof : List String) : List String × List String :=
  let next := (levelPairs level proof).1.map fun p => hashPair C p.1 p.2
  let proof := (levelPairs level proof).2
  if next.length > 1 then (next ++ proof.take 1, proof.drop 1) else (next, proof)

lemma length_climb {level : List String} (h : 1 < level.length) (proof : List String) :
    2 * (climb C level proof).2.length + (climb C level proof).1.length <
      2 * proof.length + level.length := by
  have hpairs := length_levelPairs level proof
  rw [climb]
  split_ifs
  · simp only [length_append, length_map, length_take, length_drop]
    omega
  · simp only [length_map]
    omega

/-- The levels that `VerifyStateChunk` computes, up to the last node. -/
def verifyLevels (level proof : List String) : String :=
  if _h : level.length > 1 then
    verifyLevels (climb C level proof).1 (climb C level proof).2
  else level.headD ""
  termination_by 2 * proof.length + level.length
  decreasing_by exact length_climb C _h proof

/-- The texts of the outputs of a chunk, in the order in which the map is enumerated. -/
def chunkLeaves (order : KeyOrder) (chunk : StateChunk) : List (List UInt8) :=
  (order.keys chunk.utxos).map fun key =>
    bytes (chunkText float key ((chunk.utxos.lookup key).getD {}))

/-- `VerifyStateChunk`. A chunk without outputs makes it panic. -/
def verifyStateChunk (order : KeyOrder) (pool : UTXOPool) (chunk : StateChunk) :
    Option (Except String Unit) :=
  let nodes := (chunkLeaves float order chunk).map C.hashHex
  if nodes = [] then none
  else if verifyLevels C nodes chunk.merkleProof ≠ pool.merkleRoot then
    some (.error s!"invalid merkle proof for chunk {chunk.chunkID}")
  else some (.ok ())

/-! ## What the receiver hashes -/

/-- The byte strings hashed above the leaves of a chunk. -/
def climbTexts (level proof : List String) : List (List UInt8) :=
  if _h : level.length > 1 then
    ((levelPairs level proof).1.map fun p => bytes (pairText p.1 p.2)) ++
      climbTexts (climb C level proof).1 (climb C level proof).2
  else []
  termination_by 2 * proof.length + level.length
  decreasing_by exact length_climb C _h proof

/-- The byte strings hashed to verify a chunk. -/
def verifyTexts (order : KeyOrder) (chunk : StateChunk) : List (List UInt8) :=
  chunkLeaves float order chunk ++
    climbTexts C ((chunkLeaves float order chunk).map C.hashHex) chunk.merkleProof

/-- A hash of the sender's tree: of the line of an output, or of two hashes of the tree. -/
inductive TreeHash (texts : Set (List UInt8)) : String → Prop
  | leaf {utxo : UTXO} (h : bytes utxo.merkleText ∈ texts) :
    TreeHash texts (C.hashHex (bytes utxo.merkleText))
  | node {a b : String} (ha : TreeHash texts a) (hb : TreeHash texts b)
    (h : bytes (a ++ b) ∈ texts) : TreeHash texts (C.hashHex (bytes (a ++ b)))

/-- A hash the receiver builds over an output: of its text, or of a pair of hashes with such a one
on one side. -/
inductive ChunkHash (texts : Set (List UInt8)) : String → Prop
  | leaf {key : String} {utxo : UTXO} (h : bytes (chunkText float key utxo) ∈ texts) :
    ChunkHash texts (C.hashHex (bytes (chunkText float key utxo)))
  | left {a : String} {data : List UInt8} (ha : ChunkHash texts a)
    (h : bytes (a ++ C.hashHex data) ∈ texts) :
    ChunkHash texts (C.hashHex (bytes (a ++ C.hashHex data)))
  | right {data : List UInt8} {b : String} (hb : ChunkHash texts b)
    (h : bytes (C.hashHex data ++ b) ∈ texts) :
    ChunkHash texts (C.hashHex (bytes (C.hashHex data ++ b)))

variable {C float} {texts : Set (List UInt8)} {h : String}

lemma TreeHash.exists_eq (htree : TreeHash C texts h) :
    ∃ data, h = C.hashHex data := by
  cases htree <;> exact ⟨_, rfl⟩

lemma ChunkHash.exists_eq (hchunk : ChunkHash C float texts h) :
    ∃ data, h = C.hashHex data := by
  cases hchunk <;> exact ⟨_, rfl⟩

variable {utxos : Store String UTXO} {data : List UInt8} (key : String) (utxo : UTXO)

lemma TreeHash.inv (hinj : Set.InjOn C.sha256 texts) (hdata : data ∈ texts)
    (htree : TreeHash C texts (C.hashHex data)) : (∃ utxo : UTXO, data = bytes utxo.merkleText) ∨
      ∃ a b, TreeHash C texts a ∧ TreeHash C texts b ∧ data = bytes a ++ bytes b := by
  generalize hh : C.hashHex data = h at htree
  cases htree with
  | leaf h => exact .inl ⟨_, hinj hdata h (C.hashHex_eq_iff.mp hh)⟩
  | node ha hb h =>
    refine .inr ⟨_, _, ha, hb, ?_⟩
    rw [← bytes_append]
    exact hinj hdata h (C.hashHex_eq_iff.mp hh)

lemma chunkText_ne_merkleText (utxo utxo' : UTXO) :
    chunkText float key utxo ≠ utxo'.merkleText := by
  intro h
  obtain ⟨c, hc, hdigit⟩ := exists_getLast_fixed 8 utxo'.amount
  have hne : (Text.fixed 8 utxo'.amount).toList ≠ [] := by
    intro hempty
    simp [hempty] at hc
  have hline : utxo'.merkleText.toList.getLast? = some c := by
    rw [UTXO.merkleText, UTXO.merkleLine, String.toList_append,
      List.getLast?_append_of_ne_nil _ hne, hc]
  have hchunk : (chunkText float key utxo).toList.getLast? = some '\x7d' := by
    have hbrace : "\x7d".toList = ['\x7d'] := by decide +kernel
    rw [chunkText, String.toList_append, hbrace, List.getLast?_concat]
  rw [h, hline] at hchunk
  obtain rfl := Option.some.inj hchunk
  exact absurd hdigit (by decide)

lemma dash_mem_bytes_merkleText : 45 ∈ bytes utxo.merkleText := by
  have hdash : bytes "-" = [45] := by decide
  simp only [UTXO.merkleText, UTXO.merkleLine, bytes_append, hdash, mem_append,
    mem_singleton, true_or, or_true]

lemma brace_mem_bytes_chunkText :
    123 ∈ bytes (chunkText float key utxo) := by
  have hbrace : bytes ":\x7b" = [58, 123] := by decide
  simp only [chunkText, bytes_append, hbrace, mem_append, mem_cons, true_or, or_true]

/-- Two hashes are neither the line of an output nor, unless they are hashes of the tree, what is
hashed above the lines. -/
lemma TreeHash.of_append (hinj : Set.InjOn C.sha256 texts) {data data' : List UInt8}
    (hmem : bytes (C.hashHex data ++ C.hashHex data') ∈ texts)
    (htree : TreeHash C texts (C.hashHex (bytes (C.hashHex data ++ C.hashHex data')))) :
    TreeHash C texts (C.hashHex data) ∧ TreeHash C texts (C.hashHex data') := by
  rcases TreeHash.inv hinj hmem htree with ⟨utxo, hline⟩ | ⟨a, b, ha, hb, hpair⟩
  · have hdash := dash_mem_bytes_merkleText utxo
    rw [← hline, bytes_append, mem_append] at hdash
    exact absurd hdash (by
      rw [not_or]
      exact ⟨dash_not_mem_bytes_hex _, dash_not_mem_bytes_hex _⟩)
  · obtain ⟨dataA, rfl⟩ := ha.exists_eq
    obtain ⟨dataB, rfl⟩ := hb.exists_eq
    rw [bytes_append] at hpair
    obtain ⟨hA, hB⟩ := append_inj hpair (by simp)
    rw [bytes_inj hA, bytes_inj hB]
    exact ⟨ha, hb⟩

/-- **No hash that a receiver builds over an output is a hash of the sender's tree.**

**Proof sketch.** Induction on how the receiver built the hash. The text of an output differs from
every line by its last character, and from two hashes by its brace; two hashes differ from a line by
its dash. -/
theorem not_treeHash (hinj : Set.InjOn C.sha256 texts)
    (hchunk : ChunkHash C float texts h) : ¬ TreeHash C texts h := by
  induction hchunk with
  | @leaf key utxo hmem =>
    intro htree
    rcases TreeHash.inv hinj hmem htree with ⟨utxo', hline⟩ | ⟨a, b, ha, hb, hpair⟩
    · exact chunkText_ne_merkleText key utxo utxo' (bytes_inj hline)
    · obtain ⟨dataA, rfl⟩ := ha.exists_eq
      obtain ⟨dataB, rfl⟩ := hb.exists_eq
      have hbrace := @brace_mem_bytes_chunkText float key utxo
      rw [hpair, mem_append] at hbrace
      exact hbrace.elim (not_mem_bytes_hex (by decide) _)
        (not_mem_bytes_hex (by decide) _)
  | left ha hmem ih =>
    obtain ⟨dataA, rfl⟩ := ha.exists_eq
    exact fun htree => ih (htree.of_append hinj hmem).1
  | right hb hmem ih =>
    obtain ⟨dataB, rfl⟩ := hb.exists_eq
    exact fun htree => ih (htree.of_append hinj hmem).2

/-! ## The receiver rejects the chunks -/

lemma mem_of_mem_levelPairs : ∀ {level proof : List String} {h : String},
    h ∈ (levelPairs level proof).2 → h ∈ proof
  | [], _, _, hh | [_], [], _, hh => hh
  | [_], _ :: _, _, hh => mem_cons_of_mem _ hh
  | _ :: _ :: hs, proof, _, hh => @mem_of_mem_levelPairs hs proof _ hh

lemma chunkHash_hashPair {a : String} (ha : ChunkHash C float texts a)
    (hmem : bytes (pairText a (C.hashHex data)) ∈ texts) :
    ChunkHash C float texts (hashPair C a (C.hashHex data)) := by
  rw [hashPair]
  rw [pairText] at hmem ⊢
  split_ifs at hmem ⊢
  · exact .right ha hmem
  · exact .left ha hmem

lemma exists_of_mem_climb {level proof : List String}
    (hproof : ∀ h ∈ proof, ∃ data, h = C.hashHex data) :
    (∀ h ∈ (climb C level proof).1, ∃ data, h = C.hashHex data) ∧
      ∀ h ∈ (climb C level proof).2, ∃ data, h = C.hashHex data := by
  have hrest : ∀ h ∈ (levelPairs level proof).2, ∃ data, h = C.hashHex data :=
    fun h hh => hproof h (mem_of_mem_levelPairs hh)
  have hnext : ∀ h ∈ (levelPairs level proof).1.map (fun p => hashPair C p.1 p.2),
      ∃ data, h = C.hashHex data := by
    intro h hh
    obtain ⟨p, -, rfl⟩ := mem_map.mp hh
    exact ⟨_, rfl⟩
  rw [climb]
  split_ifs
  · refine ⟨fun h hh => ?_, fun h hh => hrest h (mem_of_mem_drop hh)⟩
    exact (mem_append.mp hh).elim (hnext h) fun hh => hrest h (mem_of_mem_take hh)
  · exact ⟨hnext, hrest⟩

lemma exists_climb_eq_cons (h₁ h₂ : String) (hs proof : List String) :
    ∃ rest, (climb C (h₁ :: h₂ :: hs) proof).1 = hashPair C h₁ h₂ :: rest := by
  rw [climb]
  split_ifs
  · exact ⟨_, rfl⟩
  · exact ⟨_, rfl⟩

/-- **The first node of every level is built over an output.** -/
lemma chunkHash_verifyLevels (level proof : List String)
    (hlevel : ∀ h ∈ level, ∃ data, h = C.hashHex data)
    (hproof : ∀ h ∈ proof, ∃ data, h = C.hashHex data)
    (hhead : ∃ h rest, level = h :: rest ∧ ChunkHash C float texts h)
    (htexts : ∀ text ∈ climbTexts C level proof, text ∈ texts) :
    ChunkHash C float texts (verifyLevels C level proof) := by
  obtain ⟨h₁, rest, rfl, hh₁⟩ := hhead
  cases rest with
  | nil =>
    rw [verifyLevels]
    exact hh₁
  | cons h₂ hs =>
    have hlen : (h₁ :: h₂ :: hs).length > 1 := by simp
    have hmeasure := length_climb C hlen proof
    rw [climbTexts, dif_pos hlen] at htexts
    rw [verifyLevels, dif_pos hlen]
    obtain ⟨data, rfl⟩ := hlevel h₂ (by simp)
    have hfirst : ChunkHash C float texts (hashPair C h₁ (C.hashHex data)) :=
      chunkHash_hashPair hh₁ (htexts _ (mem_append_left _ mem_cons_self))
    obtain ⟨hnext, hrest⟩ := @exists_of_mem_climb C (h₁ :: C.hashHex data :: hs) proof hproof
    obtain ⟨rest, hcons⟩ := exists_climb_eq_cons (C := C) h₁ (C.hashHex data) hs proof
    exact chunkHash_verifyLevels _ _ hnext hrest ⟨_, _, hcons, hfirst⟩ fun text htext =>
      htexts text (mem_append_right _ htext)
  termination_by 2 * proof.length + level.length
  decreasing_by
    subst_vars
    exact hmeasure

lemma treeHash_merkleLevels (hashes : List String) (hne : hashes ≠ [])
    (hhashes : ∀ h ∈ hashes, TreeHash C texts h)
    (htexts : ∀ text ∈ levelTexts C hashes, text ∈ texts) :
    TreeHash C texts (merkleLevels C hashes) := by
  by_cases hlen : hashes.length > 1
  · have hlevel := length_merkleLevel C hashes
    rw [levelTexts, dif_pos hlen] at htexts
    rw [merkleLevels, dif_pos hlen]
    refine treeHash_merkleLevels (merkleLevel C hashes) ?_ ?_ fun text htext =>
      htexts text (mem_append_right _ htext)
    · rcases hashes with _ | ⟨a, _ | ⟨b, hs⟩⟩
      · simp at hlen
      · simp at hlen
      · rw [merkleLevel]
        exact cons_ne_nil _ _
    · intro h hh
      rw [merkleLevel_eq] at hh
      obtain ⟨text, htext, rfl⟩ := mem_map.mp hh
      have hmem := htexts text (mem_append_left _ htext)
      obtain ⟨a, ha, b, hb, rfl⟩ := exists_of_mem_pairTexts htext
      rw [← bytes_append] at hmem ⊢
      exact .node (hhashes a ha) (hhashes b hb) hmem
  · rw [merkleLevels, dif_neg hlen]
    cases hashes with
    | nil => exact absurd rfl hne
    | cons h hs => exact hhashes h mem_cons_self
  termination_by hashes.length
  decreasing_by omega

lemma mem_of_mem_levelProof {chunkKeys : List String} : ∀ {level keys : List String} {h : String},
    h ∈ levelProof chunkKeys level keys → h ∈ level
  | [], _, _, hh => hh
  | [_], _, _, hh => by
    rw [levelProof] at hh
    split_ifs at hh
    · exact hh
    · simp at hh
  | _ :: _ :: hs, keys, h, hh => by
    rw [levelProof] at hh
    rcases mem_append.mp hh with hh | hh
    · split_ifs at hh
      · simp [mem_singleton.mp hh]
      · simp at hh
    · simp [@mem_of_mem_levelProof chunkKeys hs (keys.drop 2) h hh]

lemma exists_of_mem_levelsProof (chunkKeys allKeys level : List String)
    (hlevel : ∀ h ∈ level, ∃ data, h = C.hashHex data) {h : String}
    (hh : h ∈ levelsProof C chunkKeys allKeys level) : ∃ data, h = C.hashHex data := by
  rw [levelsProof] at hh
  split_ifs at hh with hlen
  · have hlength := length_merkleLevel C level
    rcases mem_append.mp hh with hh | hh
    · exact hlevel h (mem_of_mem_levelProof hh)
    · refine exists_of_mem_levelsProof chunkKeys allKeys (merkleLevel C level) ?_ hh
      intro x hx
      rw [merkleLevel_eq] at hx
      obtain ⟨text, -, rfl⟩ := mem_map.mp hx
      exact ⟨text, rfl⟩
  · simp at hh
  termination_by level.length
  decreasing_by omega

lemma chunkLoop_spec {keys : List String} {chunkSize total : ℤ}
    {fuel : ℕ} {i : ℤ} {chunks : List StateChunk}
    (h : chunkLoop C utxos keys chunkSize total fuel i = some chunks) :
    (i < keys.length → chunks ≠ []) ∧ ∀ chunk ∈ chunks, ∃ chunkKeys chunkID,
        chunk = stateChunk C utxos keys chunkKeys chunkID total := by
  induction fuel generalizing i chunks with
  | zero =>
    rw [chunkLoop] at h
    split_ifs at h with hi
    obtain rfl := Option.some.inj h
    exact ⟨fun hlt => absurd hlt hi, by simp⟩
  | succ fuel ih =>
    rw [chunkLoop] at h
    dsimp only at h
    split_ifs at h with hi
    · obtain ⟨rest, hrest, rfl⟩ := Option.map_eq_some_iff.mp h
      refine ⟨fun _ => cons_ne_nil _ _, ?_⟩
      intro chunk hchunk
      rcases mem_cons.mp hchunk with rfl | hchunk
      · exact ⟨_, _, rfl⟩
      · exact (ih hrest).2 chunk hchunk
    · obtain rfl := Option.some.inj h
      exact ⟨fun hlt => absurd hlt hi, by simp⟩

lemma treeHash_calculateMerkleRoot (hne : utxos ≠ ∅)
    (htexts : ∀ text ∈ merkleTexts C utxos, text ∈ texts) :
    TreeHash C texts (calculateMerkleRoot C utxos) := by
  rw [calculateMerkleRoot_eq C hne]
  refine treeHash_merkleLevels _ ?_ ?_ fun text htext => htexts _ (mem_append_right _ htext)
  · rw [Ne, map_eq_nil_iff, leafTexts, map_eq_nil_iff]
    exact sortKeys_ne_nil hne
  · intro h hh
    obtain ⟨text, htext, rfl⟩ := mem_map.mp hh
    have hmem := htexts text (mem_append_left _ htext)
    obtain ⟨key, -, rfl⟩ := mem_map.mp htext
    exact .leaf hmem

lemma chunkHash_chunk {order : KeyOrder} {chunk : StateChunk}
    (hleaves : chunkLeaves float order chunk ≠ [])
    (hproof : ∀ h ∈ chunk.merkleProof, ∃ data, h = C.hashHex data)
    (htexts : ∀ text ∈ verifyTexts C float order chunk, text ∈ texts) : ChunkHash C float texts
      (verifyLevels C ((chunkLeaves float order chunk).map C.hashHex) chunk.merkleProof) := by
  refine chunkHash_verifyLevels _ _ ?_ hproof ?_ fun text htext =>
    htexts text (mem_append_right _ htext)
  · intro h hh
    obtain ⟨data, -, rfl⟩ := mem_map.mp hh
    exact ⟨data, rfl⟩
  · cases hkeys : order.keys chunk.utxos with
    | nil => exact absurd (by rw [chunkLeaves, hkeys]; rfl) hleaves
    | cons key keys =>
      have hleaf : bytes (chunkText float key ((chunk.utxos.lookup key).getD {})) ∈
          chunkLeaves float order chunk :=
        mem_map.mpr ⟨key, by rw [hkeys]; exact mem_cons_self, rfl⟩
      refine ⟨_, _, by rw [chunkLeaves, hkeys]; rfl, .leaf ?_⟩
      exact htexts _ (mem_append_left _ hleaf)

variable (C float)

/-- **Honest chunks are rejected**: a receiver that stores the root of a pool with outputs accepts
none of its chunks, of which there is one at least.

**Proof sketch.** The root is a hash of the tree. What the receiver compares with it is built over
the first output of the chunk, and so is none. -/
theorem honest_chunks_rejected (order : KeyOrder) {pool receiver : UTXOPool} {chunkSize : ℤ}
    {chunks : List StateChunk} (hne : pool.utxos ≠ ∅)
    (hroot : receiver.merkleRoot = calculateMerkleRoot C pool.utxos)
    (hchunks : pool.getStateChunks C chunkSize = some chunks)
    (hinj : Set.InjOn C.sha256 {data | data ∈ merkleTexts C pool.utxos ∨
      ∃ chunk ∈ chunks, data ∈ verifyTexts C float order chunk}) : chunks ≠ [] ∧
      ∀ chunk ∈ chunks, verifyStateChunk C float order receiver chunk ≠ some (.ok ()) := by
  obtain ⟨total, fuel, hloop⟩ : ∃ total fuel,
      chunkLoop C pool.utxos (sortKeys pool.utxos) chunkSize total fuel 0 = some chunks := by
    rw [getStateChunks] at hchunks
    dsimp only at hchunks
    split_ifs at hchunks
    exact ⟨_, _, hchunks⟩
  obtain ⟨hsome, hall⟩ := chunkLoop_spec hloop
  have hkeys := length_pos_iff.mpr (sortKeys_ne_nil hne)
  refine ⟨hsome (by omega), fun chunk hchunk haccepted => ?_⟩
  have htree := treeHash_calculateMerkleRoot hne fun text htext =>
    (.inl htext : text ∈ merkleTexts C pool.utxos ∨
      ∃ chunk ∈ chunks, text ∈ verifyTexts C float order chunk)
  rw [verifyStateChunk] at haccepted
  split_ifs at haccepted with hnodes hverify
  · cases haccepted
  · rw [not_not] at hverify
    rw [← hroot, ← hverify] at htree
    refine not_treeHash hinj (chunkHash_chunk ?_ ?_ fun text htext => .inr ⟨chunk, hchunk, htext⟩)
      htree
    · rwa [map_eq_nil_iff] at hnodes
    · obtain ⟨chunkKeys, chunkID, rfl⟩ := hall chunk hchunk
      intro h hh
      refine exists_of_mem_levelsProof chunkKeys _ _ ?_ hh
      intro x hx
      obtain ⟨key, -, rfl⟩ := mem_map.mp hx
      exact ⟨_, rfl⟩

def singleOutput : UTXOPool where
  utxos := Finmap.singleton "t-0" tenTokens
  merkleRoot := calculateMerkleRoot sample (Finmap.singleton "t-0" tenTokens)

/-- Its only chunk is rejected by the pool itself. -/
theorem singleOutput_chunk_rejected : (singleOutput.getStateChunks sample 1).map
      (List.map (verifyStateChunk sample (fun _ => "10") sortedKeys singleOutput)) =
    some [some (.error "invalid merkle proof for chunk 0")] := by
  decide +kernel

def singleTexts : List (List UInt8) :=
  [bytes tenTokens.merkleText, bytes (chunkText (fun _ => "10") "t-0" tenTokens)]

theorem honest_chunks_rejected_singleOutput :
    ∃ chunks, singleOutput.getStateChunks sample 1 = some chunks ∧ chunks ≠ [] ∧ ∀ chunk ∈ chunks,
        verifyStateChunk sample (fun _ => "10") sortedKeys singleOutput chunk ≠
          some (.ok ()) := by
  have hcard : singleOutput.utxos.keys.card + 1 < 2 ^ 63 := by decide +kernel
  have hchunks : singleOutput.getStateChunks sample 1 = _ :=
    getStateChunks_eq sample singleOutput one_pos hcard
  have htexts : ∀ data, data ∈ merkleTexts sample singleOutput.utxos ∨
      (∃ chunk ∈ stateChunks sample singleOutput 1,
        data ∈ verifyTexts sample (fun _ => "10") sortedKeys chunk) →
      data ∈ singleTexts := by
    have htree : ∀ data ∈ merkleTexts sample singleOutput.utxos, data ∈ singleTexts := by
      decide +kernel
    have hchunk : ∀ chunk ∈ stateChunks sample singleOutput 1,
        ∀ data ∈ verifyTexts sample (fun _ => "10") sortedKeys chunk,
          data ∈ singleTexts := by
      decide +kernel
    rintro data (h | ⟨chunk, hmem, h⟩)
    · exact htree data h
    · exact hchunk chunk hmem data h
  have hinj : ∀ a ∈ singleTexts, ∀ b ∈ singleTexts,
      sample.sha256 a = sample.sha256 b → a = b := by
    decide +kernel
  exact ⟨_, hchunks, honest_chunks_rejected sample (fun _ => "10") sortedKeys
    (by decide +kernel) rfl hchunks fun a ha b hb => hinj a (htexts a ha) b (htexts b hb)⟩

end Receiver

end UTXOPool

end HybridChain
