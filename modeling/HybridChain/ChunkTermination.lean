import HybridChain.MerkleRoots

/-!
# Termination of chunk verification

Two functions of `utxo.go` verify a chunk. `VerifyStateChunk` reads the first node of the last level
without asking whether there is one; `verifyMerkleProof` goes on combining the last node with itself
until it meets the claimed root.

`UTXOPool.verifyLevels`, the loop of `VerifyStateChunk`, is a total function.

## Main definitions

* `verifyMerkleProof`, with `rebuildTree`
* `comparedNode`: what is compared with the root

## Main results

* `exists_verifyMerkleProof_iff`: when the loop ends
* `chunk_verification_total_iff`, `chunk_verification_not_total`
-/

namespace HybridChain

open KeyedLog (Store)
open Crypto (sample)

/-- `UTXO.Hash`. -/
def UTXO.getHash (C : Crypto) (utxo : UTXO) : String := C.hashHex (Text.bytes utxo.merkleText)

namespace UTXOPool

variable (C : Crypto)

/-! ## The function -/

/-- The loop of `verifyMerkleProof`, for at most `fuel` turns. -/
def rebuildTree (stateRoot : String) : ℕ → List String → Option (List String)
  | 0, _ => none
  | fuel + 1, nodes =>
    if nodes.length > 1 ∨ nodes.length = 1 ∧ nodes.headD "" ≠ stateRoot then
      rebuildTree stateRoot fuel (merkleLevel C nodes)
    else some nodes

/-- The hashes of the outputs of a chunk, in the order in which the map is enumerated. -/
def chunkHashes (order : KeyOrder) (chunk : StateChunk) : List String :=
  (order.keys chunk.utxos).map fun key => ((chunk.utxos.lookup key).getD {}).getHash C

/-- `verifyMerkleProof`, whose loop runs for at most `fuel` turns. -/
def verifyMerkleProof (order : KeyOrder) (chunk : StateChunk) (stateRoot : String) (fuel : ℕ) :
    Option Bool :=
  (rebuildTree C stateRoot fuel (chunkHashes C order chunk)).map fun nodes =>
    nodes.length = 1 ∧ nodes.headD "" = stateRoot

end UTXOPool

/-! ## When the functions return -/

lemma KeyOrder.keys_eq_nil_iff (order : KeyOrder) {utxos : Store String UTXO} :
    order.keys utxos = [] ↔ utxos = ∅ := by
  constructor
  · intro hnil
    refine Finmap.ext_lookup fun key => ?_
    rw [Finmap.lookup_empty, Finmap.lookup_eq_none, ← order.mem_keys, hnil]
    exact List.not_mem_nil
  · rintro rfl
    refine List.eq_nil_iff_forall_not_mem.mpr fun key hkey => ?_
    exact Finmap.notMem_empty (order.mem_keys.mp hkey)

namespace UTXOPool

variable {C : Crypto} {chunk : StateChunk} {order : KeyOrder} {nodes : List String}
  {stateRoot : String}

/-- **When `VerifyStateChunk` returns**: unless the chunk has no outputs. -/
lemma verifyStateChunk_isSome_iff {float : ℚ → String} {pool : UTXOPool} :
    (∃ result, verifyStateChunk C float order pool chunk = some result) ↔ chunk.utxos ≠ ∅ := by
  have hnodes : (chunkLeaves float order chunk).map C.hashHex = [] ↔ chunk.utxos = ∅ := by
    rw [List.map_eq_nil_iff, chunkLeaves, List.map_eq_nil_iff, order.keys_eq_nil_iff]
  rw [verifyStateChunk]
  split_ifs with hnil
  · simp [hnodes.mp hnil]
  · simp [mt hnodes.mpr hnil]
  · simp [mt hnodes.mpr hnil]

lemma stops_iff : ¬ (nodes.length > 1 ∨ nodes.length = 1 ∧ nodes.headD "" ≠ stateRoot) ↔
      nodes = [] ∨ nodes = [stateRoot] := by
  rcases nodes with - | ⟨a, - | ⟨b, nodes⟩⟩ <;> simp

lemma exists_rebuildTree_iff : (∃ fuel result, rebuildTree C stateRoot fuel nodes = some result) ↔
      ∃ n, (PairTree.level C.hashTexts)^[n] nodes = [] ∨
        (PairTree.level C.hashTexts)^[n] nodes = [stateRoot] := by
  constructor
  · rintro ⟨fuel, result, h⟩
    induction fuel generalizing nodes with
    | zero => simp [rebuildTree] at h
    | succ fuel ih =>
      rw [rebuildTree] at h
      split_ifs at h with hgoes
      · obtain ⟨n, hn⟩ := ih h
        rw [merkleLevel_eq_level] at hn
        exact ⟨n + 1, hn⟩
      · exact ⟨0, stops_iff.mp hgoes⟩
  · rintro ⟨n, hn⟩
    induction n generalizing nodes with
    | zero =>
      rw [Function.iterate_zero_apply] at hn
      exact ⟨1, nodes, by rw [rebuildTree, if_neg (stops_iff.mpr hn)]⟩
    | succ n ih =>
      obtain ⟨fuel, result, h⟩ := ih hn
      by_cases hgoes : nodes.length > 1 ∨ nodes.length = 1 ∧ nodes.headD "" ≠ stateRoot
      · exact ⟨fuel + 1, result, by rw [rebuildTree, if_pos hgoes, merkleLevel_eq_level, h]⟩
      · exact ⟨1, nodes, by rw [rebuildTree, if_neg hgoes]⟩

lemma iterate_level_ne_nil (h : nodes ≠ []) (n : ℕ) :
    (PairTree.level C.hashTexts)^[n] nodes ≠ [] := by
  induction n generalizing nodes with
  | zero => exact h
  | succ n ih => exact ih (PairTree.level_ne_nil _ h)

lemma chunkHashes_eq_nil_iff : chunkHashes C order chunk = [] ↔ chunk.utxos = ∅ := by
  rw [chunkHashes, List.map_eq_nil_iff, order.keys_eq_nil_iff]

/-- The nodes that `verifyMerkleProof` compares with the claimed root: the root of the outputs of
the chunk, and what becomes of it when it is hashed with itself again and again. -/
def comparedNode (C : Crypto) (order : KeyOrder) (chunk : StateChunk) (n : ℕ) : String :=
  (fun node => C.hashTexts node node)^[n] (merkleLevels C (chunkHashes C order chunk))

/-- **When `verifyMerkleProof` returns**: if the chunk has no outputs, or if the claimed root is one
of the nodes it is compared with. -/
theorem exists_verifyMerkleProof_iff :
    (∃ fuel result, verifyMerkleProof C order chunk stateRoot fuel = some result) ↔
      chunk.utxos = ∅ ∨ ∃ n, comparedNode C order chunk n = stateRoot := by
  have hreturns : (∃ fuel result, verifyMerkleProof C order chunk stateRoot fuel = some result) ↔
      ∃ fuel result, rebuildTree C stateRoot fuel (chunkHashes C order chunk) = some result := by
    simp only [verifyMerkleProof, Option.map_eq_some_iff]
    refine exists_congr fun fuel => ⟨?_, ?_⟩
    · rintro ⟨_, nodes, hnodes, -⟩
      exact ⟨nodes, hnodes⟩
    · rintro ⟨nodes, hnodes⟩
      exact ⟨_, nodes, hnodes, rfl⟩
  rw [hreturns, exists_rebuildTree_iff, ← chunkHashes_eq_nil_iff (C := C)]
  by_cases hnil : chunkHashes C order chunk = []
  · exact iff_of_true ⟨0, .inl hnil⟩ (.inl hnil)
  · simp only [iterate_level_ne_nil hnil, false_or, hnil]
    rw [PairTree.exists_iterate_level_iff _ hnil, merkleLevels_eq C hnil]
    simp only [Option.some.injEq, exists_eq_left', comparedNode]

/-- **When chunk verification returns**: exactly if the chunk has outputs and the claimed root is
one of the nodes that it is compared with. -/
theorem chunk_verification_total_iff (C : Crypto) (float : ℚ → String) (order : KeyOrder)
    (pool : UTXOPool) (chunk : StateChunk) (stateRoot : String) :
    ((∃ result, verifyStateChunk C float order pool chunk = some result) ∧
        ∃ fuel result, verifyMerkleProof C order chunk stateRoot fuel = some result) ↔
      chunk.utxos ≠ ∅ ∧ ∃ n, comparedNode C order chunk n = stateRoot := by
  rw [verifyStateChunk_isSome_iff, exists_verifyMerkleProof_iff]
  constructor
  · rintro ⟨hne, hempty | hroot⟩
    · exact absurd hempty hne
    · exact ⟨hne, hroot⟩
  · rintro ⟨hne, hroot⟩
    exact ⟨hne, .inr hroot⟩

lemma exists_comparedNode_eq (h : chunk.utxos ≠ ∅) (n : ℕ) :
    ∃ data, comparedNode C order chunk n = C.hashHex data := by
  cases n with
  | zero =>
    refine PairTree.root_of_forall_mem C.hashTexts (P := fun node => ∃ data, node = C.hashHex data)
      (fun a b => ⟨_, rfl⟩) ?_ (merkleLevels_eq C (mt chunkHashes_eq_nil_iff.mp h))
    intro node hnode
    obtain ⟨key, -, rfl⟩ := List.mem_map.mp hnode
    exact ⟨_, rfl⟩
  | succ n =>
    rw [comparedNode, Function.iterate_succ_apply']
    exact ⟨_, rfl⟩

theorem chunk_verification_total_singleOutput :
    (∃ result, verifyStateChunk sample (fun _ => "10") sortedKeys singleOutput
        { chunkID := 0, utxos := singleOutput.utxos } = some result) ∧
      ∃ fuel result, verifyMerkleProof sample sortedKeys
        { chunkID := 0, utxos := singleOutput.utxos }
        (comparedNode sample sortedKeys { chunkID := 0, utxos := singleOutput.utxos } 0)
        fuel = some result :=
  (chunk_verification_total_iff _ _ _ _ _ _).mpr ⟨by decide +kernel, 0, rfl⟩

/-- A chunk without outputs makes `VerifyStateChunk` panic, and with one output `verifyMerkleProof`
does not end if the claimed root is empty. -/
theorem chunk_verification_not_total :
    verifyStateChunk sample (fun _ => "10") sortedKeys {} { chunkID := 0, utxos := ∅ } =
        none ∧ ∀ fuel, verifyMerkleProof sample sortedKeys
        { chunkID := 0, utxos := singleOutput.utxos } "" fuel = none := by
  have hne : singleOutput.utxos ≠ ∅ := by decide +kernel
  refine ⟨?_, fun fuel => ?_⟩
  · rw [Option.eq_none_iff_forall_ne_some]
    intro result hresult
    exact verifyStateChunk_isSome_iff.mp ⟨result, hresult⟩ rfl
  · rw [Option.eq_none_iff_forall_ne_some]
    intro result hresult
    rcases exists_verifyMerkleProof_iff.mp ⟨fuel, result, hresult⟩ with hempty | ⟨n, hroot⟩
    · exact hne hempty
    · obtain ⟨data, hdata⟩ : ∃ data, comparedNode sample sortedKeys
          { chunkID := 0, utxos := singleOutput.utxos } n = sample.hashHex data :=
        exists_comparedNode_eq hne n
      exact sample.hashHex_ne_empty data (hdata.symm.trans hroot)

end UTXOPool

end HybridChain
