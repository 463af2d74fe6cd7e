import HybridChain.Lib.PairTree
import HybridChain.StateChunks

/-!
# The other Merkle roots

Besides `CalculateMerkleRoot` of `utxo.go`, which pairs the last hash of an odd level with itself,
there are those of `block.go`, which repeats it on every level, and of `p2p.go`, which does so on
the first level only.

## Main definitions

* `calculateMerkleRoot`, `calculateStateRoot`, `calculateReceiptsRoot`, `P2P.calculateMerkleRoot`

## Main results

* `calculateStateRoot_eq`: the first two agree
* `P2P.calculateMerkleRoot_agrees_iff`: when the third does
-/

namespace HybridChain

open KeyedLog (Store)
open Crypto (sample)

/-- The hash of two texts, written one after the other. -/
def Crypto.hashTexts (C : Crypto) (a b : String) : String := C.hashHex (Text.bytes (a ++ b))

/-! ## The functions of `block.go` -/

section Source

variable (C : Crypto)

/-- The root of an empty list, and the one that stands where nothing has been computed. -/
def zeroRoot : String := "0x0000000000000000000000000000000000000000000000000000000000000000"

/-- The loop of `calculateMerkleRoot`. A level is padded before its neighbours are hashed, so that
no index is out of range. -/
def paddedLevels (hashes : List String) : String :=
  if _h : hashes.length > 1 then
    paddedLevels ((PairTree.strictLevel C.hashTexts (PairTree.pad hashes)).getD [])
  else hashes.headD ""
  termination_by hashes.length
  decreasing_by
    rw [PairTree.strictLevel_pad, Option.getD_some, PairTree.length_level]
    omega

/-- `calculateMerkleRoot` of `block.go`. -/
def calculateMerkleRoot (hashes : List String) : String :=
  if hashes.length = 0 then zeroRoot else "0x" ++ paddedLevels C hashes

def calculateStateRoot (utxoSet : Store String UTXO) : String :=
  if utxoSet = ∅ then zeroRoot
  else
    calculateMerkleRoot C ((UTXOPool.sortKeys utxoSet).map fun key =>
      C.hashHex (Text.bytes ((utxoSet.lookup key).getD {}).merkleText))

/-- What `%v` prints for a pointer to a receipt. -/
def TxReceipt.format (receipt : TxReceipt) : String :=
  "&\x7b" ++ " ".intercalate [receipt.txHash, receipt.blockHash, toString receipt.blockNumber.toNat,
    toString receipt.gasUsed.toNat, toString receipt.status.toNat,
    toString receipt.cumulativeGas.toNat] ++ "\x7d"

def calculateReceiptsRoot (receipts : List TxReceipt) : String :=
  if receipts.length = 0 then zeroRoot
  else calculateMerkleRoot C (receipts.map fun receipt => C.hashHex (Text.bytes receipt.format))

/-- `CalculateMerkleRoot` of `p2p.go`: only the first level is padded. There is no result if the
pairing of a later level indexes out of range. -/
def P2P.calculateMerkleRoot (hashes : List String) : Option String :=
  if hashes.length = 0 then some ""
  else PairTree.strictRoot C.hashTexts (PairTree.pad hashes)

end Source

/-! ## All of them are pair trees -/

section PairTrees

variable (C : Crypto)

lemma UTXOPool.merkleLevel_eq_level : ∀ hashes : List String,
    merkleLevel C hashes = PairTree.level C.hashTexts hashes
  | [] | [_] => rfl
  | _ :: _ :: hs => congrArg (_ :: ·) (merkleLevel_eq_level hs)

variable {hashes : List String}

lemma UTXOPool.merkleLevels_eq (h : hashes ≠ []) :
    PairTree.root C.hashTexts hashes = some (merkleLevels C hashes) := by
  refine PairTree.level_induction C.hashTexts (fun a => ?_) (fun l hl ih => ?_) hashes h
  · rw [PairTree.root_singleton, merkleLevels, dif_neg (by simp)]
    rfl
  · rw [PairTree.root_of_lt _ hl, ih, merkleLevels.eq_1 C l, dif_pos hl, merkleLevel_eq_level]

lemma paddedLevels_eq (h : hashes ≠ []) :
    PairTree.root C.hashTexts hashes = some (paddedLevels C hashes) := by
  refine PairTree.level_induction C.hashTexts (fun a => ?_) (fun l hl ih => ?_) hashes h
  · rw [PairTree.root_singleton, paddedLevels, dif_neg (by simp)]
    rfl
  · rw [PairTree.root_of_lt _ hl, ih, paddedLevels.eq_1 C l, dif_pos hl, PairTree.strictLevel_pad,
      Option.getD_some]

lemma calculateMerkleRoot_of_ne_nil (h : hashes ≠ []) :
    calculateMerkleRoot C hashes = "0x" ++ paddedLevels C hashes := by
  rw [calculateMerkleRoot, if_neg fun hlen => h (List.length_eq_zero_iff.mp hlen)]

end PairTrees

/-! ## State roots -/

/-- **The state root of a block is that of a pool**, for every map of outputs that is not empty:
repeating the last hash of an odd level before pairing, or pairing it with itself, gives the same
levels. -/
theorem calculateStateRoot_eq (C : Crypto) {utxoSet : Store String UTXO} (h : utxoSet ≠ ∅) :
    calculateStateRoot C utxoSet = "0x" ++ UTXOPool.calculateMerkleRoot C utxoSet := by
  have hkeys : UTXOPool.sortKeys utxoSet ≠ [] := UTXOPool.sortKeys_ne_nil h
  have hroot : PairTree.root C.hashTexts ((UTXOPool.sortKeys utxoSet).map fun key =>
      C.hashHex (Text.bytes ((utxoSet.lookup key).getD {}).merkleText)) = _ :=
    paddedLevels_eq C (by simpa using hkeys)
  rw [UTXOPool.merkleLevels_eq C (by simpa using hkeys)] at hroot
  rw [calculateStateRoot, if_neg h, calculateMerkleRoot_of_ne_nil C (by simpa using hkeys),
    ← Option.some.inj hroot, UTXOPool.calculateMerkleRoot, UTXOPool.calculateMerkleRootBy, if_neg h]

theorem calculateStateRoot_threeOutputs : UTXOPool.threeOutputs.utxos ≠ ∅ ∧
      calculateStateRoot sample UTXOPool.threeOutputs.utxos =
        "0x" ++ UTXOPool.calculateMerkleRoot sample UTXOPool.threeOutputs.utxos :=
  have hne : UTXOPool.threeOutputs.utxos ≠ ∅ := by decide +kernel
  ⟨hne, calculateStateRoot_eq sample hne⟩

/-! ## The root of `p2p.go` -/

namespace P2P

variable (C : Crypto) {hashes : List String}

/-- **When the function of `p2p.go` has a result**, for at least two hashes: exactly if their pairs
are a power of two in number. -/
lemma calculateMerkleRoot_eq_some_iff (h : 2 ≤ hashes.length) {root : String} :
    P2P.calculateMerkleRoot C hashes = some root ↔
      (∃ k, (hashes.length + 1) / 2 = 2 ^ k) ∧ root = paddedLevels C hashes := by
  have hne : hashes ≠ [] := List.ne_nil_of_length_pos (by omega)
  have hpad := PairTree.length_pad hashes
  have hpairs : ((PairTree.pad hashes).length + 1) / 2 = (hashes.length + 1) / 2 := by omega
  rw [P2P.calculateMerkleRoot, if_neg (by omega),
    PairTree.strictRoot_eq _ (List.ne_nil_of_length_pos (by omega)),
    PairTree.exists_two_pow_iff (by omega) (by omega), hpairs, PairTree.root_pad _ h,
    paddedLevels_eq C hne, Option.some.injEq, eq_comm (a := root)]

/-- **The function of `p2p.go` agrees with that of `block.go`**, and has a result at all, exactly if
the pairs of the first level are a power of two in number: later levels are not padded. -/
theorem calculateMerkleRoot_agrees_iff (h : 2 ≤ hashes.length) :
    (∃ root, P2P.calculateMerkleRoot C hashes = some root ∧
        "0x" ++ root = HybridChain.calculateMerkleRoot C hashes) ↔
      ∃ k, (hashes.length + 1) / 2 = 2 ^ k := by
  have hne : hashes ≠ [] := List.ne_nil_of_length_pos (by omega)
  simp only [calculateMerkleRoot_eq_some_iff C h, calculateMerkleRoot_of_ne_nil C hne]
  constructor
  · rintro ⟨_, ⟨hpow, -⟩, -⟩
    exact hpow
  · intro hpow
    exact ⟨_, ⟨hpow, rfl⟩, rfl⟩

theorem calculateMerkleRoot_agrees_seven :
    ∃ root, P2P.calculateMerkleRoot sample ["a", "b", "c", "d", "e", "f", "g"] = some root ∧
      "0x" ++ root =
        HybridChain.calculateMerkleRoot sample ["a", "b", "c", "d", "e", "f", "g"] :=
  (calculateMerkleRoot_agrees_iff sample (by decide)).mpr ⟨2, by decide⟩

/-- Five hashes make three pairs, and the last of three hashes has no partner. -/
theorem calculateMerkleRoot_five :
    P2P.calculateMerkleRoot sample ["a", "b", "c", "d", "e"] = none := by
  rw [Option.eq_none_iff_forall_ne_some]
  intro root hroot
  obtain ⟨⟨k, hk⟩, -⟩ := (calculateMerkleRoot_eq_some_iff sample (by decide)).mp hroot
  simp only [List.length_cons, List.length_nil] at hk
  cases k with
  | zero => omega
  | succ k =>
    rw [pow_succ] at hk
    omega

end P2P

end HybridChain
