import HybridChain.Trie
import HybridChain.Utxo

/-!
# Blocks

`block.go`: headers, bodies and the hash of a block; and the part of `utxo.go` that applies a block
to a pool.

The caches `size` and `numTx` are left out: no modelled function reads them. `time.Time` values are
their RFC 3339 texts.

## Main definitions

* `Block`, `BlockHeader`, `calculateHash`, `getHash`
* `processBlockTransactions`

## Main results

* `utxos_processBlockTransactions`: the outputs after a block
-/

namespace HybridChain

structure SelectionProof where
  seed : List UInt8 := []
  timestamp : String := "0001-01-01T00:00:00Z"
  weight : UInt64 := 0
  score : UInt64 := 0
  deriving DecidableEq

structure BlockHeader where
  version : UInt32 := 0
  blockNumber : UInt64 := 0
  previousHash : String := ""
  timestamp : ℤ := 0
  merkleRoot : String := ""
  stateRoot : String := ""
  receiptsRoot : String := ""
  difficulty : UInt32 := 0
  nonce : UInt64 := 0
  gasLimit : UInt64 := 0
  gasUsed : UInt64 := 0
  minedBy : String := ""
  validatedBy : String := ""
  extraData : List UInt8 := []
  validatorProof : Option SelectionProof := none
  validatorAddress : String := ""
  validatorSig : List UInt8 := []
  deriving DecidableEq

structure TxReceipt where
  txHash : String := ""
  blockHash : String := ""
  blockNumber : UInt64 := 0
  gasUsed : UInt64 := 0
  status : UInt64 := 0
  cumulativeGas : UInt64 := 0
  deriving DecidableEq

structure BlockBody where
  transactions : PatriciaTrie := .new
  receipts : List TxReceipt := []

/-- A block. `hash` and `originalHash` are not part of its encodings and may be empty. -/
structure Block where
  header : BlockHeader := {}
  body : BlockBody := {}
  hash : String := ""
  originalHash : String := ""
  cumulativeDifficulty : UInt64 := 0

/-- The text `%v` prints for a byte slice. -/
def bytesText (bs : List UInt8) : String :=
  "[" ++ String.intercalate " " (bs.map fun b => toString b.toNat) ++ "]"

/-- The text that the hash of a header covers. An empty `ExtraData` prints as the empty list that
`bytesText` gives as well. -/
def hashInput (header : BlockHeader) : String :=
  toString header.version.toNat ++ "|" ++ toString header.blockNumber.toNat ++ "|" ++
    header.previousHash ++ "|" ++ toString header.timestamp ++ "|" ++ header.merkleRoot ++ "|" ++
    header.stateRoot ++ "|" ++ header.receiptsRoot ++ "|" ++ toString header.nonce.toNat ++ "|" ++
    toString header.gasUsed.toNat ++ "|" ++ toString header.difficulty.toNat ++ "|" ++
    toString header.gasLimit.toNat ++ "|" ++ header.minedBy ++ "|" ++ bytesText header.extraData

/-- `calculateHash`; `Block.CalculateHash` has the same body. -/
def calculateHash (C : Crypto) (header : BlockHeader) : String :=
  C.hashHex (Text.bytes (hashInput header))

namespace Block

/-- `Block.Hash`: the remembered hash, or else the hash of the header. -/
def getHash (C : Crypto) (block : Block) : String :=
  if block.originalHash ≠ "" then block.originalHash else calculateHash C block.header

/-- The block after a call of `Block.Hash`, which remembers what it computes. -/
def rememberHash (C : Crypto) (block : Block) : Block :=
  if block.originalHash ≠ "" then block
  else
    { block with
      originalHash := calculateHash C block.header
      hash := calculateHash C block.header }

variable (C : Crypto) (block : Block)

@[simp] lemma header_rememberHash :
    (block.rememberHash C).header = block.header := by
  unfold rememberHash
  split_ifs <;> rfl

@[simp] lemma body_rememberHash :
    (block.rememberHash C).body = block.body := by
  unfold rememberHash
  split_ifs <;> rfl

lemma getHash_ne_empty : block.getHash C ≠ "" := by
  unfold getHash
  split_ifs with h
  · exact h
  · exact C.hashHex_ne_empty _

/-- The transactions of a block, as `GetAllTransactions` lists them. -/
def transactions (block : Block) : List Transaction := block.body.transactions.getAllTransactions

end Block

namespace UTXOPool

/-- `ProcessBlockTransactions`: apply the transactions, take a snapshot every hundred blocks, and
persist the outputs. -/
def processBlockTransactions (C : Crypto) (pool : UTXOPool) (host : Host) (block : Block)
    (now : ℤ) : (UTXOPool × Host) × Except String Unit :=
  let number := block.header.blockNumber
  let (pool, host) := pool.applyTransactions C host block.transactions number now
  let host :=
    if number % 100 = 0 ∨ number = 0 then
      host.createSnapshot pool number (block.getHash C) now
    else host
  let (host, err) := host.saveState pool.utxos
  ((pool, host), err)

end UTXOPool

@[simp] lemma Host.accountManager_saveState (host : Host) (utxos : KeyedLog.Store String UTXO) :
    (host.saveState utxos).1.accountManager = host.accountManager := by
  unfold Host.saveState
  split_ifs <;> rfl

@[simp] lemma Host.accountManager_createSnapshot (host : Host) (pool : UTXOPool) (h : UInt64)
    (hash : String) (now : ℤ) :
    (host.createSnapshot pool h hash now).accountManager = host.accountManager := by
  unfold Host.createSnapshot
  split_ifs <;> rfl

namespace UTXOPool

variable (C : Crypto) (pool : UTXOPool) (host : Host) (block : Block) (now : ℤ)

lemma processBlockTransactions_pool : (pool.processBlockTransactions C host block now).1.1 =
      (pool.applyTransactions C host block.transactions block.header.blockNumber now).1 := rfl

/-- **The outputs after a block**: the logs of its transactions, in the order listed. -/
theorem utxos_processBlockTransactions :
    (pool.processBlockTransactions C host block now).1.1.utxos =
      KeyedLog.run UTXO.markSpent pool.utxos
        (block.transactions.flatMap (Transaction.events block.header.blockNumber)) := by
  rw [processBlockTransactions_pool, utxos_applyTransactions]

@[simp] lemma node_processBlockTransactions :
    (pool.processBlockTransactions C host block now).1.1.node = pool.node := by
  rw [processBlockTransactions_pool, node_applyTransactions]

lemma accountManager_processBlockTransactions :
    (pool.processBlockTransactions C host block now).1.2.accountManager =
      (pool.applyTransactions C host block.transactions block.header.blockNumber
        now).2.accountManager := by
  simp only [processBlockTransactions, Host.accountManager_saveState]
  split_ifs
  · rw [Host.accountManager_createSnapshot]
  · rfl

end UTXOPool

end HybridChain
