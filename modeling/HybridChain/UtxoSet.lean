import HybridChain.Utxo

/-!
# A plain map of outputs

`UpdateUTXOSet` of `utxo.go` applies a transaction to a plain map of outputs: it deletes the outputs
that are spent, where `AddUTXO` sets their flag.

Nothing is assumed about the transactions, so keys may be created again and inputs may be missing.

## Main definitions

* `updateUTXOSet`, `UTXOPool.unspent`

## Main results

* `updateUTXOSet_foldl_eq_unspent`: the map is the unspent part of the pool
-/

namespace HybridChain

open List
open KeyedLog (Store Event mapValues runErase)

/-! ## The procedure -/

namespace Transaction

/-- The output that `UpdateUTXOSet` creates at an index. It has no height and no time. -/
def plainUTXO (tx : Transaction) (output : TransactionOutput) (i : ℕ) : UTXO where
  transactionID := tx.transactionID
  outputIndex := i
  owner := output.receiver
  amount := output.amount
  scriptPubKey := output.scriptPubKey

end Transaction

/-- `UpdateUTXOSet`: delete the inputs of other than system transactions, then write the outputs. -/
def updateUTXOSet (tx : Transaction) (utxoSet : Store String UTXO) : Store String UTXO :=
  let utxoSet := tx.spentKeys.foldl (fun utxoSet key => utxoSet.erase key) utxoSet
  tx.outputs.zipIdx.foldl (fun utxoSet (output, i) =>
      utxoSet.insert (utxoKey tx.transactionID i) (tx.plainUTXO output i))
    utxoSet

/-! ## What both representations have -/

/-- The fields of an output that both procedures fill in. -/
structure UTXOEntry where
  transactionID : String
  outputIndex : ℤ
  owner : String
  amount : ℚ
  scriptPubKey : String
  deriving DecidableEq

def UTXO.entry (utxo : UTXO) : UTXOEntry where
  transactionID := utxo.transactionID
  outputIndex := utxo.outputIndex
  owner := utxo.owner
  amount := utxo.amount
  scriptPubKey := utxo.scriptPubKey

def UTXOPool.unspent (pool : UTXOPool) : Store String UTXO :=
  KeyedLog.filterValues (fun utxo => !utxo.spent) pool.utxos

namespace Transaction

/-- The log of a transaction for a plain map. -/
def plainEvents (tx : Transaction) : List (Event String UTXO) :=
  tx.spentKeys.map .mark ++ tx.outputs.zipIdx.map fun (output, i) =>
    .put (utxoKey tx.transactionID i) (tx.plainUTXO output i)

lemma map_entry_plainEvents (tx : Transaction) (blockHeight : UInt64) :
    tx.plainEvents.map (Event.map UTXO.entry) =
      (tx.events blockHeight).map (Event.map UTXO.entry) := by
  rw [plainEvents, events, created, map_append, map_append, map_map, map_map, map_map, map_map]
  rfl

end Transaction

lemma updateUTXOSet_eq (tx : Transaction) (utxoSet : Store String UTXO) :
    updateUTXOSet tx utxoSet = runErase utxoSet tx.plainEvents := by
  rw [Transaction.plainEvents, runErase, foldl_append, foldl_map, foldl_map]
  rfl

/-- **The unspent part of a pool** is changed by `AddUTXO` as if spent outputs were deleted. -/
lemma UTXOPool.unspent_addUTXO (C : Crypto) (pool : UTXOPool) (host : Host) (tx : Transaction)
    (blockHeight : UInt64) (now : ℤ) : (pool.addUTXO C host tx blockHeight now).1.unspent =
      runErase pool.unspent (tx.events blockHeight) := by
  rw [unspent, utxos_addUTXO]
  refine KeyedLog.filterValues_run _ (fun _ => rfl) _ fun key utxo hput => ?_
  have hspent := Transaction.spent_of_mem_created (Transaction.put_mem_events.mp hput)
  simpa using hspent

/-- **The two representations agree**: a plain map with the unspent part of a pool still has it
after any transactions, each applied to the map with `UpdateUTXOSet` and to the pool with `AddUTXO`.
-/
theorem updateUTXOSet_foldl_eq_unspent (C : Crypto) (txs : List (Transaction × UInt64 × ℤ))
    {utxoSet : Store String UTXO} {pool : UTXOPool} (host : Host)
    (h : mapValues UTXO.entry utxoSet = mapValues UTXO.entry pool.unspent) : mapValues UTXO.entry
        (txs.foldl (fun utxoSet e => updateUTXOSet e.1 utxoSet) utxoSet) =
      mapValues UTXO.entry
        (txs.foldl (fun s e => s.1.addUTXO C s.2 e.1 e.2.1 e.2.2) (pool, host)).1.unspent := by
  induction txs generalizing utxoSet pool host with
  | nil => exact h
  | cons e txs ih =>
    obtain ⟨tx, blockHeight, now⟩ := e
    have hstep : mapValues UTXO.entry (updateUTXOSet tx utxoSet) =
        mapValues UTXO.entry (pool.addUTXO C host tx blockHeight now).1.unspent := by
      rw [updateUTXOSet_eq, UTXOPool.unspent_addUTXO, KeyedLog.mapValues_runErase,
        KeyedLog.mapValues_runErase, h, tx.map_entry_plainEvents blockHeight]
    exact ih _ hstep

def mintToken : Transaction where
  transactionID := "m"
  txType := TX_COINBASE
  outputs := [{ receiver := "a", amount := 1 }]

def passToken : Transaction where
  transactionID := "s"
  sender := "a"
  inputs := [{ transactionID := "m", outputIndex := 0 }, { transactionID := "x", outputIndex := 0 }]
  outputs := [{ receiver := "b", amount := 1 }]

theorem agree_mintToken_passToken : mapValues UTXO.entry
        ([(mintToken, 1, 0), (passToken, 2, 0), (mintToken, 3, 0)].foldl
          (fun utxoSet (e : Transaction × UInt64 × ℤ) => updateUTXOSet e.1 utxoSet) ∅) =
      mapValues UTXO.entry ([(mintToken, 1, 0), (passToken, 2, 0), (mintToken, 3, 0)].foldl
          (fun (s : UTXOPool × Host) (e : Transaction × UInt64 × ℤ) =>
            s.1.addUTXO Crypto.sample s.2 e.1 e.2.1 e.2.2) ({}, {})).1.unspent :=
  updateUTXOSet_foldl_eq_unspent Crypto.sample _ {} rfl

end HybridChain
