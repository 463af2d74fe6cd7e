import HybridChain.Mempool
import HybridChain.Lib.Run

/-!
# The supply of tokens

The supply is the sum of all unspent outputs. Admission compares the inputs with the declared amount
and never looks at the outputs.

## Main definitions

* `supply`, `AddCall`, `step`
* `Conserving`: a call that adds no more than it takes

## Main results

* `supply_antitone_iff`: when the supply never grows
-/

namespace HybridChain

open KeyedLog (Store)

def UTXO.unspentAmount (utxo : UTXO) : ℚ := if utxo.spent then 0 else utxo.amount

def UTXOPool.supply (pool : UTXOPool) : ℚ :=
  KeyedLog.total (fun _ utxo => utxo.unspentAmount) pool.utxos

def Transaction.outputTotal (tx : Transaction) : ℚ := (tx.outputs.map TransactionOutput.amount).sum

namespace Supply

def unspentAt (utxos : Store String UTXO) (key : String) : ℚ :=
  KeyedLog.weight (fun _ utxo => utxo.unspentAmount) utxos key

/-- What the inputs of a transaction hold, each output counted once. -/
def consumed (utxos : Store String UTXO) (tx : Transaction) : ℚ :=
  ∑ key ∈ tx.inputKeys.toFinset, Mempool.amountAt utxos key

/-- The unspent amounts under the keys a transaction writes, apart from its own inputs. -/
def overwritten (utxos : Store String UTXO) (tx : Transaction) : ℚ :=
  ∑ key ∈ tx.outputKeys.toFinset with key ∉ tx.inputKeys, unspentAt utxos key

/-- The outputs of a transaction do not exceed what it takes out of the supply. -/
def Conserving (utxos : Store String UTXO) (tx : Transaction) : Prop :=
  tx.outputTotal ≤ consumed utxos tx + overwritten utxos tx

instance (utxos : Store String UTXO) (tx : Transaction) : Decidable (Conserving utxos tx) :=
  inferInstanceAs (Decidable (_ ≤ _))

end Supply

namespace Transaction

lemma map_unspentAmount_created (tx : Transaction) (h : UInt64) :
    ((tx.created h).map fun e => e.2.unspentAmount) = tx.outputs.map TransactionOutput.amount := by
  conv_rhs => rw [← List.zipIdx_map_fst 0 tx.outputs, List.map_map]
  rw [created, List.map_map]
  rfl

end Transaction

/-- **The exact change of the supply** by one transaction that is not a system transaction. -/
theorem UTXOPool.supply_addUTXO (C : Crypto) (pool : UTXOPool) (host : Host) (tx : Transaction)
    (h : UInt64) (now : ℤ) (hsys : tx.isSystem = false) : (pool.addUTXO C host tx h now).1.supply =
      pool.supply - ∑ key ∈ tx.inputKeys.toFinset, Supply.unspentAt pool.utxos key +
        tx.outputTotal - Supply.overwritten pool.utxos tx := by
  have hspent : tx.spentKeys = tx.inputKeys := by simp [Transaction.spentKeys, hsys]
  have hrepl : tx.replaced (fun _ utxo => utxo.unspentAmount) pool.utxos =
      ∑ key ∈ tx.inputKeys.toFinset, Supply.unspentAt pool.utxos key +
        Supply.overwritten pool.utxos tx := by
    rw [Transaction.replaced, hspent]
    rfl
  rw [supply, utxos_addUTXO, Transaction.total_run_events fun _ _ => rfl, hrepl,
    tx.map_unspentAmount_created, supply, Transaction.outputTotal]
  ring

namespace Supply

variable {verify : Transaction → Bool}

/-- The inputs of an accepted transaction are unspent, so they are taken out of the supply with
their whole amounts. -/
lemma sum_unspentAt_eq_consumed {utxos : Store String UTXO}
    {tx : Transaction} (h : Mempool.Accepted verify tx utxos) :
    ∑ key ∈ tx.inputKeys.toFinset, unspentAt utxos key = consumed utxos tx := by
  refine Finset.sum_congr rfl fun key hkey => ?_
  obtain ⟨input, hinput, rfl⟩ := List.mem_map.mp (List.mem_toFinset.mp hkey)
  obtain ⟨utxo, hlook, -, hsp⟩ := h.inputs input hinput
  simp [unspentAt, KeyedLog.weight, Mempool.amountAt, UTXO.unspentAmount, hlook, hsp]

/-! ## Runs -/

/-- One call of `AddUTXO`. -/
structure AddCall where
  tx : Transaction
  blockHeight : UInt64
  now : ℤ

/-- The effect of one call on a pool and what it shares. -/
def step (C : Crypto) (s : UTXOPool × Host) (call : AddCall) : UTXOPool × Host :=
  s.1.addUTXO C s.2 call.tx call.blockHeight call.now

/-- The call applies a transaction that is not a system transaction and that the mempool accepts
against the outputs it is applied to. -/
def AcceptedCall (verify : Transaction → Bool) (s : UTXOPool × Host) (call : AddCall) : Prop :=
  call.tx.isSystem = false ∧ Mempool.validateTransaction verify call.tx s.1.utxos = true

instance (verify : Transaction → Bool) (s : UTXOPool × Host) (call : AddCall) :
    Decidable (AcceptedCall verify s call) :=
  inferInstanceAs (Decidable (_ ∧ _))

lemma supply_step_le_iff (C : Crypto) {s : UTXOPool × Host}
    {call : AddCall} (h : AcceptedCall verify s call) :
    (step C s call).1.supply ≤ s.1.supply ↔ Conserving s.1.utxos call.tx := by
  have hacc := Mempool.Accepted.of_validateTransaction h.1 h.2
  rw [step, UTXOPool.supply_addUTXO _ _ _ _ _ _ h.1, sum_unspentAt_eq_consumed hacc, Conserving]
  constructor <;> intro hle <;> linarith

/-- **The supply never grows along accepted transactions exactly when each of them is
conserving** with respect to the pool it is applied to. -/
theorem supply_antitone_iff (C : Crypto) (verify : Transaction → Bool) (s : UTXOPool × Host)
    (calls : List AddCall) (h : Run.Along (step C) (AcceptedCall verify) s calls) :
    ((List.scanl (step C) s calls).Pairwise fun s t => t.1.supply ≤ s.1.supply) ↔
      Run.Along (step C) (fun s call => Conserving s.1.utxos call.tx) s calls := by
  rw [Run.pairwise_scanl_iff fun hab hbc => hbc.trans hab]
  exact Run.Along.congr (fun _ _ hacc => supply_step_le_iff C hacc) h

def tenTokens : UTXOPool where
  utxos := Finmap.singleton "genesis-0"
    { transactionID := "genesis", outputIndex := 0, amount := 10, owner := "alice" }

def spendTen (outputs : List TransactionOutput) : Transaction where
  transactionID := "t"
  sender := "alice"
  receiver := "bob"
  amount := 1
  gasLimit := 21000
  gasPrice := 10
  inputs := [{ transactionID := "genesis", outputIndex := 0 }]
  outputs := outputs

theorem supply_antitone_change :
    Run.Along (step Crypto.sample) (AcceptedCall fun _ => true) (tenTokens, {})
        [⟨spendTen [⟨"bob", 1, ""⟩, ⟨"alice", 9, ""⟩], 1, 0⟩] ∧
      (List.scanl (step Crypto.sample) (tenTokens, {})
        [⟨spendTen [⟨"bob", 1, ""⟩, ⟨"alice", 9, ""⟩], 1, 0⟩]).Pairwise
        fun s t => t.1.supply ≤ s.1.supply :=
  (and_iff_left_of_imp fun h => (supply_antitone_iff _ _ _ _ h).mpr (by decide +kernel)).mpr
    (by decide +kernel)

/-- An output of a thousand tokens out of ten: the mempool accepts the transaction, and the
supply grows from 10 to 1000. -/
theorem supply_inflated_by_outputs : (spendTen [⟨"bob", 1000, ""⟩]).isSystem = false ∧
      Mempool.validateTransaction (fun _ => true) (spendTen [⟨"bob", 1000, ""⟩])
        tenTokens.utxos = true ∧ tenTokens.supply = 10 ∧
      (tenTokens.addUTXO Crypto.sample {} (spendTen [⟨"bob", 1000, ""⟩]) 1 0).1.supply = 1000 := by
  refine ⟨rfl, ?_, ?_, ?_⟩ <;> decide +kernel

end Supply

end HybridChain
