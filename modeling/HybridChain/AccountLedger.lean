import HybridChain.AccountEffect
import HybridChain.Supply

/-!
# Account balances and the outputs behind them

Balances are kept twice: as a field of every account, and as the sum of the unspent outputs of an
address. A payment is debited without its change, which is credited again.

## Main definitions

* `InStep`: the two balances agree
* `surplus`: by how much a payment sets them apart

## Main results

* `in_step_forever_iff`: when they agree along a run
-/

namespace HybridChain

open List
open KeyedLog (Store run total weight)
open Mempool (amountAt)
open Supply (consumed tenTokens)
open Transaction (debited debits outputTotal received)
open Crypto (sample)

/-- What an output adds to the balance of an address. -/
def UTXO.availableTo (address : String) (utxo : UTXO) : ℚ :=
  if utxo.owner = address ∧ ¬ utxo.spent then utxo.amount else 0

/-- The sum of the outputs of a transaction but the first. -/
def Transaction.change (tx : Transaction) : ℚ := (tx.outputs.tail.map TransactionOutput.amount).sum

namespace Ledger

/-- Every account balance is the sum of the unspent outputs of its address. -/
def InStep (s : UTXOPool × Host) : Prop :=
  ∃ am, s.1.linkedManager s.2 = some am ∧ ∀ address, (am.view address).balance =
    s.1.getBalance address

/-- A payment that conserves value: its inputs are unspent outputs of the sender and add up to its
outputs and its fee; the first output pays the receiver, the others return change. -/
structure ValueConserving (utxos : Store String UTXO) (tx : Transaction) : Prop where
  regular : tx.isSystem = false
  inputs : ∀ input ∈ tx.inputs, ∃ utxo, Mempool.Spendable utxos tx.sender input.key utxo
  balanced : (tx.inputKeys.map (amountAt utxos)).sum = tx.outputTotal + tx.gasFee
  pays : ∃ script change, tx.outputs = ⟨tx.receiver, tx.amount, script⟩ :: change ∧
    ∀ output ∈ change, output.receiver = tx.sender

/-- What inputs listed more than once add to the sum of the inputs. -/
def repeated (utxos : Store String UTXO) (tx : Transaction) : ℚ :=
  (tx.inputKeys.map (amountAt utxos)).sum - consumed utxos tx

/-- The unspent outputs of an address that a transaction writes over. -/
def overwrittenOf (utxos : Store String UTXO) (address : String) (tx : Transaction) : ℚ :=
  ∑ key ∈ tx.outputKeys.toFinset with key ∉ tx.inputKeys,
    weight (fun _ utxo => utxo.availableTo address) utxos key

/-- What a value-conserving payment takes out of the outputs of an address beyond what it takes out
of its account: the change, less repeated inputs, plus the payment if there is no sender to debit,
and the outputs written over. -/
def surplus (address : String) (utxos : Store String UTXO) (tx : Transaction) : ℚ :=
  (if tx.sender = address then
    tx.change - repeated utxos tx + if tx.sender = "" then tx.amount + tx.gasFee else 0
  else 0) + overwrittenOf utxos address tx

def applied (h : UInt64) (utxos : Store String UTXO) (tx : Transaction) : Store String UTXO :=
  run UTXO.markSpent utxos (tx.events h)

/-- The sum of a quantity along a list of transactions, each read at the outputs it is applied
to. -/
def sumAlong (h : UInt64) (g : Store String UTXO → Transaction → ℚ) :
    Store String UTXO → List Transaction → ℚ
  | _, [] => 0
  | utxos, tx :: txs => g utxos tx + sumAlong h g (applied h utxos tx) txs

/-- A call whose transactions conserve value, each with respect to the outputs it is applied
to. -/
def ConservingCall (C : Crypto) (s : UTXOPool × Host) (call : LedgerCall) : Prop := call.Built C ∧
    Run.Along (applied call.height) ValueConserving s.1.utxos call.transactions

/-! ## The outputs -/

variable {utxos : Store String UTXO} {tx : Transaction} (a : String)

lemma total_run_availableTo (h : UInt64) (utxos : Store String UTXO) (txs : List Transaction) :
    total (fun _ utxo => UTXO.availableTo a utxo)
        (run UTXO.markSpent utxos (txs.flatMap (Transaction.events h))) =
      total (fun _ utxo => UTXO.availableTo a utxo) utxos + (txs.map (received a)).sum -
        sumAlong h (fun utxos tx => tx.replaced (fun _ utxo => utxo.availableTo a) utxos) utxos
          txs := by
  have hcreated : ∀ tx : Transaction,
      ((tx.created h).map fun e => e.2.availableTo a).sum = tx.received a := by
    intro tx
    rw [received]
    conv_rhs => rw [← zipIdx_map_fst 0 tx.outputs, map_map]
    rw [Transaction.created, map_map]
    congr 1
    apply map_congr_left
    intro x _
    simp [UTXO.availableTo, Transaction.newUTXO]
  induction txs generalizing utxos with
  | nil => simp [sumAlong]
  | cons tx txs ih =>
    rw [flatMap_cons, KeyedLog.run_append, ih, sumAlong, map_cons, sum_cons,
      Transaction.total_run_events fun _ _ => by simp [UTXO.availableTo], hcreated]
    simp only [applied]
    ring

/-! ## One call -/

variable (C : Crypto) {s : UTXOPool × Host} {call : LedgerCall}

lemma balance_step (hbuilt : call.Built C) {am : AccountManager}
    (ham : s.1.linkedManager s.2 = some am) :
    ∃ am', (step C s call).1.linkedManager (step C s call).2 = some am' ∧
      ∀ a, (am'.view a).balance = (am.view a).balance + (call.transactions.map (received a)).sum -
        (call.transactions.map (debited a)).sum := by
  cases call with
  | addUTXO tx h now =>
    refine ⟨_, by rw [step, UTXOPool.linkedManager_addUTXO, ham, Option.map_some], fun a => ?_⟩
    have huniq : ∀ c ∈ [tx], ∀ t ∈ [tx], c.transactionID = t.transactionID → c = t := by simp
    have hcredit := sum_amountAt_keysOf h huniq s.1.utxos a
    rw [flatMap_singleton, flatMap_singleton, ← UTXOPool.utxos_addUTXO C s.1 s.2 tx h now]
      at hcredit
    rw [AccountManager.view_recordTransaction, AccountState.balance_afterTransaction, hcredit]
    simp [LedgerCall.transactions]
  | processBlock block now =>
    refine ⟨_, by rw [step, UTXOPool.linkedManager_processBlockTransactions, ham, Option.map_some],
      fun a => ?_⟩
    have huniq : ∀ c ∈ block.transactions, ∀ t ∈ block.transactions,
        c.transactionID = t.transactionID → c = t :=
      fun c hc t ht => hbuilt.eq_of_transactionID_eq hc ht
    have hcredit := sum_amountAt_keysOf block.header.blockNumber huniq s.1.utxos a
    rw [← UTXOPool.utxos_processBlockTransactions C s.1 s.2 block now] at hcredit
    rw [AccountManager.view_recordBlock, AccountState.balance_afterBlock, hcredit]
    simp only [LedgerCall.transactions]
    ring

/-- **A call keeps the ledgers in step exactly when it takes the same from both**, at every
address. -/
theorem inStep_step_iff (hbuilt : call.Built C) (hs : InStep s) : InStep (step C s call) ↔ ∀ a,
      sumAlong call.height (fun utxos tx => tx.replaced (fun _ utxo => utxo.availableTo a) utxos)
        s.1.utxos call.transactions =
      (call.transactions.map (debited a)).sum := by
  obtain ⟨am, ham, hbal⟩ := hs
  obtain ⟨am', ham', hbal'⟩ := balance_step C hbuilt ham
  have hget : ∀ a, (step C s call).1.getBalance a = s.1.getBalance a +
      (call.transactions.map (received a)).sum -
      sumAlong call.height (fun utxos tx => tx.replaced (fun _ utxo => utxo.availableTo a) utxos)
        s.1.utxos call.transactions := by
    intro a
    rw [UTXOPool.getBalance, utxos_step]
    exact total_run_availableTo a call.height s.1.utxos call.transactions
  constructor
  · rintro ⟨am'', ham'', heq⟩ a
    obtain rfl : am' = am'' := Option.some.inj (ham'.symm.trans ham'')
    have := heq a
    rw [hbal', hget, hbal] at this
    linarith
  · intro heq
    refine ⟨am', ham', fun a => ?_⟩
    rw [hbal', hget, hbal, heq]

/-! ## Value-conserving payments -/

lemma ValueConserving.replaced_eq (h : ValueConserving utxos tx) (a : String) :
    tx.replaced (fun _ utxo => utxo.availableTo a) utxos =
      (if tx.sender = a then consumed utxos tx else 0) + overwrittenOf utxos a tx := by
  have hspent : tx.spentKeys = tx.inputKeys := by simp [Transaction.spentKeys, h.regular]
  have hweight : ∀ key ∈ tx.inputKeys.toFinset,
      weight (fun _ utxo => UTXO.availableTo a utxo) utxos key =
        if tx.sender = a then amountAt utxos key else 0 := by
    intro key hkey
    obtain ⟨input, hinput, rfl⟩ := mem_map.mp (mem_toFinset.mp hkey)
    obtain ⟨utxo, hlook, howner, hunspent⟩ := h.inputs input hinput
    simp [weight, hlook, UTXO.availableTo, howner, hunspent, amountAt]
  rw [Transaction.replaced, hspent, Finset.sum_congr rfl hweight, overwrittenOf]
  congr 1
  by_cases ha : tx.sender = a
  · simp only [if_pos ha, consumed]
  · simp only [if_neg ha, Finset.sum_const_zero]

/-- **The surplus is what a payment takes out of the outputs beyond the debit.** -/
lemma ValueConserving.surplus_eq (h : ValueConserving utxos tx) (a : String) : surplus a utxos tx =
      tx.replaced (fun _ utxo => utxo.availableTo a) utxos - tx.debited a := by
  have hinputs := h.balanced
  obtain ⟨script, change, houtputs, -⟩ := h.pays
  have htotal : tx.outputTotal = tx.amount + tx.change := by
    simp [outputTotal, Transaction.change, houtputs]
  rw [h.replaced_eq, surplus, repeated, hinputs, htotal]
  by_cases ha : tx.sender = a
  · by_cases hempty : tx.sender = ""
    · have hdebited : tx.debited a = 0 := by simp [debited, debits, hempty]
      rw [if_pos ha, if_pos ha, if_pos hempty, hdebited]
      ring
    · have hdebited : tx.debited a = tx.amount + tx.gasFee := by
        rw [← ha]
        simp [debited, debits, h.regular, hempty]
      rw [if_pos ha, if_pos ha, if_neg hempty, hdebited]
      ring
  · have hdebited : tx.debited a = 0 := by simp [debited, debits, ha]
    rw [if_neg ha, if_neg ha, hdebited]
    ring

lemma sumAlong_surplus (h : UInt64)
    {txs : List Transaction} (hcons : Run.Along (applied h) ValueConserving utxos txs) :
    sumAlong h (surplus a) utxos txs =
      sumAlong h (fun utxos tx => tx.replaced (fun _ utxo => utxo.availableTo a) utxos) utxos txs -
        (txs.map (debited a)).sum := by
  induction txs generalizing utxos with
  | nil => simp [sumAlong]
  | cons tx txs ih =>
    rw [sumAlong, sumAlong, ih hcons.2, hcons.1.surplus_eq, map_cons, sum_cons]
    ring

/-- **Account ledger and outputs stay in step along value-conserving calls exactly when the
surpluses of each call cancel at every address.**

**Proof sketch.** Credits add the same to both ledgers, so a call keeps them in step exactly when it
takes the same from both; for value-conserving payments the difference is the surplus. -/
theorem in_step_forever_iff (C : Crypto) (s : UTXOPool × Host) (calls : List LedgerCall)
    (hs : InStep s) (hcons : Run.Along (step C) (ConservingCall C) s calls) :
    (∀ t ∈ List.scanl (step C) s calls, InStep t) ↔ Run.Along (step C) (fun s call => ∀ address,
          sumAlong call.height (surplus address) s.1.utxos call.transactions = 0) s calls := by
  refine Run.forall_mem_scanl_iff (fun s call hs hcall => ?_) hs hcons
  rw [inStep_step_iff C hcall.1 hs]
  refine forall_congr' fun a => ?_
  rw [sumAlong_surplus a call.height hcall.2, sub_eq_zero]

def tenTokensLinked : UTXOPool × Host := ({ tenTokens with node := true },
    { accountManager := some
        { accounts := Finmap.singleton "alice" { address := "alice", balance := 10 }
          stored := ∅ } })

lemma inStep_tenTokensLinked : InStep tenTokensLinked := by
  refine ⟨_, rfl, fun a => ?_⟩
  by_cases ha : a = "alice"
  · subst ha
    decide +kernel
  · have hlookup : (Finmap.singleton "alice" ({ address := "alice", balance := 10 } :
        AccountState) : Store String AccountState).lookup a = none := by
      simp [Finmap.lookup_eq_none, ha]
    rw [AccountManager.view_eq, hlookup, UTXOPool.getBalance]
    simp [AccountManager.loadAccountState, tenTokensLinked, tenTokens, total,
      Finmap.singleton, Ne.symm ha]

def payFromTen (amount : ℚ) (outputs : List TransactionOutput) : Transaction where
  transactionID := "t"
  sender := "alice"
  receiver := "bob"
  amount := amount
  gasFee := 1
  inputs := [{ transactionID := "genesis", outputIndex := 0 }]
  outputs := outputs

lemma valueConserving_payFromTen {amount : ℚ} {change : List TransactionOutput}
    (hchange : ∀ output ∈ change, output.receiver = "alice")
    (htotal : (change.map TransactionOutput.amount).sum = 9 - amount) :
    ValueConserving tenTokens.utxos (payFromTen amount (⟨"bob", amount, ""⟩ :: change)) where
  regular := rfl
  inputs := by
    intro input hinput
    obtain rfl : input = { transactionID := "genesis", outputIndex := 0 } := by
      simpa [payFromTen] using hinput
    exact ⟨{ transactionID := "genesis", outputIndex := 0, amount := 10, owner := "alice" },
      by decide +kernel, rfl, rfl⟩
  balanced := by
    have hten : amountAt tenTokens.utxos
        (TransactionInput.key { transactionID := "genesis", outputIndex := 0 }) = 10 := by
      decide +kernel
    simp [Transaction.inputKeys, payFromTen, hten, outputTotal, htotal]
    ring
  pays := ⟨"", change, rfl, hchange⟩

theorem in_step_without_change : InStep tenTokensLinked ∧
      ∀ t ∈ List.scanl (step sample) tenTokensLinked
        [.addUTXO (payFromTen 9 [⟨"bob", 9, ""⟩]) 1 0], InStep t := by
  have hcons : Run.Along (step sample) (ConservingCall sample) tenTokensLinked
      [.addUTXO (payFromTen 9 [⟨"bob", 9, ""⟩]) 1 0] :=
    ⟨⟨trivial, valueConserving_payFromTen (by simp) (by norm_num), trivial⟩, trivial⟩
  refine ⟨inStep_tenTokensLinked, (in_step_forever_iff _ _ _ inStep_tenTokensLinked hcons).mpr
    ⟨fun a => ?_, trivial⟩⟩
  have hrepeated : repeated tenTokens.utxos (payFromTen 9 [⟨"bob", 9, ""⟩]) = 0 := by
    decide +kernel
  have hover : overwrittenOf tenTokens.utxos a (payFromTen 9 [⟨"bob", 9, ""⟩]) = 0 := by
    refine Finset.sum_eq_zero fun key hkey => ?_
    obtain rfl : key = "t-0" := by
      have hmem : key ∈ (payFromTen 9 [⟨"bob", 9, ""⟩]).outputKeys :=
        mem_toFinset.mp (Finset.mem_filter.mp hkey).1
      rw [show (payFromTen 9 [⟨"bob", 9, ""⟩]).outputKeys = ["t-0"] by decide +kernel] at hmem
      exact mem_singleton.mp hmem
    have hnone : tenTokens.utxos.lookup "t-0" = none := by decide +kernel
    simp [weight, hnone]
  have hsurplus : surplus a tenTokens.utxos (payFromTen 9 [⟨"bob", 9, ""⟩]) = 0 := by
    rw [surplus, hover, hrepeated]
    simp [Transaction.change, payFromTen]
  simp [sumAlong, LedgerCall.transactions, tenTokensLinked, hsurplus]

/-- Three tokens to the receiver, six back to the sender, one for the fee: the payment conserves
value, and afterwards the account of the sender has twelve tokens while its outputs hold six. -/
theorem account_exceeds_outputs_by_change : InStep tenTokensLinked ∧
      ValueConserving tenTokensLinked.1.utxos (payFromTen 3 [⟨"bob", 3, ""⟩, ⟨"alice", 6, ""⟩]) ∧
      (step sample tenTokensLinked (.addUTXO
        (payFromTen 3 [⟨"bob", 3, ""⟩, ⟨"alice", 6, ""⟩]) 1 0)).1.getBalance "alice" = 6 ∧
      ((step sample tenTokensLinked (.addUTXO
        (payFromTen 3 [⟨"bob", 3, ""⟩, ⟨"alice", 6, ""⟩]) 1 0)).1.linkedManager
        (step sample tenTokensLinked (.addUTXO
          (payFromTen 3 [⟨"bob", 3, ""⟩, ⟨"alice", 6, ""⟩]) 1 0)).2).map
        (fun am => (am.view "alice").balance) = some 12 :=
  ⟨inStep_tenTokensLinked, valueConserving_payFromTen (by simp) (by norm_num), by decide +kernel,
    by decide +kernel⟩

end Ledger

end HybridChain
