import HybridChain.Lib.StableSort
import HybridChain.Utxo

/-!
# The mempool

`mempool.go`: admission of transactions that wait to be mined.

The check of the signature is an argument: `Transaction.verifySignature` in the running chain.

## Main definitions

* `validateTransaction`, `addTransaction`
* `Outcome`: what an admission can do

## Main results

* `validateTransaction_iff`, `outcome_addTransaction`
-/

namespace HybridChain

open KeyedLog (Store)

structure Mempool where
  transactions : List Transaction := []
  maxSize : ℕ := 1000

namespace Mempool

/-- The comparison of two fees, `a.GasFee > b.GasFee`. -/
def outbids (a b : Transaction) : Bool := b.gasFee < a.gasFee

/-- `sort.SliceStable` by fee, highest first. -/
def sortByGasFee (txs : List Transaction) : List Transaction := StableSort.sliceStable outbids txs

variable (txs : List Transaction)

lemma sortByGasFee_perm : (sortByGasFee txs).Perm txs :=
  StableSort.sliceStable_perm _ _

/-- The loop of `ValidateTransaction` over the inputs, adding up what they hold; `none` is a
refusal. -/
def validateInputs (utxos : Store String UTXO) (sender : String) :
    List TransactionInput → ℚ → Option ℚ
  | [], inputSum => some inputSum
  | input :: inputs, inputSum =>
    match utxos.lookup input.key with
    | none => none
    | some utxo =>
      if utxo.owner ≠ sender then none
      else if utxo.spent then none
      else validateInputs utxos sender inputs (inputSum + utxo.amount)

/-- The checks on the shape of a staking transaction. -/
def stakeWellFormed (tx : Transaction) : Bool :=
  match tx.inputs, tx.outputs with
  | [], _ => false
  | _, [] => false
  | _, output :: _ => output.receiver == tx.sender

/-- What the inputs have to cover. The fee bound of other than staking transactions is a product
of `uint64` and wraps. -/
def totalRequired (tx : Transaction) : ℚ :=
  if tx.txType = TX_STAKE then tx.amount
  else tx.amount + convertGasToTokens (tx.gasLimit * tx.maxFeePerGas)

def validateTransaction (verify : Transaction → Bool) (tx : Transaction)
    (utxos : Store String UTXO) : Bool :=
  if tx.isCoinbase || tx.isValidatorReward then true
  else
    match tx.validateGas with
    | .error _ => false
    | .ok _ =>
      if tx.txType = TX_STAKE ∧ ¬ stakeWellFormed tx then false
      else
        match validateInputs utxos tx.sender tx.inputs 0 with
        | none => false
        | some inputSum =>
          if inputSum < totalRequired tx then false
          else if ¬ verify tx then false
          else true

/-- `AddTransaction`, for a given comparison of fees. -/
def addTransactionBy (above : Transaction → Transaction → Bool) (verify : Transaction → Bool)
    (m : Mempool) (tx : Transaction) (utxoSet : Store String UTXO) : Bool × Mempool :=
  if m.transactions.any fun existing => existing.transactionID == tx.transactionID then (false, m)
  else if ¬ validateTransaction verify tx utxoSet then (false, m)
  else if m.maxSize ≤ m.transactions.length then
    let sorted := StableSort.sliceStable above m.transactions
    match sorted.getLast? with
    -- a mempool of size zero would crash here; the constructor sets 1000
    | none => (false, m)
    | some lowest =>
      if above tx lowest then
        (true, { m with
          transactions := StableSort.sliceStable above (sorted.dropLast ++ [tx]) })
      else (false, { m with transactions := sorted })
  else (true, { m with transactions := StableSort.sliceStable above (m.transactions ++ [tx]) })

def addTransaction (verify : Transaction → Bool) (m : Mempool) (tx : Transaction)
    (utxoSet : Store String UTXO) : Bool × Mempool :=
  m.addTransactionBy outbids verify tx utxoSet

/-! ## What admission guarantees -/

/-- The unspent output of the sender behind an input. -/
def Spendable (utxos : Store String UTXO) (sender key : String) (utxo : UTXO) : Prop :=
  utxos.lookup key = some utxo ∧ utxo.owner = sender ∧ utxo.spent = false

/-- The amount that stands under a key, zero if there is none. -/
def amountAt (utxos : Store String UTXO) (key : String) : ℚ := ((utxos.lookup key).getD {}).amount

variable {verify : Transaction → Bool} {utxos : Store String UTXO} {tx : Transaction}

/-- The loop over the inputs succeeds exactly when every input is an unspent output of the
sender, and then adds up their amounts, an input listed twice being counted twice. -/
lemma validateInputs_eq_some {sender : String} {inputs : List TransactionInput} {acc sum : ℚ} :
    validateInputs utxos sender inputs acc = some sum ↔
      (∀ input ∈ inputs, ∃ utxo, Spendable utxos sender input.key utxo) ∧
        sum = acc + (inputs.map fun input => amountAt utxos input.key).sum := by
  induction inputs generalizing acc with
  | nil => simp [validateInputs, eq_comm]
  | cons input inputs ih =>
    unfold validateInputs
    cases hk : utxos.lookup input.key with
    | none => simp [Spendable, hk]
    | some utxo =>
      by_cases hown : utxo.owner = sender
      · cases hsp : utxo.spent with
        | true => simp [Spendable, hk, hsp]
        | false => simp [Spendable, hk, hown, hsp, ih, amountAt, add_assoc]
      · simp [Spendable, hk, hown]

/-- What holds of a transaction the mempool accepts, other than a system transaction. -/
structure Accepted (verify : Transaction → Bool) (tx : Transaction) (utxos : Store String UTXO) :
    Prop where
  gas : tx.validateGas = .ok ()
  stake : tx.txType = TX_STAKE → stakeWellFormed tx = true
  inputs : ∀ input ∈ tx.inputs, ∃ utxo, Spendable utxos tx.sender input.key utxo
  covered : totalRequired tx ≤ (tx.inputs.map fun input => amountAt utxos input.key).sum
  signed : verify tx = true

/-- **What an accepted transaction satisfies.** -/
theorem Accepted.of_validateTransaction (hsys : tx.isSystem = false)
    (h : validateTransaction verify tx utxos = true) : Accepted verify tx utxos := by
  unfold validateTransaction at h
  rw [if_neg (Transaction.isSystem_eq_false_iff.mp hsys)] at h
  cases hgas : tx.validateGas with
  | error e => simp [hgas] at h
  | ok u =>
    simp only [hgas] at h
    by_cases hstake : tx.txType = TX_STAKE ∧ ¬ stakeWellFormed tx
    · simp [hstake] at h
    rw [if_neg hstake] at h
    cases hin : validateInputs utxos tx.sender tx.inputs 0 with
    | none => simp [hin] at h
    | some inputSum =>
      obtain ⟨hinputs, hsum⟩ := validateInputs_eq_some.mp hin
      rw [zero_add] at hsum
      have hcov : ¬ inputSum < totalRequired tx := by
        intro hlt
        simp [hin, hlt] at h
      refine ⟨hgas, fun ht => ?_, hinputs, hsum ▸ not_lt.mp hcov, ?_⟩
      · by_contra hw
        exact hstake ⟨ht, hw⟩
      · simpa [hin, hcov] using h

/-- **When a transaction is accepted**, other than a system transaction. -/
theorem validateTransaction_iff (hsys : tx.isSystem = false) :
    validateTransaction verify tx utxos = true ↔ Accepted verify tx utxos := by
  refine ⟨.of_validateTransaction hsys, fun h => ?_⟩
  have hstake : ¬ (tx.txType = TX_STAKE ∧ ¬ stakeWellFormed tx) := fun ⟨ht, hw⟩ => hw (h.stake ht)
  have hin := validateInputs_eq_some.mpr ⟨h.inputs, (zero_add _).symm⟩
  unfold validateTransaction
  rw [if_neg (Transaction.isSystem_eq_false_iff.mp hsys)]
  simp only [h.gas, if_neg hstake, hin, if_neg (not_lt.mpr h.covered), h.signed, not_true_eq_false,
    if_false]

/-- The signature check is made on the transaction alone: if it passes, any check that passes does
the same. -/
lemma validateTransaction_of_verify (h : verify tx = true) (utxos : Store String UTXO) :
    validateTransaction verify tx utxos = validateTransaction (fun _ => true) tx utxos := by
  simp only [validateTransaction, h]

lemma addTransaction_of_verify (h : verify tx = true) (m : Mempool) (utxoSet : Store String UTXO) :
    m.addTransaction verify tx utxoSet = m.addTransaction (fun _ => true) tx utxoSet := by
  simp only [addTransaction, addTransactionBy, validateTransaction_of_verify h]

/-! ## What admission does -/

lemma ranks_sortByGasFee :
    StableSort.Ranks Transaction.gasFee txs (sortByGasFee txs) :=
  StableSort.ranks_sliceStable txs

lemma le_of_sortByGasFee_eq {txs others : List Transaction} {lowest : Transaction}
    (hsorted : sortByGasFee txs = others ++ [lowest]) : ∀ t ∈ txs, lowest.gasFee ≤ t.gasFee := by
  have hranks := ranks_sortByGasFee txs
  rw [hsorted] at hranks
  obtain ⟨-, -, -, hlow, -⟩ := hranks.dropLast
  exact hlow

/-- **The five ways out of `AddTransaction`**, with the answer and the new mempool. -/
inductive Outcome (verify : Transaction → Bool) (m : Mempool) (tx : Transaction)
    (utxoSet : Store String UTXO) : Bool × Mempool → Prop
  | refused (hno : ¬ ((∀ t ∈ m.transactions, t.transactionID ≠ tx.transactionID) ∧
      validateTransaction verify tx utxoSet = true)) : Outcome verify m tx utxoSet (false, m)
  | added (hnew : ∀ t ∈ m.transactions, t.transactionID ≠ tx.transactionID)
      (hval : validateTransaction verify tx utxoSet = true)
      (hroom : m.transactions.length < m.maxSize) :
      Outcome verify m tx utxoSet
        (true, { m with transactions := sortByGasFee (m.transactions ++ [tx]) })
  | sizeless (hfull : m.maxSize ≤ m.transactions.length) (hnil : m.transactions = []) :
      Outcome verify m tx utxoSet (false, m)
  | replaced (hnew : ∀ t ∈ m.transactions, t.transactionID ≠ tx.transactionID)
      (hval : validateTransaction verify tx utxoSet = true)
      (hfull : m.maxSize ≤ m.transactions.length) (others : List Transaction)
      (lowest : Transaction) (hsorted : sortByGasFee m.transactions = others ++ [lowest])
      (hfee : lowest.gasFee < tx.gasFee) :
      Outcome verify m tx utxoSet (true, { m with transactions := sortByGasFee (others ++ [tx]) })
  | outbid (hfull : m.maxSize ≤ m.transactions.length) (others : List Transaction)
      (lowest : Transaction) (hsorted : sortByGasFee m.transactions = others ++ [lowest])
      (hfee : tx.gasFee ≤ lowest.gasFee) :
      Outcome verify m tx utxoSet (false, { m with transactions := sortByGasFee m.transactions })

/-- **Every call of `AddTransaction` takes one of the five ways.** -/
theorem outcome_addTransaction (verify : Transaction → Bool) (m : Mempool) (tx : Transaction)
    (utxoSet : Store String UTXO) :
    Outcome verify m tx utxoSet (m.addTransaction verify tx utxoSet) := by
  unfold addTransaction addTransactionBy
  by_cases hknown : m.transactions.any fun existing => existing.transactionID == tx.transactionID
  · rw [if_pos hknown]
    refine .refused fun h => ?_
    obtain ⟨t, ht, heq⟩ := List.any_eq_true.mp hknown
    exact h.1 t ht (beq_iff_eq.mp heq)
  rw [if_neg hknown]
  have hnew : ∀ t ∈ m.transactions, t.transactionID ≠ tx.transactionID := by simpa using hknown
  by_cases hval : validateTransaction verify tx utxoSet = true
  swap
  · rw [if_pos hval]
    exact .refused fun h => hval h.2
  rw [if_neg (not_not_intro hval)]
  by_cases hfull : m.maxSize ≤ m.transactions.length
  swap
  · rw [if_neg hfull]
    exact .added hnew hval (not_le.mp hfull)
  rw [if_pos hfull]
  rw [← sortByGasFee]
  cases hlast : (sortByGasFee m.transactions).getLast? with
  | none =>
    have hperm := sortByGasFee_perm m.transactions
    rw [List.getLast?_eq_none_iff.mp hlast] at hperm
    simp only [hlast]
    exact .sizeless hfull hperm.symm.eq_nil
  | some lowest =>
    obtain ⟨others, hsorted⟩ := List.getLast?_eq_some_iff.mp hlast
    by_cases hfee : outbids tx lowest = true
    · simp only [hlast, if_pos hfee]
      rw [hsorted, List.dropLast_concat]
      exact .replaced hnew hval hfull others lowest hsorted (of_decide_eq_true hfee)
    · simp only [hlast, if_neg hfee]
      exact .outbid hfull others lowest hsorted (not_lt.mp fun hlt => hfee (decide_eq_true hlt))

/-- **What an admission can do.** Either the waiting transactions stay the same up to order, or
a validated transaction with a new identifier joins them, perhaps in place of another. -/
theorem addTransaction_cases (verify : Transaction → Bool) (m : Mempool) (tx : Transaction)
    (utxoSet : Store String UTXO) :
    (m.addTransaction verify tx utxoSet).2.transactions.Perm m.transactions ∨
      ((m.addTransaction verify tx utxoSet).2.transactions.Subperm (tx :: m.transactions) ∧
        (∀ t ∈ m.transactions, t.transactionID ≠ tx.transactionID) ∧
        validateTransaction verify tx utxoSet = true) := by
  have hout := outcome_addTransaction verify m tx utxoSet
  generalize m.addTransaction verify tx utxoSet = result at hout
  cases hout with
  | refused | sizeless => exact .inl (.refl _)
  | outbid => exact .inl (sortByGasFee_perm _)
  | added hnew hval =>
    refine .inr ⟨?_, hnew, hval⟩
    exact ((sortByGasFee_perm _).trans (List.perm_append_singleton tx _)).subperm
  | replaced hnew hval _ others lowest hsorted =>
    refine .inr ⟨?_, hnew, hval⟩
    refine ((sortByGasFee_perm _).trans (List.perm_append_singleton tx _)).subperm.trans ?_
    have hsub : others.Subperm (sortByGasFee m.transactions) := by
      rw [hsorted]
      exact (List.sublist_append_left _ _).subperm
    exact (List.subperm_cons tx).mpr (hsub.trans (sortByGasFee_perm _).subperm)

end Mempool

end HybridChain
