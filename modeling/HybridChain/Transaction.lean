import HybridChain.Crypto

/-!
# Transactions

`transaction.go` and `gas_conversion.go`: the transaction record, the text its hash and signature
cover, the gas checks, and the two transactions the chain makes itself.

Amounts and fees are exact rationals where the source has `float64`, `int` and `int64` are integers,
and `uint64` is `UInt64`.

## Main definitions

* `Transaction`, `hash`, `verifySignature`, `validateGas`
* `newCoinbaseTransaction`, `newValidatorRewardTransaction`

## Main results

* `validateGas_eq_ok_iff`: what the gas checks ask for
-/

namespace HybridChain

/-- A reference to the output that a transaction spends. -/
structure TransactionInput where
  transactionID : String
  outputIndex : ℤ
  signature : String := ""
  deriving DecidableEq

structure TransactionOutput where
  receiver : String
  amount : ℚ
  scriptPubKey : String := ""
  deriving DecidableEq

/-- A transaction, with every field of the source. -/
structure Transaction where
  transactionID : String
  sender : String := ""
  receiver : String := ""
  amount : ℚ := 0
  timestamp : ℤ := 0
  nonce : UInt64 := 0
  gasFee : ℚ := 0
  inputs : List TransactionInput := []
  outputs : List TransactionOutput := []
  txType : ℤ := 0
  gasLimit : UInt64 := 0
  gasPrice : UInt64 := 0
  gasUsed : UInt64 := 0
  priority : ℤ := 0
  maxFeePerGas : UInt64 := 0
  data : List UInt8 := []
  signature : String := ""
  senderPubKey : List UInt8 := []
  deriving DecidableEq

/-! ## Constants -/

def TX_REGULAR : ℤ := 0

def TX_COINBASE : ℤ := 1

def TX_VALIDATOR_REWARD : ℤ := 2

def TX_STAKE : ℤ := 3

def baseTxGas : UInt64 := 21000

def minGasPrice : UInt64 := 10

def maxGasPrice : UInt64 := 100

/-- The largest total fee, in tokens. -/
def maxTotalFee : ℚ := 2

/-- `ConvertGasToTokens`: a token is `10^8` gas units. -/
def convertGasToTokens (gasAmount : UInt64) : ℚ := gasAmount.toNat / 10 ^ 8

/-- `fmt.Sprintf("%s-%d", transactionID, outputIndex)`, the key of an output in every map of
outputs. -/
def utxoKey (transactionID : String) (outputIndex : ℤ) : String :=
  transactionID ++ "-" ++ toString outputIndex

lemma utxoKey_natCast_inj {a b : String} {i j : ℕ} (h : utxoKey a i = utxoKey b j) :
    a = b ∧ i = j :=
  Text.sepNumeral_inj (c := '-') rfl h

namespace TransactionInput

/-- The key of the output an input refers to. -/
def key (input : TransactionInput) : String := utxoKey input.transactionID input.outputIndex

end TransactionInput

namespace Transaction

def isCoinbase (tx : Transaction) : Bool := tx.txType == TX_COINBASE

def isValidatorReward (tx : Transaction) : Bool := tx.txType == TX_VALIDATOR_REWARD

/-- Coinbase and validator reward: the transactions whose inputs are never looked at. -/
def isSystem (tx : Transaction) : Bool := tx.isCoinbase || tx.isValidatorReward

lemma isSystem_eq_false_iff {tx : Transaction} :
    tx.isSystem = false ↔ ¬ (tx.isCoinbase || tx.isValidatorReward) = true := by
  rw [isSystem, Bool.not_eq_true]

/-- The keys of the outputs a transaction refers to, in order and with repetitions. -/
def inputKeys (tx : Transaction) : List String := tx.inputs.map TransactionInput.key

/-- The keys a transaction marks as spent: none for a system transaction. -/
def spentKeys (tx : Transaction) : List String := if tx.isSystem then [] else tx.inputKeys

/-- The keys of the outputs a transaction creates. -/
def outputKeys (tx : Transaction) : List String :=
  (List.range tx.outputs.length).map fun i => utxoKey tx.transactionID (i : ℕ)

lemma nodup_outputKeys (tx : Transaction) : tx.outputKeys.Nodup :=
  List.nodup_range.map fun _ _ h => (utxoKey_natCast_inj h).2

lemma transactionID_eq_of_mem_outputKeys {s t : Transaction} {k : String}
    (hs : k ∈ s.outputKeys) (ht : k ∈ t.outputKeys) : s.transactionID = t.transactionID := by
  obtain ⟨i, -, rfl⟩ := List.mem_map.mp hs
  obtain ⟨j, -, hj⟩ := List.mem_map.mp ht
  exact (utxoKey_natCast_inj hj).1.symm

/-! ## Hash and signature -/

/-- The text `%s%s%f%d%d%d%d` that `Hash` and `GenerateTransactionID` cover. -/
def hashData (tx : Transaction) : String :=
  tx.sender ++ tx.receiver ++ Text.fixed 6 tx.amount ++ toString tx.gasPrice.toNat ++
    toString tx.gasLimit.toNat ++ toString tx.priority ++ toString tx.timestamp

/-- `Transaction.Hash`; `GenerateTransactionID` has the same body. -/
def hash (C : Crypto) (tx : Transaction) : String := C.hashHex (Text.bytes tx.hashData)

/-- `Transaction.VerifySignature`. Without 64 bytes of public key in the transaction the key
comes from the database; with them it has to be a point of the curve and to hash to the
sender's address. -/
def verifySignature (C : Crypto) (tx : Transaction) : Bool :=
  if tx.isCoinbase || tx.isValidatorReward then true
  else
    let txHash := tx.hash C
    if tx.senderPubKey.length < 64 then
      match C.getPublicKeyForAddress tx.sender with
      | none => false
      | some publicKey => C.verifySignature publicKey txHash tx.signature
    else
      let publicKey : PublicKey :=
        ⟨setBytes (tx.senderPubKey.take 32), setBytes (tx.senderPubKey.drop 32)⟩
      if ¬ C.newPublicKey (4 :: (tx.senderPubKey.take 32 ++ tx.senderPubKey.drop 32)) then false
      else if C.generateAddress publicKey ≠ tx.sender then false
      else C.verifySignature publicKey txHash tx.signature

/-! ## Gas -/

def validateGas (tx : Transaction) : Except String Unit :=
  if tx.gasLimit < baseTxGas ∨ tx.gasLimit > baseTxGas * 100 then
    .error s!"gas limit {tx.gasLimit.toNat} outside allowed range [21000, 2100000]"
  else if tx.gasPrice < minGasPrice then
    .error s!"gas price {tx.gasPrice.toNat} below minimum 10"
  else if tx.gasPrice > maxGasPrice * 10 then
    .error s!"gas price {tx.gasPrice.toNat} exceeds maximum reasonable limit 1000"
  else
    let totalFee := convertGasToTokens (tx.gasLimit * tx.gasPrice)
    if totalFee > maxTotalFee then
      .error ("total fee " ++ Text.fixed 8 totalFee ++ " tokens exceeds maximum " ++
        Text.fixed 2 maxTotalFee ++ " tokens")
    else .ok ()

/-- The ranges that `ValidateGas` enforces. Within them the fee does not wrap. -/
structure GasInRange (tx : Transaction) : Prop where
  limit_ge : 21000 ≤ tx.gasLimit.toNat
  limit_le : tx.gasLimit.toNat ≤ 2100000
  price_ge : 10 ≤ tx.gasPrice.toNat
  price_le : tx.gasPrice.toNat ≤ 1000
  fee_le : tx.gasLimit.toNat * tx.gasPrice.toNat ≤ 2 * 10 ^ 8

lemma validateGas_eq_ok_iff {tx : Transaction} : tx.validateGas = .ok () ↔ tx.GasInRange := by
  have hlimit : tx.gasLimit < baseTxGas ∨ tx.gasLimit > baseTxGas * 100 ↔
      tx.gasLimit.toNat < 21000 ∨ 2100000 < tx.gasLimit.toNat := by
    rw [gt_iff_lt, UInt64.lt_iff_toNat_lt, UInt64.lt_iff_toNat_lt]
    rfl
  have hmin : tx.gasPrice < minGasPrice ↔ tx.gasPrice.toNat < 10 := UInt64.lt_iff_toNat_lt
  have hmax : tx.gasPrice > maxGasPrice * 10 ↔ 1000 < tx.gasPrice.toNat := UInt64.lt_iff_toNat_lt
  unfold validateGas
  by_cases h₁ : tx.gasLimit < baseTxGas ∨ tx.gasLimit > baseTxGas * 100
  · rw [if_pos h₁]
    refine iff_of_false (nomatch ·) fun h => ?_
    have := h.limit_ge
    have := h.limit_le
    rw [hlimit] at h₁
    omega
  rw [if_neg h₁]
  by_cases h₂ : tx.gasPrice < minGasPrice
  · rw [if_pos h₂]
    exact iff_of_false (nomatch ·) fun h => absurd h.price_ge (not_le.mpr (hmin.mp h₂))
  rw [if_neg h₂]
  by_cases h₃ : tx.gasPrice > maxGasPrice * 10
  · rw [if_pos h₃]
    exact iff_of_false (nomatch ·) fun h => absurd h.price_le (not_le.mpr (hmax.mp h₃))
  rw [if_neg h₃]
  rw [hlimit, not_or, not_lt, not_lt] at h₁
  rw [hmin, not_lt] at h₂
  rw [hmax, not_lt] at h₃
  -- the product of the two bounds is far below `2 ^ 64`
  have hprod : (tx.gasLimit * tx.gasPrice).toNat = tx.gasLimit.toNat * tx.gasPrice.toNat := by
    have hle : tx.gasLimit.toNat * tx.gasPrice.toNat ≤ 2100000 * 1000 := Nat.mul_le_mul h₁.2 h₃
    rw [UInt64.toNat_mul, Nat.mod_eq_of_lt (by omega)]
  have hfee : convertGasToTokens (tx.gasLimit * tx.gasPrice) > maxTotalFee ↔
      2 * 10 ^ 8 < tx.gasLimit.toNat * tx.gasPrice.toNat := by
    rw [convertGasToTokens, hprod, maxTotalFee, gt_iff_lt, lt_div_iff₀ (by norm_num)]
    exact_mod_cast Iff.rfl
  simp only [hfee]
  split_ifs with h₄
  · exact iff_of_false (nomatch ·) fun h => absurd h.fee_le (not_le.mpr h₄)
  · exact iff_of_true rfl ⟨h₁.1, h₁.2, h₂, h₃, not_lt.mp h₄⟩

end Transaction

/-! ## Transactions made by the chain -/

/-- The identifier `<label>-<receiver>-<amount>-<timestamp>-<height>`, hashed: the common part
of `GenerateCoinbaseID` and `GenerateValidatorRewardID`. -/
def rewardID (C : Crypto) (label receiver : String) (amount : ℚ) (timestamp : ℤ)
    (blockHeight : UInt64) : String :=
  C.hashHex (Text.bytes (label ++ "-" ++ receiver ++ "-" ++ Text.fixed 6 amount ++ "-" ++
    toString timestamp ++ "-" ++ toString blockHeight.toNat))

/-- A transaction of type `txType` without inputs that pays `reward` to one address: the common
part of the two constructors below. -/
def rewardTransaction (C : Crypto) (label sender : String) (txType : ℤ) (data : String)
    (receiver : String) (reward : ℚ) (blockHeight : UInt64) (now : ℤ) : Transaction where
  transactionID := rewardID C label receiver reward now blockHeight
  sender := sender
  receiver := receiver
  amount := reward
  timestamp := now
  txType := txType
  data := Text.bytes data
  outputs := [{ receiver := receiver, amount := reward }]

def newCoinbaseTransaction (C : Crypto) (minerAddress : String) (reward : ℚ)
    (blockHeight : UInt64) (now : ℤ) : Transaction :=
  rewardTransaction C "coinbase" "coinbase" TX_COINBASE
    ("Block Reward " ++ toString blockHeight.toNat) minerAddress reward blockHeight now

def newValidatorRewardTransaction (C : Crypto) (validatorAddress : String) (reward : ℚ)
    (blockHeight : UInt64) (now : ℤ) : Transaction :=
  rewardTransaction C "validator-reward" "system" TX_VALIDATOR_REWARD
    ("Validator Reward " ++ toString (blockHeight - 1).toNat) validatorAddress reward blockHeight
    now

variable (C : Crypto) (a : String) (r : ℚ) (h : UInt64) (now : ℤ)

@[simp] lemma isSystem_newCoinbaseTransaction : (newCoinbaseTransaction C a r h now).isSystem = true
    := rfl

@[simp] lemma isSystem_newValidatorRewardTransaction :
    (newValidatorRewardTransaction C a r h now).isSystem = true := rfl

end HybridChain
