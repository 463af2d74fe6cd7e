import HybridChain.Admission
import HybridChain.CoinSelection

/-!
# Transactions made by wallets

`NewTransaction` and `NewStakeTransaction` of `transaction.go` make transactions that are funded by
`SelectUTXOs` at the price of the transaction; `ValidateTransaction` asks for the fee at
`MaxFeePerGas`, twice the price, and `ValidateGas` refuses every transaction without gas.

## Main definitions

* `newTransaction`, `newStakeTransaction`

## Main results

* `validateTransaction_transfer_iff`: which transfers are accepted
* `validateTransaction_stake_eq_false`: no staking transaction is
-/

namespace HybridChain

open KeyedLog (Store)
open Crypto (sample)
open Transaction (isSystem verifySignature)

/-! ## The builders -/

def defaultGasLimit : UInt64 := 21000

def priorityNormal : ℤ := 1

def transferDraft (sender receiver : String) (amount : ℚ) (gasPrice gasLimit : UInt64) (now : ℤ) :
    Transaction where
  transactionID := ""
  sender := sender
  receiver := receiver
  amount := amount
  timestamp := now
  gasFee := convertGasToTokens (gasLimit * gasPrice)
  gasLimit := gasLimit
  gasPrice := gasPrice
  maxFeePerGas := gasPrice * 2
  priority := priorityNormal
  txType := TX_REGULAR
  outputs := [{ receiver := receiver, amount := amount }]

def newTransaction (C : Crypto) (sender receiver : String) (amount : ℚ)
    (gasPrice gasLimit : UInt64) (now : ℤ) : Except String Transaction :=
  if gasPrice < minGasPrice then
    .error s!"gas price {gasPrice.toNat} is below minimum allowed 10"
  else
    let gasLimit := if gasLimit = 0 then defaultGasLimit else gasLimit
    let tx := transferDraft sender receiver amount gasPrice gasLimit now
    if tx.gasFee > maxTotalFee then
      .error ("gas fee " ++ Text.fixed 8 tx.gasFee ++ " tokens exceeds maximum allowed " ++
        Text.fixed 2 maxTotalFee ++ " tokens")
    else
      match tx.validateGas with
      | .error err => .error ("invalid gas parameters: " ++ err)
      | .ok () => .ok { tx with transactionID := tx.hash C }

def newStakeTransaction (C : Crypto) (senderAddress : String) (amount : ℚ)
    (publicKey : List UInt8) (now : ℤ) : Except String Transaction :=
  if amount ≤ 0 then .error "stake amount must be positive"
  else
    let tx : Transaction :=
      { transactionID := ""
        sender := senderAddress
        receiver := senderAddress
        amount := amount
        timestamp := now
        gasLimit := 0
        gasPrice := 0
        gasUsed := 0
        gasFee := 0
        priority := 10
        txType := TX_STAKE
        outputs := [{ receiver := senderAddress, amount := amount, scriptPubKey := "STAKE" }]
        data := Text.bytes ("Stake " ++ Text.fixed 4 amount)
        senderPubKey := publicKey }
    let txData := tx.sender ++ tx.receiver ++ Text.fixed 8 tx.amount ++ toString tx.timestamp ++
      toString tx.txType
    .ok { tx with transactionID := C.hashHex (Text.bytes ("STAKE-" ++ txData)) }

/-- A transaction with a signature and the public key of its sender. -/
def Transaction.signWith (tx : Transaction) (signature : String) (senderPubKey : List UInt8) :
    Transaction :=
  { tx with signature := signature, senderPubKey := senderPubKey }

/-! ## Transfers -/

/-- What `NewTransaction` returns: a regular transaction without inputs and with gas in range, which
allows twice the fee it funds. -/
structure IsTransfer (sender receiver : String) (amount : ℚ) (tx : Transaction) : Prop where
  regular : tx.txType = TX_REGULAR
  inputs : tx.inputs = []
  outputs : tx.outputs = [{ receiver := receiver, amount := amount }]
  sender_eq : tx.sender = sender
  amount_eq : tx.amount = amount
  gas : tx.GasInRange
  reserve : Mempool.totalRequired tx = amount + 2 * tx.gasFee

lemma convertGasToTokens_double {limit price : UInt64} (hlimit : limit.toNat ≤ 2100000)
    (hprice : price.toNat ≤ 1000) :
    convertGasToTokens (limit * (price * 2)) = 2 * convertGasToTokens (limit * price) := by
  have hprod : limit.toNat * price.toNat ≤ 2100000 * 1000 := Nat.mul_le_mul hlimit hprice
  have hsingle : (limit * price).toNat = limit.toNat * price.toNat := by
    rw [UInt64.toNat_mul, Nat.mod_eq_of_lt (by omega)]
  have htwice : (price * 2).toNat = price.toNat * 2 := by
    rw [UInt64.toNat_mul]
    exact Nat.mod_eq_of_lt (by simp; omega)
  have hdouble : (limit * (price * 2)).toNat = 2 * (limit.toNat * price.toNat) := by
    have harrange : limit.toNat * (price.toNat * 2) = 2 * (limit.toNat * price.toNat) := by ring
    rw [UInt64.toNat_mul, htwice, harrange, Nat.mod_eq_of_lt (by omega)]
  rw [convertGasToTokens, convertGasToTokens, hsingle, hdouble]
  push_cast
  ring

variable {tx : Transaction} {sender receiver : String} {amount : ℚ} {C : Crypto} {now : ℤ}

lemma isTransfer_transferDraft {gasPrice gasLimit : UInt64} (transactionID : String)
    (h : (transferDraft sender receiver amount gasPrice gasLimit now).GasInRange) :
    IsTransfer sender receiver amount
      { transferDraft sender receiver amount gasPrice gasLimit now with
        transactionID := transactionID } where
  regular := rfl
  inputs := rfl
  outputs := rfl
  sender_eq := rfl
  amount_eq := rfl
  gas := ⟨h.limit_ge, h.limit_le, h.price_ge, h.price_le, h.fee_le⟩
  reserve := congrArg (amount + ·) (convertGasToTokens_double h.limit_le h.price_le)

/-- **What a transfer looks like.** -/
lemma newTransaction_ok {gasPrice gasLimit : UInt64}
    (h : newTransaction C sender receiver amount gasPrice gasLimit now = .ok tx) :
    IsTransfer sender receiver amount tx := by
  simp only [newTransaction] at h
  generalize (if gasLimit = 0 then defaultGasLimit else gasLimit) = limit at h
  split_ifs at h
  cases hgas : (transferDraft sender receiver amount gasPrice limit now).validateGas with
  | error err =>
    rw [hgas] at h
    exact nomatch h
  | ok =>
    rw [hgas] at h
    rw [← Except.ok.inj h]
    exact isTransfer_transferDraft _ (Transaction.validateGas_eq_ok_iff.mp hgas)

/-- **A transfer that is funded somehow and signed**: funding and signing leave the type, the gas
and the sender as they are, so of the checks only those of the inputs are left. -/
lemma IsTransfer.validateTransaction_iff {signature : String} {senderPubKey : List UInt8}
    (h : IsTransfer sender receiver amount tx) (utxos : Store String UTXO) (selected : List UTXO)
    (hsigned : ((tx.fund selected).signWith signature senderPubKey).verifySignature C = true) :
    Mempool.validateTransaction (verifySignature C)
        ((tx.fund selected).signWith signature senderPubKey) utxos = true ↔
      (∀ input ∈ (tx.fund selected).inputs, ∃ utxo, Mempool.Spendable utxos sender input.key utxo) ∧
        amount + 2 * tx.gasFee ≤
          ((tx.fund selected).inputs.map fun input => Mempool.amountAt utxos input.key).sum := by
  have hreg : ((tx.fund selected).signWith signature senderPubKey).txType = TX_REGULAR := h.regular
  have hsender : ((tx.fund selected).signWith signature senderPubKey).sender = sender := h.sender_eq
  have hrequired : Mempool.totalRequired ((tx.fund selected).signWith signature senderPubKey) =
      amount + 2 * tx.gasFee := h.reserve
  have hgas : ((tx.fund selected).signWith signature senderPubKey).GasInRange :=
    ⟨h.gas.limit_ge, h.gas.limit_le, h.gas.price_ge, h.gas.price_le, h.gas.fee_le⟩
  rw [Mempool.validateTransaction_iff_of_regular hreg hgas hsigned, hsender, hrequired]
  rfl

/-- **When a funded and signed transfer is accepted**: if the inputs are unspent outputs of the
sender in the pool, and hold the amount and twice the fee. In a keyed pool this means that the
change covers the fee once more. -/
theorem validateTransaction_transfer_iff {C : Crypto} {order : CoinOrder}
    {sender receiver : String} {amount : ℚ} {gasPrice gasLimit : UInt64} {now : ℤ}
    {tx funded : Transaction} {pool : UTXOPool} {signature : String} {senderPubKey : List UInt8}
    (hnew : newTransaction C sender receiver amount gasPrice gasLimit now = .ok tx)
    (hselect : tx.selectUTXOs order (some pool) = (funded, .ok ()))
    (hsigned : (funded.signWith signature senderPubKey).verifySignature C = true) :
    (Mempool.validateTransaction (verifySignature C)
        (funded.signWith signature senderPubKey) pool.utxos = true ↔
      (∀ input ∈ funded.inputs, ∃ utxo, Mempool.Spendable pool.utxos sender input.key utxo) ∧
        amount + 2 * tx.gasFee ≤
          (funded.inputs.map fun input => Mempool.amountAt pool.utxos input.key).sum) ∧
      (pool.Keyed → (Mempool.validateTransaction (verifySignature C)
            (funded.signWith signature senderPubKey) pool.utxos = true ↔
          tx.gasFee ≤ tx.selectedAmount order pool - (amount + tx.gasFee))) := by
  have htransfer := newTransaction_ok hnew
  obtain ⟨-, -, rfl⟩ := (Transaction.selectUTXOs_eq_ok_iff order pool tx).mp hselect
  have haccepted := htransfer.validateTransaction_iff pool.utxos _ hsigned
  refine ⟨haccepted, fun hkeyed => ?_⟩
  have hinputs : (tx.fund (tx.selection order pool)).inputs =
      (tx.selection order pool).map UTXO.toInput := by
    rw [Transaction.fund, htransfer.inputs, List.nil_append]
  have hspendable := Transaction.spendable_selection order tx hkeyed
  rw [htransfer.sender_eq] at hspendable
  rw [haccepted, hinputs, and_iff_right hspendable, Transaction.sum_amountAt_selection hkeyed]
  constructor
  · intro h
    linarith
  · intro h
    linarith

/-! ### A wallet of the sample -/

def walletKey : List UInt8 := List.replicate 64 1

def walletAddress : String := (Transaction.sampleSigned { transactionID := "" }).sender

def walletPool (amount : ℚ) : UTXOPool :=
  poolOf [{ transactionID := "p", amount := amount, owner := walletAddress }]

/-- The sample signature of a transaction of the wallet passes for every transaction with the same
type, sender and text to hash. -/
lemma verifySignature_signWith {tx signed : Transaction} (hsys : signed.isSystem = false)
    (haddress : signed.sender = walletAddress) (htype : tx.txType = signed.txType)
    (hsender : tx.sender = signed.sender) (hdata : tx.hashData = signed.hashData) :
    (tx.signWith signed.sampleSigned.signature walletKey).verifySignature sample = true := by
  have hsampleSender : signed.sender = signed.sampleSigned.sender := haddress.trans rfl
  have hsampleData : signed.hashData = signed.sampleSigned.hashData := by
    unfold Transaction.hashData
    rw [hsampleSender]
    rfl
  generalize hsignature : signed.sampleSigned.signature = signature
  have hverify : (tx.signWith signature walletKey).verifySignature sample =
      signed.sampleSigned.verifySignature sample :=
    verifySignature_congr sample htype (hsender.trans hsampleSender)
      (hdata.trans hsampleData) rfl hsignature.symm
  exact hverify.trans (verifySignature_sampleSigned hsys)

lemma verifySignature_wallet (hsys : tx.isSystem = false)
    (hsender : tx.sender = walletAddress) (order : CoinOrder) (utxoPool : Option UTXOPool) :
    ((tx.selectUTXOs order utxoPool).1.signWith tx.sampleSigned.signature
      walletKey).verifySignature sample = true := by
  obtain ⟨inputs, outputs, hfunded⟩ := Transaction.exists_selectUTXOs_eq order tx utxoPool
  rw [hfunded]
  exact verifySignature_signWith hsys hsender rfl rfl rfl

def walletTransfer : Transaction :=
  let tx := transferDraft walletAddress "bob" 5 10 21000 0
  { tx with transactionID := tx.hash sample }

def signedTransfer (amount : ℚ) : Transaction :=
  (walletTransfer.selectUTXOs CoinOrder.byKey (some (walletPool amount))).1.signWith
    walletTransfer.sampleSigned.signature walletKey

lemma verifySignature_signedTransfer (amount : ℚ) :
    (signedTransfer amount).verifySignature sample = true := by
  have hsys : walletTransfer.isSystem = false := rfl
  exact verifySignature_wallet hsys rfl CoinOrder.byKey (some (walletPool amount))

lemma newTransaction_walletTransfer :
    newTransaction sample walletAddress "bob" 5 10 21000 0 = .ok walletTransfer := by
  decide +kernel

/-- **A wallet that has just the amount and the fee** can build, fund and sign the transfer, and the
mempool refuses it. -/
theorem exact_transfer_refused :
    newTransaction sample walletAddress "bob" 5 10 21000 0 = .ok walletTransfer ∧
      (walletTransfer.selectUTXOs CoinOrder.byKey (some (walletPool (5 + 21 / 10000)))).2 = .ok () ∧
      (signedTransfer (5 + 21 / 10000)).verifySignature sample = true ∧
      Mempool.validateTransaction (verifySignature sample)
        (signedTransfer (5 + 21 / 10000)) (walletPool (5 + 21 / 10000)).utxos = false := by
  refine ⟨newTransaction_walletTransfer, ?_, verifySignature_signedTransfer _, ?_⟩
  · decide +kernel
  · rw [Mempool.validateTransaction_of_verify (verifySignature_signedTransfer _)]
    decide +kernel

theorem ten_token_transfer_accepted :
    Mempool.validateTransaction (verifySignature sample) (signedTransfer 10)
      (walletPool 10).utxos = true := by
  have hselect : walletTransfer.selectUTXOs CoinOrder.byKey (some (walletPool 10)) =
      ((walletTransfer.selectUTXOs CoinOrder.byKey (some (walletPool 10))).1, .ok ()) := by
    decide +kernel
  have hiff := validateTransaction_transfer_iff newTransaction_walletTransfer hselect
    (verifySignature_signedTransfer 10)
  exact (hiff.2 (keyed_poolOf _)).mpr (by decide +kernel)

/-! ## Staking transactions -/

lemma newStakeTransaction_ok {senderAddress : String} {publicKey : List UInt8}
    (h : newStakeTransaction C senderAddress amount publicKey now = .ok tx) :
    tx.txType = TX_STAKE ∧ tx.gasLimit = 0 := by
  unfold newStakeTransaction at h
  split_ifs at h
  rw [← Except.ok.inj h]
  exact ⟨rfl, rfl⟩

/-- **No staking transaction is accepted**, whatever outputs fund it and whoever signs it: the gas
checks are made for staking transactions too. -/
theorem validateTransaction_stake_eq_false {C : Crypto} {senderAddress : String} {amount : ℚ}
    {publicKey : List UInt8} {now : ℤ} {tx : Transaction}
    (h : newStakeTransaction C senderAddress amount publicKey now = .ok tx) (order : CoinOrder)
    (utxoPool : Option UTXOPool) (utxos : Store String UTXO) (signature : String)
    (senderPubKey : List UInt8) : Mempool.validateTransaction (verifySignature C)
      ((tx.selectUTXOs order utxoPool).1.signWith signature senderPubKey) utxos = false := by
  obtain ⟨htype, hgas⟩ := newStakeTransaction_ok h
  obtain ⟨inputs, outputs, hfunded⟩ := Transaction.exists_selectUTXOs_eq order tx utxoPool
  rw [hfunded]
  have hsys : isSystem
      (Transaction.signWith { tx with inputs := inputs, outputs := outputs } signature
        senderPubKey) = false := by
    rw [isSystem, Transaction.isCoinbase, Transaction.isValidatorReward,
      Transaction.signWith, htype]
    rfl
  rw [← Bool.not_eq_true, Mempool.validateTransaction_iff hsys]
  intro haccepted
  have hrange := (Transaction.validateGas_eq_ok_iff.mp haccepted.gas).limit_ge
  rw [Transaction.signWith, hgas] at hrange
  exact absurd hrange (by decide)

def walletStake : Transaction :=
  (newStakeTransaction sample walletAddress 5 walletKey 0).toOption.getD
    { transactionID := "" }

def signedStake : Transaction :=
  (walletStake.selectUTXOs CoinOrder.byKey (some (walletPool 10))).1.signWith
    walletStake.sampleSigned.signature walletKey

lemma newStakeTransaction_walletStake :
    newStakeTransaction sample walletAddress 5 walletKey 0 = .ok walletStake := rfl

lemma verifySignature_signedStake : signedStake.verifySignature sample = true := by
  have hsys : walletStake.isSystem = false := rfl
  exact verifySignature_wallet hsys rfl CoinOrder.byKey (some (walletPool 10))

/-- **Ten tokens are enough for a stake of five**, which is built, funded and signed, and the
mempool refuses it. -/
theorem funded_stake_refused :
    newStakeTransaction sample walletAddress 5 walletKey 0 = .ok walletStake ∧
      5 ≤ (walletPool 10).getBalance walletAddress ∧
      (walletStake.selectUTXOs CoinOrder.byKey (some (walletPool 10))).2 = .ok () ∧
      signedStake.verifySignature sample = true ∧
      Mempool.validateTransaction (verifySignature sample) signedStake
        (walletPool 10).utxos = false := by
  refine ⟨newStakeTransaction_walletStake, ?_, ?_, verifySignature_signedStake, ?_⟩
  · decide +kernel
  · decide +kernel
  · rw [Mempool.validateTransaction_of_verify verifySignature_signedStake]
    decide +kernel

theorem signedStake_refused : Mempool.validateTransaction (verifySignature sample) signedStake
      (walletPool 1000).utxos = false :=
  validateTransaction_stake_eq_false newStakeTransaction_walletStake CoinOrder.byKey
    (some (walletPool 10)) (walletPool 1000).utxos _ _

end HybridChain
