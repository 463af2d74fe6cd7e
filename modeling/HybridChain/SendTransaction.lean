import HybridChain.TransactionBuilders

/-!
# Sending a transaction over RPC

`SendTransaction` of `RPC/api/transaction.go` builds a transaction from the fields of a request.
With an identifier, the change is computed a second time.

A request with a complete transaction and the address to call back are left out, and so is what
`encoding/hex` reports about a malformed text.

## Main definitions

* `sendTransaction`, `predefinedPath`, `standardPath`

## Main results

* `sendTransaction_conserves_iff`: when value is conserved
-/

namespace HybridChain

open List Text
open KeyedLog (Store)
open Crypto (sample)

/-! ## Addresses -/

/-- `hex.DecodeString` on bytes. -/
def decodeHex (bs : List UInt8) : Option (List UInt8) :=
  Text.unhexChars (bs.map fun b => Char.ofNat b.toNat)

/-- `ValidateAddress`: the text `sup`, bytes in hexadecimal, and four bytes of their hash. -/
def validateAddress (C : Crypto) (address : String) : Bool :=
  let bs := Text.bytes address
  if bs.length < 30 ∨ bs.length > 36 then false
  else if bs.take 3 ≠ Text.bytes "sup" then false
  else
    let hashPart := (bs.take (bs.length - 8)).drop 3
    let expectedChecksum := bs.drop (bs.length - 8)
    match decodeHex hashPart with
    | none => false
    | some hashBytes =>
      Text.bytes (hex ((C.sha256 hashBytes).toList.take 4)) == expectedChecksum

/-- The text `sup`, bytes in hexadecimal and a checksum. -/
def addressText (hash checksum : List UInt8) : String := "sup" ++ hex hash ++ hex checksum

lemma bytes_addressText (hash checksum : List UInt8) : Text.bytes (addressText hash checksum) =
    Text.bytes "sup" ++ Text.bytes (hex hash) ++ Text.bytes (hex checksum) := by
  rw [← bytes_append, ← bytes_append]
  rfl

section

variable {hash checksum : List UInt8} (hhash : hash.length = 10) (hchecksum : checksum.length = 4)

include hhash hchecksum

lemma length_bytes_addressText : (Text.bytes (addressText hash checksum)).length = 31 := by
  rw [bytes_addressText, length_append, length_append, length_bytes_hex,
    length_bytes_hex, hhash, hchecksum]
  decide

/-- **An address of ten bytes and four is valid** exactly if the four begin the hash of the ten. -/
lemma validateAddress_addressText_iff (C : Crypto) :
    validateAddress C (addressText hash checksum) = true ↔
      (C.sha256 hash).toList.take 4 = checksum := by
  have hlength := length_bytes_addressText hhash hchecksum
  have hbytes := bytes_addressText hash checksum
  have hsup : (Text.bytes "sup").length = 3 := by decide
  -- the three parts are cut out at 3 and 23 bytes
  have hcut : (Text.bytes "sup" ++ Text.bytes (hex hash)).length = 23 := by
    rw [length_append, hsup, length_bytes_hex, hhash]
  have hstart : (Text.bytes (addressText hash checksum)).take 3 = Text.bytes "sup" := by
    rw [hbytes, append_assoc, take_left' hsup]
  have hmiddle : ((Text.bytes (addressText hash checksum)).take 23).drop 3 =
      Text.bytes (hex hash) := by
    rw [hbytes, take_left' hcut, drop_left' hsup]
  have hend : (Text.bytes (addressText hash checksum)).drop 23 =
      Text.bytes (hex checksum) := by
    rw [hbytes, drop_left' hcut]
  have hdecode : decodeHex (Text.bytes (hex hash)) = some hash := unhexChars_bytes_hex hash
  simp only [validateAddress, hlength, hstart]
  norm_num
  simp only [hmiddle, hend, hdecode, beq_iff_eq]
  exact ⟨fun h => hex_inj (bytes_inj h), fun h => by rw [h]⟩

end

/-- **The address of a key is valid.** -/
theorem validateAddress_generateAddress (C : Crypto) (publicKey : PublicKey) :
    validateAddress C (C.generateAddress publicKey) = true := by
  refine (validateAddress_addressText_iff ?_ ?_ C).mpr rfl <;>
  · rw [length_take, List.Vector.toList_length]
    rfl

/-! ## The request -/

/-- The fields of a request, apart from a complete transaction. -/
structure SendTransactionArgs where
  /-- `From`. -/
  fromAddress : String
  /-- `To`. -/
  toAddress : String
  amount : ℚ
  gasPrice : UInt64
  gasLimit : UInt64
  signature : String
  publicKey : String
  timestamp : ℤ := 0
  nonce : ℤ := 0
  transactionID : String := ""

/-- A transaction with its identifier set to its hash. -/
def Transaction.rehash (C : Crypto) (tx : Transaction) : Transaction :=
  { tx with transactionID := tx.hash C }

def Transaction.addOutput (tx : Transaction) (receiver : String) (amount : ℚ) : Transaction :=
  { tx with outputs := tx.outputs ++ [{ receiver := receiver, amount := amount }] }

/-- `SelectUTXOs`, with the error that both paths make of its error. -/
def Transaction.selectForRequest (order : CoinOrder) (tx : Transaction)
    (utxoPool : Option UTXOPool) : Except String Transaction :=
  match tx.selectUTXOs order utxoPool with
  | (_, .error err) => .error ("failed to select UTXOs for transaction: " ++ err)
  | (tx, .ok ()) => .ok tx

/-- The loop that looks the inputs up again and adds up what they hold. -/
def totalInput (utxos : Store String UTXO) (inputs : List TransactionInput) : ℚ :=
  inputs.foldl
    (fun total input =>
      match utxos.lookup input.key with
      | some utxo => total + utxo.amount
      | none => total)
    0

namespace SendTransactionArgs

variable (C : Crypto) (order : CoinOrder) (args : SendTransactionArgs)

/-- The transaction of a request with an identifier, before it is funded. -/
def predefinedDraft (publicKeyBytes : List UInt8) (now : ℤ) : Transaction where
  transactionID := args.transactionID
  sender := args.fromAddress
  receiver := args.toAddress
  amount := args.amount
  gasPrice := args.gasPrice
  gasLimit := args.gasLimit
  senderPubKey := publicKeyBytes
  signature := args.signature
  priority := priorityNormal
  txType := TX_REGULAR
  timestamp := if args.timestamp > 0 then args.timestamp else now
  nonce := if args.nonce > 0 then UInt64.ofNat args.nonce.toNat else 0
  gasFee := convertGasToTokens (args.gasPrice * args.gasLimit)

/-- The path for a request with an identifier. The change is added by `SelectUTXOs`, and again
after the main output. -/
def predefinedPath (utxoPool : Option UTXOPool) (publicKeyBytes : List UInt8) (now : ℤ) :
    Except String Transaction :=
  match (args.predefinedDraft publicKeyBytes now).selectForRequest order utxoPool with
  | .error err => .error err
  | .ok tx =>
    let tx := tx.addOutput args.toAddress args.amount
    let changeAmount := totalInput (utxoPool.getD {}).utxos tx.inputs - args.amount - tx.gasFee
    let tx := if changeAmount > 0 then tx.addOutput args.fromAddress changeAmount else tx
    .ok (tx.rehash C)

/-- The time and the number of a request replace those of a transaction, if they are given. -/
def override (tx : Transaction) : Transaction :=
  let tx := if args.timestamp > 0 then
      Transaction.rehash C { tx with timestamp := args.timestamp }
    else tx
  if args.nonce > 0 then
    Transaction.rehash C { tx with nonce := UInt64.ofNat args.nonce.toNat }
  else tx

/-- The path for a request without an identifier. -/
def standardPath (utxoPool : Option UTXOPool) (now : ℤ) : Except String Transaction :=
  match newTransaction C args.fromAddress args.toAddress args.amount args.gasPrice args.gasLimit
    now with
  | .error err => .error ("failed to create transaction: " ++ err)
  | .ok tx =>
    let tx := args.override C tx
    if tx.inputs.length = 0 then tx.selectForRequest order utxoPool else .ok tx

def build (utxoPool : Option UTXOPool) (publicKeyBytes : List UInt8) (now : ℤ) :
    Except String Transaction :=
  if args.transactionID ≠ "" then args.predefinedPath C order utxoPool publicKeyBytes now
  else args.standardPath C order utxoPool now

/-- What is done with a transaction of either path: defaults, key and signature. -/
def finish (publicKeyBytes : List UInt8) (tx : Transaction) : Except String Transaction :=
  let tx := if tx.priority = 0 then { tx with priority := priorityNormal } else tx
  let tx := if tx.transactionID = "" then tx.rehash C else tx
  let tx := { tx with senderPubKey := publicKeyBytes }
  match unhex args.signature with
  | none => .error "invalid signature format"
  | some _ =>
    let tx := { tx with signature := args.signature }
    if ¬ tx.verifySignature C then .error "transaction signature verification failed" else .ok tx

/-- `SendTransaction`, for a request without a complete transaction and up to the broadcast. -/
def sendTransaction (utxoPool : Option UTXOPool) (now : ℤ) : Except String Transaction :=
  if ¬ validateAddress C args.fromAddress then .error "invalid sender address"
  else if ¬ validateAddress C args.toAddress then .error "invalid receiver address"
  else if args.signature = "" then .error "transaction signature is required"
  else if args.publicKey = "" then .error "sender's public key is required"
  else
    match unhex args.publicKey with
    | none => .error "invalid public key format"
    | some publicKeyBytes =>
      match args.build C order utxoPool publicKeyBytes now with
      | .error err => .error err
      | .ok tx => args.finish C publicKeyBytes tx

end SendTransactionArgs

/-! ## Conservation -/

lemma totalInput_eq (utxos : Store String UTXO) (inputs : List TransactionInput) :
    totalInput utxos inputs = (inputs.map fun input => Mempool.amountAt utxos input.key).sum := by
  have hloop : ∀ total : ℚ, inputs.foldl
      (fun total input =>
        match utxos.lookup input.key with
        | some utxo => total + utxo.amount
        | none => total) total =
      total + (inputs.map fun input => Mempool.amountAt utxos input.key).sum := by
    induction inputs with
    | nil => simp
    | cons input inputs ih =>
      intro total
      rw [foldl_cons, ih, map_cons, sum_cons]
      cases hkey : utxos.lookup input.key with
      | none => simp [Mempool.amountAt, hkey]
      | some utxo => simp [Mempool.amountAt, hkey, add_assoc]
  rw [totalInput, hloop, zero_add]

lemma selectForRequest_ok {order : CoinOrder} {pool : UTXOPool} {tx funded : Transaction}
    (h : tx.selectForRequest order (some pool) = .ok funded) :
    tx.needed ≤ tx.selectedAmount order pool ∧ funded = tx.fund (tx.selection order pool) := by
  unfold Transaction.selectForRequest at h
  cases hselect : tx.selectUTXOs order (some pool) with
  | mk selected result =>
    rw [hselect] at h
    cases result with
    | error err => exact nomatch h
    | ok =>
      obtain rfl := Except.ok.inj h
      exact ((Transaction.selectUTXOs_eq_ok_iff order pool tx).mp hselect).2

/-- **How a path leaves a transaction**: funded by the selection, with outputs of the amount, the
change, and something extra. -/
structure Built (order : CoinOrder) (pool : UTXOPool) (tx : Transaction) (extra : ℚ) : Prop where
  inputs : tx.inputs = (tx.selection order pool).map UTXO.toInput
  enough : tx.needed ≤ tx.selectedAmount order pool
  outputs : (tx.outputs.map TransactionOutput.amount).sum =
    tx.amount + (tx.selectedAmount order pool - tx.needed) + extra

variable {C : Crypto} {order : CoinOrder} {pool : UTXOPool} {tx : Transaction} {extra : ℚ}

lemma Built.conserves_iff (h : Built order pool tx extra) :
    tx.selectedAmount order pool =
        (tx.outputs.map TransactionOutput.amount).sum + tx.gasFee ↔ extra = 0 := by
  have hneeded : tx.needed = tx.amount + tx.gasFee := rfl
  rw [h.outputs, hneeded]
  constructor
  · intro h
    linarith
  · rintro rfl
    ring

section Fund

variable (hinputs : tx.inputs = []) (henough : tx.needed ≤ tx.selectedAmount order pool)

include hinputs henough

/-- **The change of `SelectUTXOs`** takes up what is not needed, so only the other outputs can
exceed the amount. -/
lemma built_fund {added : List TransactionOutput}
    (hextra : ((tx.outputs ++ added).map TransactionOutput.amount).sum = tx.amount + extra) :
    Built order pool
      { tx.fund (tx.selection order pool) with
        outputs := (tx.fund (tx.selection order pool)).outputs ++ added } extra := by
  refine ⟨?_, henough, ?_⟩
  · show tx.inputs ++ (tx.selection order pool).map UTXO.toInput = _
    rw [hinputs, nil_append]
    rfl
  · show ((tx.outputs ++ changeOutputs tx.sender (tx.selectedAmount order pool - tx.needed) ++
      added).map TransactionOutput.amount).sum =
        tx.amount + (tx.selectedAmount order pool - tx.needed) + extra
    rw [map_append, sum_append] at hextra
    rw [map_append, sum_append, map_append, sum_append, sum_changeOutputs,
      max_eq_left (sub_nonneg.mpr henough)]
    linarith

lemma built_fund_change (houtputs : tx.outputs = []) (receiver sender : String) (change : ℚ) :
    Built order pool
      { tx.fund (tx.selection order pool) with
        outputs := (tx.fund (tx.selection order pool)).outputs ++
          ({ receiver := receiver, amount := tx.amount } :: changeOutputs sender change) }
      (max change 0) := by
  refine built_fund hinputs henough ?_
  rw [houtputs, nil_append, map_cons, sum_cons, sum_changeOutputs]

end Fund

lemma Built.congr {tx' : Transaction} (h : Built order pool tx extra)
    (hsender : tx'.sender = tx.sender) (hamount : tx'.amount = tx.amount)
    (hfee : tx'.gasFee = tx.gasFee) (hinputs : tx'.inputs = tx.inputs)
    (houtputs : tx'.outputs = tx.outputs) :
    Built order pool tx' extra := by
  have hneeded : tx'.needed = tx.needed := by
    rw [Transaction.needed, Transaction.needed, hamount, hfee]
  have hselection : tx'.selection order pool = tx.selection order pool := by
    rw [Transaction.selection, Transaction.selection, hneeded, hsender]
  have hselected : tx'.selectedAmount order pool = tx.selectedAmount order pool := by
    rw [Transaction.selectedAmount, Transaction.selectedAmount, hselection]
  refine ⟨?_, ?_, ?_⟩
  · rw [hinputs, hselection, h.inputs]
  · rw [hneeded, hselected]
    exact h.enough
  · rw [houtputs, hamount, hselected, hneeded, h.outputs]

lemma ite_addOutput (tx : Transaction) (receiver : String) (change : ℚ) :
    (if change > 0 then tx.addOutput receiver change else tx) =
      { tx with outputs := tx.outputs ++ changeOutputs receiver change } := by
  unfold changeOutputs
  split_ifs with h
  · rfl
  · rw [append_nil]

namespace SendTransactionArgs

variable {args : SendTransactionArgs} {publicKeyBytes : List UInt8} {now : ℤ}

/-- **The path with an identifier** returns the change a second time. -/
lemma predefinedPath_ok (h : args.predefinedPath C order (some pool) publicKeyBytes now = .ok tx) :
    Built order pool tx (max ((tx.inputs.map fun input =>
      Mempool.amountAt pool.utxos input.key).sum - (tx.amount + tx.gasFee)) 0) := by
  unfold predefinedPath at h
  cases hselect : (args.predefinedDraft publicKeyBytes now).selectForRequest order (some pool) with
  | error err =>
    rw [hselect] at h
    exact nomatch h
  | ok funded =>
    obtain ⟨henough, rfl⟩ := selectForRequest_ok hselect
    rw [hselect] at h
    obtain rfl := Except.ok.inj h
    rw [ite_addOutput, totalInput_eq, sub_sub]
    exact (built_fund_change rfl henough rfl args.toAddress args.fromAddress _).congr
      rfl rfl rfl rfl (append_assoc _ _ _)

lemma override_fields (C : Crypto) (args : SendTransactionArgs) (tx : Transaction) :
    (args.override C tx).inputs = tx.inputs ∧ (args.override C tx).outputs = tx.outputs ∧
      (args.override C tx).amount = tx.amount := by
  unfold override
  split_ifs <;> exact ⟨rfl, rfl, rfl⟩

/-- **The path without an identifier** returns the change once. -/
lemma standardPath_ok (h : args.standardPath C order (some pool) now = .ok tx) :
    Built order pool tx 0 := by
  unfold standardPath at h
  cases hnew : newTransaction C args.fromAddress args.toAddress args.amount args.gasPrice
    args.gasLimit now with
  | error err =>
    rw [hnew] at h
    exact nomatch h
  | ok draft =>
    have htransfer := newTransaction_ok hnew
    obtain ⟨hinputs, houtputs, hamount⟩ := args.override_fields C draft
    rw [htransfer.inputs] at hinputs
    rw [htransfer.outputs] at houtputs
    rw [htransfer.amount_eq] at hamount
    simp only [hnew, hinputs, length_nil, if_true] at h
    generalize args.override C draft = given at h hinputs houtputs hamount
    obtain ⟨henough, rfl⟩ := selectForRequest_ok h
    have hextra : ((given.outputs ++ []).map TransactionOutput.amount).sum =
        given.amount + 0 := by
      rw [houtputs, hamount]
      simp
    exact (built_fund hinputs henough hextra).congr rfl rfl rfl rfl (append_nil _).symm

lemma finish_ok {built : Transaction} (h : args.finish C publicKeyBytes built = .ok tx) :
    ∃ transactionID priority, tx =
      { built with
        transactionID := transactionID
        priority := priority
        senderPubKey := publicKeyBytes
        signature := args.signature } := by
  simp only [finish] at h
  cases hsignature : unhex args.signature with
  | none =>
    rw [hsignature] at h
    exact nomatch h
  | some bytes =>
    rw [hsignature] at h
    split_ifs at h
    all_goals
      obtain rfl := Except.ok.inj h
      exact ⟨_, _, rfl⟩

lemma sendTransaction_ok (h : args.sendTransaction C order (some pool) now = .ok tx) :
    ∃ publicKeyBytes built, args.build C order (some pool) publicKeyBytes now = .ok built ∧
      args.finish C publicKeyBytes built = .ok tx := by
  unfold sendTransaction at h
  split_ifs at h
  cases hkey : unhex args.publicKey with
  | none =>
    rw [hkey] at h
    exact nomatch h
  | some publicKeyBytes =>
    simp only [hkey] at h
    cases hbuild : args.build C order (some pool) publicKeyBytes now with
    | error err =>
      rw [hbuild] at h
      exact nomatch h
    | ok built =>
      rw [hbuild] at h
      exact ⟨publicKeyBytes, built, hbuild, h⟩

lemma built_sendTransaction (h : args.sendTransaction C order (some pool) now = .ok tx) :
    Built order pool tx
      (if args.transactionID = "" then 0
      else max ((tx.inputs.map fun input => Mempool.amountAt pool.utxos input.key).sum -
        (tx.amount + tx.gasFee)) 0) := by
  obtain ⟨publicKeyBytes, built, hbuild, hfinish⟩ := sendTransaction_ok h
  obtain ⟨transactionID, priority, rfl⟩ := finish_ok hfinish
  unfold build at hbuild
  by_cases hid : args.transactionID = ""
  · rw [if_neg (not_not.mpr hid)] at hbuild
    rw [if_pos hid]
    exact (standardPath_ok hbuild).congr rfl rfl rfl rfl rfl
  · rw [if_pos hid] at hbuild
    rw [if_neg hid]
    exact (predefinedPath_ok hbuild).congr rfl rfl rfl rfl rfl

/-- **When a request conserves value**: the selected outputs hold the amounts of all outputs and the
fee exactly if the request has no identifier, or the pool has no more than amount and fee under
their keys. -/
theorem sendTransaction_conserves_iff (h : args.sendTransaction C order (some pool) now = .ok tx) :
    tx.inputs = (tx.selection order pool).map UTXO.toInput ∧
      (tx.selectedAmount order pool =
          (tx.outputs.map TransactionOutput.amount).sum + tx.gasFee ↔
        args.transactionID = "" ∨
          ((tx.selection order pool).map fun utxo =>
            Mempool.amountAt pool.utxos utxo.toInput.key).sum ≤ tx.amount + tx.gasFee) := by
  have hbuilt := built_sendTransaction h
  refine ⟨hbuilt.inputs, hbuilt.conserves_iff.trans ?_⟩
  split_ifs with hid
  · exact iff_of_true rfl (Or.inl hid)
  · rw [max_eq_right_iff, sub_nonpos, or_iff_right hid, hbuilt.inputs, map_map]
    rfl

lemma sendTransaction_eq_ok {built : Transaction} {utxoPool : Option UTXOPool}
    {signatureBytes : List UInt8} (hfrom : validateAddress C args.fromAddress = true)
    (hto : validateAddress C args.toAddress = true)
    (hsignature : unhex args.signature = some signatureBytes) (hsigned : signatureBytes ≠ [])
    (hkey : unhex args.publicKey = some publicKeyBytes) (hkeyed : publicKeyBytes ≠ [])
    (hbuild : args.build C order utxoPool publicKeyBytes now = .ok built)
    (hpriority : built.priority ≠ 0) (hid : built.transactionID ≠ "")
    (hverify : (built.signWith args.signature publicKeyBytes).verifySignature C = true) :
    args.sendTransaction C order utxoPool now =
      .ok (built.signWith args.signature publicKeyBytes) := by
  have hnonempty : ∀ (text : String) (bs : List UInt8),
      unhex text = some bs → bs ≠ [] → text ≠ "" := by
    rintro text bs htext hbs rfl
    exact hbs (Option.some.inj htext).symm
  have hfinish : args.finish C publicKeyBytes built =
      .ok (built.signWith args.signature publicKeyBytes) := by
    simp only [finish, if_neg hpriority, if_neg hid, hsignature]
    exact if_neg (not_not_intro hverify)
  unfold sendTransaction
  rw [if_neg (not_not_intro hfrom), if_neg (not_not_intro hto),
    if_neg (hnonempty _ _ hsignature hsigned), if_neg (hnonempty _ _ hkey hkeyed)]
  simp only [hkey, hbuild, hfinish]

/-! ### The sample wallet -/

def walletRequest (transactionID : String) : SendTransactionArgs where
  fromAddress := walletAddress
  toAddress := walletAddress
  amount := 5
  gasPrice := 10
  gasLimit := 21000
  signature :=
    (transferDraft walletAddress walletAddress 5 10 21000 1).sampleSigned.signature
  publicKey := hex walletKey
  timestamp := 1
  transactionID := transactionID

def walletBuilt (transactionID : String) : Transaction :=
  ((walletRequest transactionID).build sample CoinOrder.byKey (some (walletPool 10))
    walletKey 0).toOption.getD { transactionID := "" }

def walletPayment (transactionID : String) : Transaction :=
  (walletBuilt transactionID).signWith (walletRequest transactionID).signature walletKey

lemma sendTransaction_walletRequest {transactionID : String}
    (hok : ((walletRequest transactionID).build sample CoinOrder.byKey
      (some (walletPool 10)) walletKey 0).isOk = true)
    (hpriority : (walletBuilt transactionID).priority ≠ 0)
    (hid : (walletBuilt transactionID).transactionID ≠ "")
    (htype : (walletBuilt transactionID).txType = TX_REGULAR)
    (hsender : (walletBuilt transactionID).sender = walletAddress)
    (hdata : (walletBuilt transactionID).hashData =
      (transferDraft walletAddress walletAddress 5 10 21000 1).hashData) :
    (walletRequest transactionID).sendTransaction sample CoinOrder.byKey
      (some (walletPool 10)) 0 = .ok (walletPayment transactionID) := by
  have hbuild : (walletRequest transactionID).build sample CoinOrder.byKey
      (some (walletPool 10)) walletKey 0 = .ok (walletBuilt transactionID) := by
    rw [walletBuilt]
    generalize (walletRequest transactionID).build sample CoinOrder.byKey
      (some (walletPool 10)) walletKey 0 = result at hok
    cases result with
    | error err => exact absurd hok (by simp [Except.isOk, Except.toBool])
    | ok built => rfl
  have haddress : validateAddress sample walletAddress = true :=
    validateAddress_generateAddress sample _
  refine sendTransaction_eq_ok haddress haddress (unhex_hex _) ?_ (unhex_hex _) ?_ hbuild
    hpriority hid (verifySignature_signWith rfl rfl htype hsender hdata)
  · exact fun h => absurd (append_eq_nil_iff.mp h).2 (by decide)
  · decide

/-- **Ten tokens become almost fifteen**: with an identifier the change of 4.9979 tokens is paid
twice. -/
theorem walletPayment_pays_change_twice :
    (walletRequest "x").sendTransaction sample CoinOrder.byKey (some (walletPool 10)) 0 =
        .ok (walletPayment "x") ∧
      (walletPayment "x").inputs = [{ transactionID := "p", outputIndex := 0 }] ∧
      (walletPayment "x").selectedAmount CoinOrder.byKey (walletPool 10) = 10 ∧
      (walletPayment "x").outputs.map TransactionOutput.amount =
        [49979 / 10000, 5, 49979 / 10000] ∧
      (walletPayment "x").gasFee = 21 / 10000 := by
  refine ⟨sendTransaction_walletRequest ?_ ?_ ?_ ?_ ?_ ?_, ?_⟩
  all_goals decide +kernel

theorem walletPayment_conserves :
    (walletPayment "").selectedAmount CoinOrder.byKey (walletPool 10) =
      ((walletPayment "").outputs.map TransactionOutput.amount).sum +
        (walletPayment "").gasFee := by
  have hsent : (walletRequest "").sendTransaction sample CoinOrder.byKey
      (some (walletPool 10)) 0 = .ok (walletPayment "") := by
    refine sendTransaction_walletRequest ?_ ?_ ?_ ?_ ?_ ?_
    all_goals decide +kernel
  exact (sendTransaction_conserves_iff hsent).2.mpr (.inl rfl)

end SendTransactionArgs

end HybridChain
