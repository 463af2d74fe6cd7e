import HybridChain.Transaction

/-!
# What a signature covers

`Transaction.VerifySignature` checks a signature over a hash of seven fields without separators;
nonce, fee, inputs and outputs are not among them.

## Main definitions

* `SameTerms`, `SignatureBinds`: a signature fixes the terms

## Main results

* `signature_binds_never`: no signature does
-/

namespace HybridChain

open List
open Crypto (sample)

/-! ## Numbers and bytes -/

lemma setBytes_eq_ofDigits (bs : List UInt8) :
    setBytes bs = Nat.ofDigits 256 (bs.reverse.map UInt8.toNat) := by
  induction bs using List.reverseRecOn with
  | nil => rfl
  | append_singleton bs b ih =>
    rw [reverse_append, reverse_singleton, singleton_append, map_cons, Nat.ofDigits_cons, ← ih]
    simp only [setBytes, foldl_append, foldl_cons, foldl_nil]
    ring

lemma setBytes_inj {as bs : List UInt8} (hlen : as.length = bs.length)
    (h : setBytes as = setBytes bs) : as = bs := by
  have hlt : ∀ cs : List UInt8, ∀ n ∈ cs.reverse.map UInt8.toNat, n < 256 := by
    intro cs n hn
    obtain ⟨b, -, rfl⟩ := mem_map.mp hn
    exact b.toNat_lt
  rw [setBytes_eq_ofDigits, setBytes_eq_ofDigits] at h
  have hdigits := Nat.ofDigits_inj_of_len_eq (by omega) (by simpa using hlen) (hlt as) (hlt bs) h
  exact reverse_injective (map_injective_iff.mpr (fun _ _ => UInt8.toNat_inj.mp) hdigits)

/-! ## Ideal signatures -/

/-- A signature verifies under a key for one digest only. -/
def Crypto.IdealSignatures (C : Crypto) : Prop := ∀ (key : PublicKey) (d₁ d₂ : Digest) (r s : ℕ),
    C.ecdsaVerify key d₁.toList r s = true → C.ecdsaVerify key d₂.toList r s = true → d₁ = d₂

lemma ecdsaVerify_sample {key : PublicKey} {digest : List UInt8} {r s : ℕ} :
    sample.ecdsaVerify key digest r s = true ↔ setBytes digest = r :=
  decide_eq_true_iff

lemma idealSignatures_sample : sample.IdealSignatures := by
  intro key d₁ d₂ r s h₁ h₂
  rw [ecdsaVerify_sample] at h₁ h₂
  have hlen : d₁.toList.length = d₂.toList.length := by rw [d₁.toList_length, d₂.toList_length]
  exact Subtype.ext (setBytes_inj hlen (h₁.trans h₂.symm))

namespace Transaction

def publicKey (tx : Transaction) : PublicKey :=
  ⟨setBytes (tx.senderPubKey.take 32), setBytes (tx.senderPubKey.drop 32)⟩

/-- **What a transaction with a public key has to pass.** -/
lemma verifySignature_iff {C : Crypto} {tx : Transaction} (hsys : tx.isSystem = false)
    (hlen : 64 ≤ tx.senderPubKey.length) : tx.verifySignature C = true ↔
      C.newPublicKey (4 :: (tx.senderPubKey.take 32 ++ tx.senderPubKey.drop 32)) = true ∧
        C.generateAddress tx.publicKey = tx.sender ∧
        C.verifySignature tx.publicKey (tx.hash C) tx.signature = true := by
  simp only [verifySignature, if_neg (isSystem_eq_false_iff.mp hsys), if_neg (not_lt.mpr hlen)]
  split_ifs with hkey haddr
  · exact iff_of_false not_false fun h => haddr h.2.1
  · exact ⟨fun h => ⟨hkey, not_not.mp haddr, h⟩, fun h => h.2.2⟩
  · exact iff_of_false not_false fun h => hkey h.1

end Transaction

/-! ## What a signature leaves open -/

/-- Two transactions agree on everything a sender authorises. -/
structure SameTerms (s t : Transaction) : Prop where
  sender : s.sender = t.sender
  receiver : s.receiver = t.receiver
  amount : s.amount = t.amount
  gasPrice : s.gasPrice = t.gasPrice
  gasLimit : s.gasLimit = t.gasLimit
  gasFee : s.gasFee = t.gasFee
  nonce : s.nonce = t.nonce
  inputs : s.inputs = t.inputs
  outputs : s.outputs = t.outputs

/-- No other terms pass with the public key and the signature of the transaction. -/
def SignatureBinds (C : Crypto) (tx : Transaction) : Prop :=
  ∀ other : Transaction, other.txType = TX_REGULAR → other.senderPubKey = tx.senderPubKey →
    other.signature = tx.signature → other.verifySignature C = true → SameTerms tx other

lemma verifySignature_replace (C : Crypto) (tx : Transaction) (nonce : UInt64) (gasFee : ℚ)
    (inputs : List TransactionInput) (outputs : List TransactionOutput) :
    Transaction.verifySignature C { tx with
      nonce := nonce, gasFee := gasFee, inputs := inputs, outputs := outputs } =
      tx.verifySignature C := rfl

lemma verifySignature_congr (C : Crypto) {tx other : Transaction}
    (htype : other.txType = tx.txType) (hsender : other.sender = tx.sender)
    (hdata : other.hashData = tx.hashData) (hkey : other.senderPubKey = tx.senderPubKey)
    (hsignature : other.signature = tx.signature) :
    other.verifySignature C = tx.verifySignature C := by
  unfold Transaction.verifySignature Transaction.isCoinbase Transaction.isValidatorReward
    Transaction.hash
  rw [htype, hsender, hdata, hkey, hsignature]

/-- **A signature never binds the terms**: whatever has been signed, a transaction with one more
output passes as well. -/
theorem signature_binds_never (C : Crypto) {tx : Transaction} (hreg : tx.txType = TX_REGULAR)
    (hpass : tx.verifySignature C = true) : ¬ SignatureBinds C tx := by
  intro hbinds
  let outputs := { receiver := tx.sender, amount := tx.amount } :: tx.outputs
  have hother := verifySignature_replace C tx tx.nonce tx.gasFee tx.inputs outputs
  have hsame := (hbinds { tx with outputs := outputs } hreg rfl rfl (hother.trans hpass)).outputs
  exact cons_ne_self _ _ hsame.symm

/-! ### Signed transactions of the sample -/

def Transaction.sampleSigned (tx : Transaction) : Transaction :=
  let tx := { tx with senderPubKey := List.replicate 64 1 }
  let tx := { tx with sender := sample.generateAddress tx.publicKey }
  let digest := sample.sha256 (Text.bytes (tx.hash sample))
  { tx with signature := Text.hex (digest.toList ++ List.replicate 32 0) }

lemma verifySignature_sample (publicKey : PublicKey) (message : String) :
    sample.verifySignature publicKey message
      (Text.hex ((sample.sha256 (Text.bytes message)).toList ++ List.replicate 32 0)) =
        true := by
  simp only [Crypto.verifySignature, Text.unhex_hex]
  rw [ecdsaVerify_sample]
  generalize sample.sha256 _ = digest
  have hdigest := digest.toList_length
  rw [length_append, hdigest, length_replicate, take_left' hdigest]

lemma verifySignature_sampleSigned {tx : Transaction} (hsys : tx.isSystem = false) :
    tx.sampleSigned.verifySignature sample = true := by
  have hsys' : tx.sampleSigned.isSystem = false := hsys
  have hlen : 64 ≤ tx.sampleSigned.senderPubKey.length := by simp [Transaction.sampleSigned]
  have hsender : sample.generateAddress tx.sampleSigned.publicKey =
      tx.sampleSigned.sender := rfl
  have hsig : tx.sampleSigned.signature =
      Text.hex ((sample.sha256 (Text.bytes (tx.sampleSigned.hash sample))).toList ++
        List.replicate 32 0) := by
    simp only [Transaction.sampleSigned, Transaction.hash, Transaction.hashData]
  rw [Transaction.verifySignature_iff hsys' hlen]
  refine ⟨rfl, hsender, ?_⟩
  rw [hsig]
  exact verifySignature_sample _ _

def payFive : Transaction := Transaction.sampleSigned
  { transactionID := "t"
    receiver := "bob"
    amount := 5
    gasPrice := 10
    gasLimit := 21000
    outputs := [{ receiver := "bob", amount := 5 }] }

theorem signature_binds_never_payFive :
    payFive.txType = TX_REGULAR ∧ payFive.verifySignature sample = true ∧
      ¬ SignatureBinds sample payFive :=
  have hpass : payFive.verifySignature sample = true := verifySignature_sampleSigned rfl
  ⟨rfl, hpass, signature_binds_never sample rfl hpass⟩

/-- The byte strings that the verification of a transaction hashes. -/
def hashedForSignature (C : Crypto) (tx : Transaction) : List (List UInt8) :=
  let keyBytes := bigBytes tx.publicKey.x ++ bigBytes tx.publicKey.y
  [Text.bytes tx.hashData, Text.bytes (tx.hash C), keyBytes, (C.sha256 keyBytes).toList.take 10]

/-- The five tokens for `bob` redirected to `mallory`: signatures are ideal, hashes do not collide,
and both transactions pass. -/
theorem signature_passes_redirected :
    let stolen := { payFive with outputs := [{ receiver := "mallory", amount := 5 }] }
    sample.IdealSignatures ∧ Set.InjOn sample.sha256 {bs | bs ∈ hashedForSignature sample payFive ++
        hashedForSignature sample stolen} ∧
      payFive.txType = TX_REGULAR ∧ stolen.txType = TX_REGULAR ∧
      payFive.senderPubKey = stolen.senderPubKey ∧ payFive.signature = stolen.signature ∧
      payFive.verifySignature sample = true ∧
      stolen.verifySignature sample = true ∧ payFive.outputs ≠ stolen.outputs := by
  have hpass : payFive.verifySignature sample = true := verifySignature_sampleSigned rfl
  refine ⟨idealSignatures_sample, ?_, rfl, rfl, rfl, rfl, hpass,
    (verifySignature_replace _ _ _ _ _ _).trans hpass, by decide +kernel⟩
  have hinj : ∀ x ∈ hashedForSignature sample payFive, ∀ y ∈ hashedForSignature sample payFive,
      sample.sha256 x = sample.sha256 y → x = y := by decide +kernel
  intro x hx y hy
  exact hinj x ((mem_append.mp hx).elim id id) y ((mem_append.mp hy).elim id id)

end HybridChain
