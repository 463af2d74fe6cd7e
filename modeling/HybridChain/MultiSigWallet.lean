import HybridChain.Addresses
import HybridChain.UtxoSet

/-!
# Spending from a multi-signature wallet

`ExecuteMultiSigTransaction` counts the signatures under the keys of the wallet,
`ExecuteTransaction` under keys that its caller supplies. Neither looks at the list of owners, at
the sign of the amount or at what has been executed before.

A key may be nil in a map that a caller supplies, and not in a wallet, whose keys
`NewMultiSigWallet` reads. Amounts are rational.

## Main definitions

* `executeMultiSigTransaction`, `executeTransaction`, `validateSignatures`
* `Sound`: authorised by enough owners, no gain, and not executed before

## Main results

* `multiSigSpending_sound`, `sound_of_registered`: when spending is sound
-/

namespace HybridChain

open List
open KeyedLog (Store)
open Crypto (sample)

/-! ## The wallet -/

/-- `MultiSigwWallet`. -/
structure MultiSigWallet where
  owners : List String
  requiredSigs : ℤ
  balance : ℚ
  publicKeyMap : Store String (Option PublicKey)
  address : String

/-- `NewMultiSigWallet`; `none` is a panic. -/
def newMultiSigWallet (C : Crypto) (owners : List String) (requiredSigs : ℤ)
    (publicKeyMap : Store String PublicKey) : Option (Except String MultiSigWallet) :=
  if owners.length = 0 then some (.error "owners list cannot be empty")
  else if requiredSigs ≤ 0 ∨ requiredSigs > owners.length then
    some (.error "invalid number of required signatures")
  else do
    let address ← C.generateMultiSigAddress publicKeyMap
    some (.ok
      { owners := owners
        requiredSigs := requiredSigs
        balance := 0
        publicKeyMap := KeyedLog.mapValues some publicKeyMap
        address := address })

structure MultiSigTransaction extends Transaction where
  signatures : Store String String

namespace MultiSigTransaction

variable (C : Crypto) (tx : MultiSigTransaction) (publicKeyMap : Store String (Option PublicKey))

def hash : String := tx.toTransaction.hash C

/-- Whether the loop of `ValidateSignatures` counts an entry of the signatures. -/
def counts (owner signature : String) : Bool :=
  match publicKeyMap.lookup owner with
  | none => false
  | some none => false
  | some (some publicKey) => C.verifySignature publicKey (tx.hash C) signature

/-- The number of signatures that `ValidateSignatures` finds valid. -/
def validSigs : ℕ :=
  tx.signatures.entries.countP fun entry => tx.counts C publicKeyMap entry.1 entry.2

def validateSignatures (wallet : MultiSigWallet) : Bool :=
  (tx.validSigs C publicKeyMap : ℤ) ≥ wallet.requiredSigs

end MultiSigTransaction

namespace MultiSigWallet

variable (C : Crypto) (wallet : MultiSigWallet)

def addFunds (amount : ℚ) : MultiSigWallet := { wallet with balance := wallet.balance + amount }

def deductFunds (amount : ℚ) : Except String MultiSigWallet :=
  if wallet.balance < amount then .error "insufficient funds"
  else .ok { wallet with balance := wallet.balance - amount }

/-- `ExecuteMultiSigTransaction` of `blockchain.go`. -/
def executeMultiSigTransaction (tx : MultiSigTransaction) (utxoSet : Store String UTXO) :
    Except String (MultiSigWallet × Store String UTXO) :=
  if wallet.balance < tx.amount then .error "insufficient balance in multi-signature wallet"
  else if ¬ tx.validateSignatures C wallet.publicKeyMap wallet then
    .error "insufficient valid signatures for transaction"
  else
    match wallet.deductFunds tx.amount with
    | .error err => .error err
    | .ok wallet => .ok (wallet, updateUTXOSet tx.toTransaction utxoSet)

/-- `ExecuteTransaction` of `multi_sig_wallet.go`. -/
def executeTransaction (tx : MultiSigTransaction)
    (publicKeyMap : Store String (Option PublicKey)) : Except String MultiSigWallet :=
  if ¬ tx.validateSignatures C publicKeyMap wallet then
    .error "transaction validation failed due to insufficient or invalid signatures"
  else
    match wallet.deductFunds tx.amount with
    | .error err => .error ("failed to deduct funds: " ++ err)
    | .ok wallet => .ok wallet

end MultiSigWallet

/-! ## Signers -/

namespace MultiSigTransaction

variable (C : Crypto) (tx : MultiSigTransaction) (publicKeyMap : Store String (Option PublicKey))

/-- The names whose signature is valid under the key that a map has for them. -/
def signers : Finset String := tx.signatures.keys.filter fun owner =>
    ∃ signature ∈ tx.signatures.lookup owner, tx.counts C publicKeyMap owner signature

variable {C tx publicKeyMap} {owner : String}

lemma counts_iff {signature : String} : tx.counts C publicKeyMap owner signature = true ↔
    ∃ publicKey, publicKeyMap.lookup owner = some (some publicKey) ∧
      C.verifySignature publicKey (tx.hash C) signature = true := by
  rw [counts]
  rcases publicKeyMap.lookup owner with _ | _ | publicKey <;> simp

lemma mem_signers : owner ∈ tx.signers C publicKeyMap ↔
    ∃ signature, tx.signatures.lookup owner = some signature ∧
      tx.counts C publicKeyMap owner signature = true := by
  rw [signers, Finset.mem_filter]
  refine and_iff_right_of_imp ?_
  rintro ⟨signature, hsignature, -⟩
  exact Finmap.mem_keys.mpr (Finmap.mem_of_lookup_eq_some hsignature)

/-- **The loop counts signers**: the names of the entries it counts are the signers, and no two
entries have one name. -/
theorem validSigs_eq_card : tx.validSigs C publicKeyMap = (tx.signers C publicKeyMap).card := by
  obtain ⟨es, hes⟩ := KeyedLog.exists_enumerates tx.signatures
  let valid : String × String → Bool := fun entry => tx.counts C publicKeyMap entry.1 entry.2
  have hsigners : ((es.filter valid).map Prod.fst).toFinset = tx.signers C publicKeyMap := by
    ext owner
    simp only [mem_toFinset, mem_map, mem_filter, Prod.exists, exists_and_right,
      exists_eq_right, mem_signers, hes.mem_iff, valid]
  have hnodup : ((es.filter valid).map Prod.fst).Nodup :=
    hes.nodup_keys.sublist (filter_sublist.map _)
  calc tx.validSigs C publicKeyMap = es.countP valid := by
        rw [validSigs, ← hes, Multiset.coe_countP, countP_map]
        exact countP_congr fun _ _ => by simp [valid]
    _ = ((es.filter valid).map Prod.fst).length := by
        rw [length_map, countP_eq_length_filter]
    _ = (tx.signers C publicKeyMap).card := by
        rw [← hsigners, toFinset_card_of_nodup hnodup]

lemma signers_subset {publicKeyMap' : Store String (Option PublicKey)}
    (hsub : ∀ owner publicKey, publicKeyMap.lookup owner = some (some publicKey) →
      publicKeyMap'.lookup owner = some (some publicKey)) :
    tx.signers C publicKeyMap ⊆ tx.signers C publicKeyMap' := by
  intro owner howner
  obtain ⟨signature, hsignature, hcounts⟩ := mem_signers.mp howner
  obtain ⟨publicKey, hkey, hvalid⟩ := counts_iff.mp hcounts
  exact mem_signers.mpr
    ⟨signature, hsignature, counts_iff.mpr ⟨publicKey, hsub owner publicKey hkey, hvalid⟩⟩

lemma mem_of_mem_signers (howner : owner ∈ tx.signers C publicKeyMap) :
    owner ∈ publicKeyMap := by
  obtain ⟨signature, -, hcounts⟩ := mem_signers.mp howner
  obtain ⟨publicKey, hkey, -⟩ := counts_iff.mp hcounts
  exact Finmap.mem_of_lookup_eq_some hkey

end MultiSigTransaction

/-! ## Calls -/

inductive MultiSigCall where
  | executeMultiSigTransaction (tx : MultiSigTransaction) (utxoSet : Store String UTXO)
  | executeTransaction (tx : MultiSigTransaction) (publicKeyMap : Store String (Option PublicKey))

namespace MultiSigCall

def tx : MultiSigCall → MultiSigTransaction
  | executeMultiSigTransaction tx _ => tx
  | executeTransaction tx _ => tx

/-- The keys under which a call counts signatures. -/
def keys (wallet : MultiSigWallet) : MultiSigCall → Store String (Option PublicKey)
  | executeMultiSigTransaction _ _ => wallet.publicKeyMap
  | executeTransaction _ publicKeyMap => publicKeyMap

/-- The wallet after a call that succeeds. -/
def run (C : Crypto) (wallet : MultiSigWallet) : MultiSigCall → Except String MultiSigWallet
  | executeMultiSigTransaction tx utxoSet =>
    (wallet.executeMultiSigTransaction C tx utxoSet).map Prod.fst
  | executeTransaction tx publicKeyMap => wallet.executeTransaction C tx publicKeyMap

/-- What both calls check: the amount against the balance, and the number of signers. -/
def Passes (C : Crypto) (wallet : MultiSigWallet) (call : MultiSigCall) : Prop :=
  call.tx.amount ≤ wallet.balance ∧
    wallet.requiredSigs ≤ (call.tx.signers C (call.keys wallet)).card

end MultiSigCall

namespace MultiSigWallet

def debit (wallet : MultiSigWallet) (amount : ℚ) : MultiSigWallet :=
  { wallet with balance := wallet.balance - amount }

variable {wallet : MultiSigWallet} {amount : ℚ}

lemma deductFunds_of_le (h : amount ≤ wallet.balance) :
    wallet.deductFunds amount = .ok (wallet.debit amount) :=
  if_neg (not_lt.mpr h)

lemma deductFunds_of_lt (h : wallet.balance < amount) :
    wallet.deductFunds amount = .error "insufficient funds" :=
  if_pos h

end MultiSigWallet

variable {publicKeyMap : Store String (Option PublicKey)} {wallet : MultiSigWallet}

lemma MultiSigTransaction.validateSignatures_iff {C : Crypto} {tx : MultiSigTransaction} :
    tx.validateSignatures C publicKeyMap wallet = true ↔
      wallet.requiredSigs ≤ (tx.signers C publicKeyMap).card := by
  rw [validateSignatures, decide_eq_true_iff, validSigs_eq_card, ge_iff_le]

variable {call : MultiSigCall}

/-- **What the calls check.** The amount is taken from the balance if the checks pass, and nothing
happens otherwise. -/
theorem MultiSigCall.run_eq_ok_iff {C : Crypto} {wallet' : MultiSigWallet} : call.run C wallet = .ok
    wallet' ↔
      call.Passes C wallet ∧ wallet' = wallet.debit call.tx.amount := by
  cases call with
  | executeMultiSigTransaction tx utxoSet =>
    simp only [run, Passes, MultiSigCall.tx, keys, MultiSigWallet.executeMultiSigTransaction,
      MultiSigTransaction.validateSignatures_iff]
    rcases lt_or_ge wallet.balance tx.amount with hlt | hle
    · simp [hlt, Except.map, not_le.mpr hlt]
    · rw [if_neg (not_lt.mpr hle), MultiSigWallet.deductFunds_of_le hle]
      split_ifs with hsigs <;> simp_all [Except.map, eq_comm]
  | executeTransaction tx publicKeyMap =>
    simp only [run, Passes, MultiSigCall.tx, keys, MultiSigWallet.executeTransaction,
      MultiSigTransaction.validateSignatures_iff]
    rcases lt_or_ge wallet.balance tx.amount with hlt | hle
    · rw [MultiSigWallet.deductFunds_of_lt hlt]
      split_ifs with hsigs <;> simp [not_le.mpr hlt]
    · rw [MultiSigWallet.deductFunds_of_le hle]
      split_ifs with hsigs <;> simp_all [eq_comm]

/-! ## Runs -/

/-- A wallet and the transactions it has executed. -/
structure Spending where
  wallet : MultiSigWallet
  executed : List MultiSigTransaction := []

namespace Spending

variable (C : Crypto)

/-- A call, which changes nothing if it fails. -/
def step (s : Spending) (call : MultiSigCall) : Spending :=
  match call.run C s.wallet with
  | .ok wallet => { wallet := wallet, executed := call.tx :: s.executed }
  | .error _ => s

/-- At least as many owners as the wallet requires have signed, each under its registered key. -/
def Authorised (wallet : MultiSigWallet) (tx : MultiSigTransaction) : Prop :=
  wallet.requiredSigs ≤ (wallet.owners.toFinset ∩ tx.signers C wallet.publicKeyMap).card

/-- A call succeeds only if its transaction is authorised and has not been executed, and does not
add to the balance. -/
def Sound (s : Spending) (call : MultiSigCall) : Prop :=
  ∀ wallet, call.run C s.wallet = .ok wallet →
    Authorised C s.wallet call.tx ∧ wallet.balance ≤ s.wallet.balance ∧ call.tx ∉ s.executed

/-- `Sound`, for some content of a transaction that may be executed once. -/
def SoundFor {ι : Type} (content : MultiSigTransaction → ι) (s : Spending) (call : MultiSigCall) :
    Prop :=
  ∀ wallet, call.run C s.wallet = .ok wallet →
    Authorised C s.wallet call.tx ∧ wallet.balance ≤ s.wallet.balance ∧
      content call.tx ∉ s.executed.map content

variable {C} {call : MultiSigCall} {s : Spending} {ι : Type} {content : MultiSigTransaction → ι}

lemma step_of_passes (h : call.Passes C s.wallet) : s.step C call =
      { wallet := s.wallet.debit call.tx.amount, executed := call.tx :: s.executed } := by
  rw [step, MultiSigCall.run_eq_ok_iff.mpr ⟨h, rfl⟩]

lemma step_of_not_passes (h : ¬ call.Passes C s.wallet) : s.step C call = s := by
  rw [step]
  cases hrun : call.run C s.wallet with
  | ok wallet => exact absurd (MultiSigCall.run_eq_ok_iff.mp hrun).1 h
  | error err => rfl

/-- A property after a call: it holds before, and after a call that passes. -/
lemma step_induction {P : Spending → Prop} (hs : P s) (hpasses : call.Passes C s.wallet →
      P { wallet := s.wallet.debit call.tx.amount, executed := call.tx :: s.executed }) :
    P (s.step C call) := by
  by_cases h : call.Passes C s.wallet
  · rw [step_of_passes h]
    exact hpasses h
  · rwa [step_of_not_passes h]

/-- **What soundness asks of a call that passes the checks.** -/
lemma soundFor_iff : SoundFor C content s call ↔ (call.Passes C s.wallet →
    Authorised C s.wallet call.tx ∧ 0 ≤ call.tx.amount ∧
      content call.tx ∉ s.executed.map content) := by
  constructor
  · intro h hpasses
    obtain ⟨hauth, hle, hnew⟩ := h _ (MultiSigCall.run_eq_ok_iff.mpr ⟨hpasses, rfl⟩)
    exact ⟨hauth, sub_le_self_iff _ |>.mp hle, hnew⟩
  · rintro h wallet hrun
    obtain ⟨hpasses, rfl⟩ := MultiSigCall.run_eq_ok_iff.mp hrun
    obtain ⟨hauth, hnonneg, hnew⟩ := h hpasses
    exact ⟨hauth, sub_le_self _ hnonneg, hnew⟩

/-! ### Registered keys -/

/-- A call changes nothing of the wallet but its balance. -/
lemma exists_balance_step (s : Spending) (call : MultiSigCall) :
    ∃ balance, (s.step C call).wallet = { s.wallet with balance := balance } :=
  step_induction (P := fun t => ∃ balance, t.wallet = { s.wallet with balance := balance })
    ⟨_, rfl⟩ fun _ => ⟨_, rfl⟩

/-- A call executes its own transaction or none. -/
lemma executed_step_subset (s : Spending) (call : MultiSigCall) :
    (s.step C call).executed ⊆ call.tx :: s.executed :=
  step_induction (P := fun t => t.executed ⊆ call.tx :: s.executed)
    (subset_cons_self _ _) fun _ => List.Subset.refl _

/-- A call counts no key that the wallet has not registered. -/
def CountsRegistered (wallet : MultiSigWallet) (call : MultiSigCall) : Prop :=
  ∀ owner publicKey, (call.keys wallet).lookup owner = some (some publicKey) →
    wallet.publicKeyMap.lookup owner = some (some publicKey)

lemma countsRegistered_executeMultiSigTransaction (wallet : MultiSigWallet)
    (tx : MultiSigTransaction) (utxoSet : Store String UTXO) :
    CountsRegistered wallet (.executeMultiSigTransaction tx utxoSet) :=
  fun _ _ h => h

variable {calls : List MultiSigCall} {wallet : MultiSigWallet}

lemma CountsRegistered.of_balance (h : CountsRegistered wallet call) (balance : ℚ) :
    CountsRegistered { wallet with balance := balance } call := by
  cases call with
  | executeMultiSigTransaction tx utxoSet =>
    exact countsRegistered_executeMultiSigTransaction _ tx utxoSet
  | executeTransaction tx publicKeyMap => exact h

/-- With registered keys only, the checks ask for the signatures of owners. -/
lemma authorised_of_passes (howners : ∀ owner ∈ wallet.publicKeyMap, owner ∈ wallet.owners)
    (hkeys : CountsRegistered wallet call) (hpasses : call.Passes C wallet) :
    Authorised C wallet call.tx := by
  have hsub : call.tx.signers C (call.keys wallet) ⊆
      wallet.owners.toFinset ∩ call.tx.signers C wallet.publicKeyMap := by
    intro owner howner
    have hregistered := MultiSigTransaction.signers_subset hkeys howner
    have hmem := howners owner (MultiSigTransaction.mem_of_mem_signers hregistered)
    exact Finset.mem_inter.mpr ⟨mem_toFinset.mpr hmem, hregistered⟩
  exact hpasses.2.trans (Int.ofNat_le.mpr (Finset.card_le_card hsub))

/-- **Registered keys, for some content.**

**Proof sketch.** By induction over the calls, for every state whose executed contents are not among
those to come; the wallet keeps its owners and keys. -/
lemma soundFor_of_registered (howners : ∀ owner ∈ s.wallet.publicKeyMap, owner ∈ s.wallet.owners)
    (hkeys : ∀ call ∈ calls, CountsRegistered s.wallet call)
    (hamounts : ∀ call ∈ calls, 0 ≤ call.tx.amount)
    (hnodup : (calls.map fun call => content call.tx).Nodup)
    (hnew : ∀ call ∈ calls, content call.tx ∉ s.executed.map content) :
    Run.Along (step C) (SoundFor C content) s calls := by
  induction calls generalizing s with
  | nil => trivial
  | cons call calls ih =>
    rw [forall_mem_cons] at hkeys hamounts hnew
    rw [map_cons, nodup_cons] at hnodup
    refine ⟨soundFor_iff.mpr fun hpasses => ?_, ?_⟩
    · exact ⟨authorised_of_passes howners hkeys.1 hpasses, hamounts.1, hnew.1⟩
    · obtain ⟨balance, hwallet⟩ := exists_balance_step (C := C) s call
      refine ih ?_ ?_ hamounts.2 hnodup.2 fun later hlater hmem => ?_
      · rw [hwallet]
        exact howners
      · rw [hwallet]
        exact fun later hlater => (hkeys.2 later hlater).of_balance balance
      · obtain ⟨tx, htx, heq⟩ := mem_map.mp hmem
        rcases mem_cons.mp (executed_step_subset s call htx) with rfl | hmem
        · exact hnodup.1 (heq ▸ mem_map_of_mem hlater)
        · exact hnew.2 later hlater (heq ▸ mem_map_of_mem hmem)

/-- **Registered keys.** If the keys of a wallet are those of owners, no other keys are counted, no
amount is negative and no transaction is sent twice, then all successes of a run are sound. -/
theorem sound_of_registered (howners : ∀ owner ∈ s.wallet.publicKeyMap, owner ∈ s.wallet.owners)
    (hkeys : ∀ call ∈ calls, CountsRegistered s.wallet call)
    (hamounts : ∀ call ∈ calls, 0 ≤ call.tx.amount) (hnodup : (calls.map MultiSigCall.tx).Nodup)
    (hnew : ∀ call ∈ calls, call.tx ∉ s.executed) :
    Run.Along (step C) (Sound C) s calls := by
  have hsound : Run.Along (step C) (SoundFor C id) s calls :=
    soundFor_of_registered howners hkeys hamounts hnodup (by simpa using hnew)
  refine hsound.imp fun s call h wallet hrun => ?_
  simpa using h wallet hrun

end Spending

/-- **When spending is sound**: if the keys of a wallet are those of owners, no other keys are
counted, no amount is negative and no hash is sent twice, then the successes of a run are authorised
by enough owners, add nothing to the balance, and are the first ones for their hash. -/
theorem multiSigSpending_sound (C : Crypto) (wallet : MultiSigWallet) (calls : List MultiSigCall)
    (howners : ∀ owner ∈ wallet.publicKeyMap, owner ∈ wallet.owners)
    (hkeys : ∀ call ∈ calls, Spending.CountsRegistered wallet call)
    (hamounts : ∀ call ∈ calls, 0 ≤ call.tx.amount)
    (hhashes : (calls.map fun call => call.tx.hash C).Nodup) :
    Run.Along (Spending.step C) (Spending.SoundFor C (MultiSigTransaction.hash C)) ⟨wallet, []⟩
      calls :=
  Spending.soundFor_of_registered howners hkeys hamounts hhashes (by simp)

/-! ### Four ways around the checks -/

def signedPayment (name : String) (amount : ℚ) : MultiSigTransaction :=
  let tx : Transaction :=
    { transactionID := "t", sender := "wallet", receiver := "bob", amount := amount }
  let digest := sample.sha256 (Text.bytes (tx.hash sample))
  { toTransaction := tx
    signatures := Finmap.singleton name (Text.hex (digest.toList ++ List.replicate 32 0)) }

variable {amount : ℚ} {publicKey : PublicKey} {name : String}

lemma signers_signedPayment
    (hkey : publicKeyMap.lookup name = some (some publicKey)) :
    (signedPayment name amount).signers sample publicKeyMap = {name} := by
  ext owner
  rw [MultiSigTransaction.mem_signers, Finset.mem_singleton]
  constructor
  · rintro ⟨signature, hsignature, -⟩
    exact (Finmap.mem_singleton _ _ _).mp (Finmap.mem_of_lookup_eq_some hsignature)
  · rintro rfl
    refine ⟨_, Finmap.lookup_singleton_eq, MultiSigTransaction.counts_iff.mpr ⟨publicKey, hkey, ?_⟩⟩
    exact verifySignature_sample publicKey _

def aliceWallet (publicKeyMap : Store String PublicKey) (address : String) : MultiSigWallet :=
  { owners := ["alice"], requiredSigs := 1, balance := 5,
    publicKeyMap := KeyedLog.mapValues some publicKeyMap, address := address }

lemma newMultiSigWallet_alice (publicKeyMap : Store String PublicKey) :
    ∃ wallet address, newMultiSigWallet sample ["alice"] 1 publicKeyMap =
      some (.ok wallet) ∧ wallet.addFunds 5 = aliceWallet publicKeyMap address := by
  obtain ⟨address, haddress⟩ : ∃ address,
      sample.generateMultiSigAddress publicKeyMap = some address :=
    ⟨_, Crypto.generateMultiSigAddress_eq _ _⟩
  refine ⟨{ aliceWallet publicKeyMap address with balance := 0 }, address, ?_, ?_⟩
  · rw [newMultiSigWallet, if_neg (by decide), if_neg (by decide), haddress]
    rfl
  · rw [MultiSigWallet.addFunds, zero_add]
    rfl

lemma passes_signedPayment (htx : call.tx = signedPayment name amount)
    (hrequired : wallet.requiredSigs = 1) (hamount : amount ≤ wallet.balance)
    (hkey : (call.keys wallet).lookup name = some (some publicKey)) :
    call.Passes sample wallet := by
  rw [MultiSigCall.Passes, htx, signers_signedPayment hkey, Finset.card_singleton, hrequired]
  exact ⟨hamount, le_rfl⟩

lemma not_authorised_signedPayment {publicKeyMap : Store String PublicKey} {address name : String}
    (hname : name ≠ "alice") : ¬ Spending.Authorised sample (aliceWallet publicKeyMap address)
      (signedPayment name amount) := by
  have hnone : ["alice"].toFinset ∩ (signedPayment name amount).signers sample
      (aliceWallet publicKeyMap address).publicKeyMap = ∅ := by
    refine Finset.eq_empty_of_forall_notMem fun owner howner => ?_
    obtain ⟨halice, hsigner⟩ := Finset.mem_inter.mp howner
    obtain ⟨signature, hsignature, -⟩ := MultiSigTransaction.mem_signers.mp hsigner
    have howner : owner = name :=
      (Finmap.mem_singleton _ _ _).mp (Finmap.mem_of_lookup_eq_some hsignature)
    rw [mem_toFinset, mem_singleton] at halice
    exact hname (howner.symm.trans halice)
  have hcard : ¬ (1 : ℤ) ≤ ((∅ : Finset String).card : ℕ) := by decide
  rw [← hnone] at hcard
  exact hcard

def aliceKey : PublicKey := ⟨1, 2⟩

def suppliedKeys : Store String (Option PublicKey) := Finmap.singleton "alice" (some aliceKey)

lemma lookup_suppliedKeys : suppliedKeys.lookup "alice" = some (some aliceKey) := by
  rw [suppliedKeys, Finmap.lookup_singleton_eq]

/-- A payment under the keys of the wallet, and one under a supplied map. -/
def twoPaymentsOfAlice : List MultiSigCall :=
  [.executeMultiSigTransaction (signedPayment "alice" 2) ∅,
    .executeTransaction (signedPayment "alice" 1) suppliedKeys]

lemma lookup_mapValues_alice :
    (KeyedLog.mapValues some (Finmap.singleton "alice" aliceKey)).lookup "alice" =
      some (some aliceKey) := by
  rw [KeyedLog.lookup_mapValues, Finmap.lookup_singleton_eq]
  rfl

lemma countsRegistered_twoPaymentsOfAlice : ∀ call ∈ twoPaymentsOfAlice,
    Spending.CountsRegistered (aliceWallet (Finmap.singleton "alice" aliceKey) "") call := by
  simp only [twoPaymentsOfAlice, forall_mem_cons, not_mem_nil, IsEmpty.forall_iff,
    implies_true, and_true]
  refine ⟨Spending.countsRegistered_executeMultiSigTransaction _ _ _, fun owner publicKey h => ?_⟩
  have hsupplied : suppliedKeys.lookup owner = some (some publicKey) := h
  obtain rfl : owner = "alice" :=
    (Finmap.mem_singleton _ _ _).mp (Finmap.mem_of_lookup_eq_some hsupplied)
  exact lookup_mapValues_alice.trans (lookup_suppliedKeys.symm.trans hsupplied)

lemma nonneg_twoPaymentsOfAlice : ∀ call ∈ twoPaymentsOfAlice, 0 ≤ call.tx.amount := by
  simp [twoPaymentsOfAlice, MultiSigCall.tx, signedPayment]

theorem multiSigSpending_sound_alice : Run.Along (Spending.step sample) (Spending.Sound sample)
      ⟨aliceWallet (Finmap.singleton "alice" aliceKey) "", []⟩ twoPaymentsOfAlice := by
  refine Spending.sound_of_registered (by decide) countsRegistered_twoPaymentsOfAlice
    nonneg_twoPaymentsOfAlice ?_ (by simp)
  have hne : signedPayment "alice" 2 ≠ signedPayment "alice" 1 := fun h =>
    absurd (congrArg (fun tx => tx.amount) h) (show (2 : ℚ) ≠ 1 by norm_num)
  simpa [twoPaymentsOfAlice, MultiSigCall.tx] using hne

theorem multiSigSpending_sound_twoPayments :
    ((signedPayment "alice" 1).signers sample suppliedKeys).card = 1 ∧
      Run.Along (Spending.step sample) (Spending.SoundFor sample (MultiSigTransaction.hash sample))
        ⟨aliceWallet (Finmap.singleton "alice" aliceKey) "", []⟩ twoPaymentsOfAlice := by
  refine ⟨?_, multiSigSpending_sound sample _ _ (by decide)
    countsRegistered_twoPaymentsOfAlice nonneg_twoPaymentsOfAlice ?_⟩
  · rw [signers_signedPayment lookup_suppliedKeys, Finset.card_singleton]
  · have hne : (signedPayment "alice" 2).hash sample ≠
        (signedPayment "alice" 1).hash sample := by decide +kernel
    simpa [twoPaymentsOfAlice, MultiSigCall.tx] using hne

def malloryKey : PublicKey := ⟨3, 4⟩

/-- A payment that `mallory` has signed goes through with a map that `mallory` supplies, and from a
wallet that has a key for `mallory` among its keys; a negative amount adds to the balance; and the
same payment goes through twice. -/
theorem multiSigSpending_unsound :
    let signedOnce := Spending.SoundFor sample (MultiSigTransaction.hash sample)
    (∃ wallet, newMultiSigWallet sample ["alice"] 1 (Finmap.singleton "alice" aliceKey) =
        some (.ok wallet) ∧ ¬ Run.Along (Spending.step sample) signedOnce ⟨wallet.addFunds 5, []⟩
        [.executeTransaction (signedPayment "mallory" 5)
          (Finmap.singleton "mallory" (some malloryKey))] ∧
      ¬ Run.Along (Spending.step sample) signedOnce
        ⟨wallet.addFunds 5, []⟩ [.executeMultiSigTransaction (signedPayment "alice" (-1)) ∅] ∧
      ¬ Run.Along (Spending.step sample) signedOnce
        ⟨wallet.addFunds 5, []⟩ [.executeMultiSigTransaction (signedPayment "alice" 2) ∅,
          .executeMultiSigTransaction (signedPayment "alice" 2) ∅]) ∧
    ∃ wallet, newMultiSigWallet sample ["alice"] 1
        ((Finmap.singleton "alice" aliceKey).insert "mallory" malloryKey) = some (.ok wallet) ∧
      ¬ Run.Along (Spending.step sample) signedOnce
        ⟨wallet.addFunds 5, []⟩ [.executeMultiSigTransaction (signedPayment "mallory" 5) ∅] := by
  intro signedOnce
  refine ⟨?_, ?_⟩
  · obtain ⟨wallet, address, hnew, hwallet⟩ :=
      newMultiSigWallet_alice (Finmap.singleton "alice" aliceKey)
    refine ⟨wallet, hnew, ?_, ?_, ?_⟩
    · rw [hwallet]
      rintro ⟨hsound, -⟩
      have hadmissible := Spending.soundFor_iff.mp hsound
        (passes_signedPayment rfl rfl le_rfl Finmap.lookup_singleton_eq)
      exact not_authorised_signedPayment (by decide) hadmissible.1
    · rw [hwallet]
      rintro ⟨hsound, -⟩
      have hadmissible := Spending.soundFor_iff.mp hsound
        (passes_signedPayment rfl rfl (show (-1 : ℚ) ≤ 5 by norm_num) lookup_mapValues_alice)
      exact absurd hadmissible.2.1 (show ¬ (0 : ℚ) ≤ -1 by norm_num)
    · rw [hwallet]
      rintro ⟨-, hsound, -⟩
      rw [Spending.step_of_passes (passes_signedPayment rfl rfl
        (show (2 : ℚ) ≤ 5 by norm_num) lookup_mapValues_alice)] at hsound
      -- three tokens are left
      have hadmissible := Spending.soundFor_iff.mp hsound
        (passes_signedPayment rfl rfl (show (2 : ℚ) ≤ 5 - 2 by norm_num) lookup_mapValues_alice)
      exact hadmissible.2.2 (mem_map_of_mem mem_cons_self)
  · obtain ⟨wallet, address, hnew, hwallet⟩ :=
      newMultiSigWallet_alice ((Finmap.singleton "alice" aliceKey).insert "mallory" malloryKey)
    refine ⟨wallet, hnew, ?_⟩
    rw [hwallet]
    rintro ⟨hsound, -⟩
    have hkey : (KeyedLog.mapValues some
        ((Finmap.singleton "alice" aliceKey).insert "mallory" malloryKey)).lookup "mallory" =
          some (some malloryKey) := by
      rw [KeyedLog.lookup_mapValues, Finmap.lookup_insert]
      rfl
    have hadmissible := Spending.soundFor_iff.mp hsound (passes_signedPayment rfl rfl le_rfl hkey)
    exact not_authorised_signedPayment (by decide) hadmissible.1

end HybridChain
