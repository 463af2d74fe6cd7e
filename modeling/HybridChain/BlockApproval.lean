import HybridChain.BlockJson

/-!
# What an approval guarantees

`handleMinerBlockValidationRequest` of a validator (`p2p.go`) answers a miner's block with a
signature if it finds it valid. It computes no hash where the message brings one, and looks neither
at the difficulty nor at the number of the parent; the decoder has replaced a wrong Merkle root.

A block without a header crashes the decoder and is not answered. `ecdsa.Sign` is a parameter of the
wallet. Errors leave out what the decoders say.

## Main definitions

* `handleMinerBlockValidationRequest`, `validateBlockStructure`, `signBlock`
* `RealBlock`: what an approved block should be

## Main results

* `approvals_real_iff`: approvals mean this only if none is given
-/

namespace HybridChain

open Crypto (sample)

/-! ## The handler -/

/-- The wallet of a validator: its address, and `ecdsa.Sign` with its key. -/
structure SigningWallet where
  address : String
  ecdsaSign : List UInt8 → Option (ℕ × ℕ)

def SigningWallet.signBlock (C : Crypto) (w : SigningWallet) (block : Block) :
    Except String (List UInt8) :=
  match Text.unhex (block.getHash C) with
  | none => .error "invalid block hash"
  | some hashBytes =>
    match w.ecdsaSign hashBytes with
    | none => .error "signing failed"
    | some (r, s) =>
      let signature := bigBytes r ++ bigBytes s
      .ok (List.replicate (64 - signature.length) 0 ++ signature)

structure VerificationResponse where
  valid : Bool
  error : String := ""
  signature : List UInt8 := []
  address : String := ""
  blockHash : String := ""

def sendValidatorVerificationResponse (C : Crypto) (wallet : Option SigningWallet)
    (block : Block) (valid : Bool) (errMsg : String) : VerificationResponse :=
  match valid, wallet with
  | true, some w =>
    match w.signBlock C block with
    | .error _ => { valid := false, error := "failed to create validator signature" }
    | .ok signature =>
      { valid := true
        error := errMsg
        signature := signature
        address := w.address
        blockHash := block.getHash C }
  | _, _ => { valid := valid, error := errMsg }

def validateBlockStructure (C : Crypto) (block : Block) : Except String Unit :=
  if block.getHash C = "" then .error "block data is empty"
  else if block.header.merkleRoot = "" then .error "block merkle root is empty"
  else if block.header.stateRoot = "" then .error "block state root is empty"
  else if block.header.timestamp ≤ 0 then .error "block timestamp is zero or negative"
  else .ok ()

namespace Node

variable (C : Crypto) (n : Node)

/-- The check of the previous block: what is wrong with it, if anything. -/
def previousError (block : Block) : Option String :=
  if block.header.blockNumber > 0 then
    match n.blockchain.getBlock C block.header.previousHash with
    | .error err => some s!"previous block not found: {err}"
    | .ok prevBlock =>
      if block.header.previousHash ≠ prevBlock.getHash C then some "invalid previous block hash"
      else none
  else none

/-- What the validation of a block finds wrong, if anything. -/
def validationError (block : Block) : Option String :=
  match n.previousError C block with
  | some err => some err
  | none =>
    match validateBlockStructure C block with
    | .error err => some s!"invalid block structure: {err}"
    | .ok _ =>
      (block.transactions.find? fun tx => !tx.verifySignature C).map fun tx =>
        s!"invalid transaction signature in tx {tx.transactionID}"

/-- `handleMinerBlockValidationRequest`: the answer to a block, which is nothing if the message
cannot be decoded. `order` is the order in which the map of stakes is enumerated. -/
def handleMinerBlockValidationRequest (wallet : Option SigningWallet) (order : List String)
    (now : ℤ) (data : Option Block) : VerificationResponse :=
  match data with
  | none => { valid := false, error := "Error deserializing block" }
  | some block =>
    let respond := sendValidatorVerificationResponse C wallet block
    match wallet with
    | none => respond false "validator wallet not configured"
    | some w =>
      match n.blockchain.stakePool.getValidators order now 0 with
      | .error err => respond false s!"failed to get validators: {err}"
      | .ok validators =>
        if ¬ validators.any (fun validator => validator.address = w.address) then
          respond false s!"not a registered validator: {w.address}"
        else
          match n.validationError C block with
          | some err => respond false err
          | none => respond true ""

/-- The node is among the validators. -/
def Registered (order : List String) (now : ℤ) (address : String) : Prop :=
  ∃ validators, n.blockchain.stakePool.getValidators order now 0 = .ok validators ∧
    ∃ validator ∈ validators, validator.address = address

/-- The node has a wallet, is among the validators, and can sign some bytes. -/
def CanApprove (wallet : Option SigningWallet) (order : List String) (now : ℤ) : Prop :=
  ∃ w, wallet = some w ∧ n.Registered order now w.address ∧
    ∃ bytes, bytes ≠ [] ∧ (w.ecdsaSign bytes).isSome

end Node

/-- **What an approved block should be**: its hash is that of the header in the message and shows
the work asked for, its number follows that of its parent, and the Merkle root in the message is
that of its transactions, in some enumeration. -/
def RealBlock (C : Crypto) (bc : Blockchain) (j : Json) (block : Block) : Prop :=
  ∃ simplified header, SimplifiedBlock.codec.decode j = some simplified ∧
    simplified.header = some header ∧
    block.getHash C = calculateHash C header ∧
    isHashValid (block.getHash C) header.difficulty = true ∧
    (∃ parent, bc.getBlock C header.previousHash = .ok parent ∧
      header.blockNumber = parent.header.blockNumber + 1) ∧
    ∃ trie, PatriciaTrie.Enumerates
        (PatriciaTrie.new.insertBatch C simplified.body.transactions.txList) trie ∧
      header.merkleRoot = trie.rootHash C

/-! ## What is checked -/

section

variable {C : Crypto} {w : SigningWallet} {block : Block} (hash : String)

lemma SigningWallet.signBlock_isOk_iff : (∃ signature, w.signBlock C block = .ok signature) ↔
      ∃ bytes, Text.unhex (block.getHash C) = some bytes ∧ (w.ecdsaSign bytes).isSome := by
  rw [signBlock]
  cases Text.unhex (block.getHash C) with
  | none => simp
  | some bytes => cases hsign : w.ecdsaSign bytes <;> simp [hsign]

lemma ne_nil_of_unhex {s : String} {bytes : List UInt8} (hs : s ≠ "")
    (h : Text.unhex s = some bytes) : bytes ≠ [] := by
  rintro rfl
  rw [Text.unhex] at h
  cases hchars : s.toList with
  | nil => exact hs (String.toList_inj.mp (hchars.trans rfl))
  | cons c rest =>
    cases rest with
    | nil => simp [hchars, Text.unhexChars] at h
    | cons d rest => simp [hchars, Text.unhexChars, Option.bind_eq_some_iff] at h

lemma valid_respond_iff {valid : Bool} {errMsg : String} :
    (sendValidatorVerificationResponse C (some w) block valid errMsg).valid = true ↔
      valid = true ∧ ∃ signature, w.signBlock C block = .ok signature := by
  cases valid with
  | false => simp [sendValidatorVerificationResponse]
  | true => cases hsign : w.signBlock C block <;> simp [sendValidatorVerificationResponse, hsign]

namespace Node

variable {n : Node} {wallet : Option SigningWallet} {order : List String} {now : ℤ}

/-- **What the handler checks.** -/
lemma valid_iff {block : Block} :
    (n.handleMinerBlockValidationRequest C wallet order now (some block)).valid = true ↔
      ∃ w, wallet = some w ∧ n.Registered order now w.address ∧
        n.validationError C block = none ∧ ∃ signature, w.signBlock C block = .ok signature := by
  cases wallet with
  | none => simp [handleMinerBlockValidationRequest, sendValidatorVerificationResponse]
  | some w =>
    simp only [handleMinerBlockValidationRequest, Option.some.injEq, exists_eq_left', Registered]
    cases hvalidators : n.blockchain.stakePool.getValidators order now 0 with
    | error err => simp [valid_respond_iff]
    | ok validators =>
      simp only [Except.ok.injEq, exists_eq_left', List.any_eq_true, decide_eq_true_eq]
      by_cases hregistered : ∃ validator ∈ validators, validator.address = w.address
      · cases herror : n.validationError C block <;> simp [hregistered, valid_respond_iff]
      · simp [hregistered, valid_respond_iff]

lemma validationError_eq_none_iff {block : Block} :
    n.validationError C block = none ↔ n.previousError C block = none ∧
      block.header.merkleRoot ≠ "" ∧ block.header.stateRoot ≠ "" ∧ 0 < block.header.timestamp ∧
      ∀ tx ∈ block.transactions, tx.verifySignature C = true := by
  rw [validationError]
  cases n.previousError C block with
  | some err => simp
  | none =>
    simp only [validateBlockStructure, Block.getHash_ne_empty, if_false]
    split_ifs with hmerkle hstate htime
    · simp [hmerkle]
    · simp [hstate]
    · simp [htime]
    · simp [hmerkle, hstate, not_le.mp htime]

end Node

/-! ## A block without a body -/

/-- A message about a block without transactions and without a parent, with a Merkle root that is
none and with a hash of one's own. -/
def forgedMessage (hash : String) : SimplifiedBlock where
  originalHash := hash
  header := some { merkleRoot := "root", stateRoot := "root", timestamp := 1, difficulty := 1 }

/-- What the decoder makes of the message. -/
def forgedBlock (C : Crypto) (hash : String) : Block := Block.restoreWith C (forgedMessage hash)
    { merkleRoot := "root", stateRoot := "root", timestamp := 1, difficulty := 1 } .new

lemma decodes_forgedMessage :
    Block.Decodes C (SimplifiedBlock.codec.encode (forgedMessage hash)) (forgedBlock C hash) :=
  (Block.decodes_encode_iff rfl).mpr ⟨.new, .refl _, rfl⟩

lemma header_forgedBlock : (forgedBlock C hash).header =
      { merkleRoot := "root", stateRoot := "root", timestamp := 1, difficulty := 1 } :=
  (Block.header_restoreWith_eq_iff _ _ _).mpr (.inr (.inl rfl))

lemma rootHash_of_enumerates_new {trie : PatriciaTrie}
    (h : PatriciaTrie.Enumerates (PatriciaTrie.new.insertBatch C []) trie) :
    trie.rootHash C = C.hashHex (Text.bytes "") := by
  have hchildren : trie.root.children = [] := h.children_eq_nil.mp rfl
  simp [PatriciaTrie.rootHash, PatriciaTrie.generateRootHash, hchildren]

lemma not_realBlock_forged (bc : Blockchain) (hash : String) :
    ¬ RealBlock C bc (SimplifiedBlock.codec.encode (forgedMessage hash)) (forgedBlock C hash) := by
  rintro ⟨simplified, header, hdecode, hheader, -, -, -, trie, htrie, hroot⟩
  rw [SimplifiedBlock.codec.decode_encode] at hdecode
  obtain rfl := Option.some.inj hdecode
  obtain rfl := Option.some.inj hheader
  rw [rootHash_of_enumerates_new htrie] at hroot
  have hne : C.hashHex (Text.bytes "") ≠ "root" := C.hashHex_ne_of_length (by decide)
  exact hne hroot.symm

namespace Node

variable {n : Node} {wallet : Option SigningWallet} {order : List String} {now : ℤ}

/-- **A node that can approve anything approves the block without a body**, under a hash of which it
can sign the bytes. -/
lemma approves_forged (h : n.CanApprove wallet order now) :
    ∃ hash, (n.handleMinerBlockValidationRequest C wallet order now
      (some (forgedBlock C hash))).valid = true := by
  obtain ⟨w, hwallet, hregistered, bytes, hbytes, hsign⟩ := h
  refine ⟨Text.hex bytes, valid_iff.mpr ⟨w, hwallet, hregistered, ?_, ?_⟩⟩
  · have hnone : (forgedBlock C (Text.hex bytes)).transactions = [] :=
      (Block.transactions_restoreWith _ _ _).trans rfl
    rw [validationError_eq_none_iff, previousError, header_forgedBlock, hnone]
    simp
  · have hhash : Text.hex bytes ≠ "" := fun heq => hbytes (Text.hex_inj (heq.trans rfl))
    have hget : (forgedBlock C (Text.hex bytes)).getHash C = Text.hex bytes := if_pos hhash
    exact SigningWallet.signBlock_isOk_iff.mpr ⟨bytes, by rw [hget, Text.unhex_hex], hsign⟩

lemma canApprove_of_valid {block : Block}
    (h : (n.handleMinerBlockValidationRequest C wallet order now (some block)).valid = true) :
    n.CanApprove wallet order now := by
  obtain ⟨w, hwallet, hregistered, -, hsigned⟩ := valid_iff.mp h
  obtain ⟨bytes, hunhex, hsign⟩ := SigningWallet.signBlock_isOk_iff.mp hsigned
  exact ⟨w, hwallet, hregistered, bytes, ne_nil_of_unhex (Block.getHash_ne_empty C block) hunhex,
    hsign⟩

/-- **Approved blocks are real** exactly if the node cannot approve any: it has no wallet, is not
registered, or cannot sign. -/
theorem approvals_real_iff (C : Crypto) (n : Node) (wallet : Option SigningWallet)
    (order : List String) (now : ℤ) : (∀ j block, Block.Decodes C j block →
      (n.handleMinerBlockValidationRequest C wallet order now (some block)).valid = true →
      RealBlock C n.blockchain j block) ↔ ¬ n.CanApprove wallet order now := by
  constructor
  · intro hreal hcan
    obtain ⟨hash, hvalid⟩ := approves_forged (C := C) hcan
    exact not_realBlock_forged _ hash (hreal _ _ (decodes_forgedMessage hash) hvalid)
  · intro hcannot j block _ hvalid
    exact absurd (canApprove_of_valid hvalid) hcannot

def loneValidator : Node where
  blockchain := { stakePool := { stakes := Finmap.singleton "validator" (.fresh 1) } }

def willingWallet : SigningWallet where
  address := "validator"
  ecdsaSign _ := some (1, 1)

/-- A block is approved whose hash is not that of its header and shows no work, which has no parent,
and whose Merkle root is not that of its transactions. -/
theorem forged_block_approved :
    Block.Decodes sample (SimplifiedBlock.codec.encode (forgedMessage "ab"))
        (forgedBlock sample "ab") ∧
      (loneValidator.handleMinerBlockValidationRequest sample (some willingWallet)
        ["validator"] 1 (some (forgedBlock sample "ab"))).valid = true ∧
      (forgedBlock sample "ab").getHash sample ≠
        calculateHash sample (forgedBlock sample "ab").header ∧
      isHashValid ((forgedBlock sample "ab").getHash sample)
        (forgedBlock sample "ab").header.difficulty = false ∧
      (loneValidator.blockchain.getBlock sample "").toOption.isNone ∧
      (forgedBlock sample "ab").header.merkleRoot ≠ PatriciaTrie.new.rootHash sample :=
  ⟨decodes_forgedMessage "ab", by decide +kernel⟩

end Node

end

end HybridChain
