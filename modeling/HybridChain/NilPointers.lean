import HybridChain.BlockApproval

/-!
# Nil pointers in blocks of peers

The header, the body and the trie of a block are pointers, and a JSON document may leave any of them
out. `Block.UnmarshalJSON` reads the root of the header without asking whether there is one;
`handleBlockStream` (`p2p.go`) does not look at the trie, which `ValidateBlock` goes through.

`GetAllTransactions` skips nil nodes: a trie with a nil root is read as an empty one, and nil
children are dropped. The blocks in memory have no nil pointers; those of the database are
documents. A key that occurs twice in an object counts once, with its last value.

## Main definitions

* `NilPointer`: which pointer was followed
* `Block.unmarshalOrCrash`, `Node.handleBlockStreamOrCrash`: the functions, with pointers

## Main results

* `handleBlockStream_of_ok`: without a crash they are those without pointers
* `peerBlock_crash_iff`: what crashes a node
-/

namespace HybridChain

open Option

inductive NilPointer where
  | header
  | body
  | transactions
  deriving DecidableEq

def deref {α : Type} (p : NilPointer) : Option α → Except NilPointer α
  | none => .error p
  | some a => .ok a

section

variable {α β : Type} (p : NilPointer) (a : α) (f : α → Except NilPointer β)

@[simp] lemma deref_some : deref p (some a) = .ok a := rfl

@[simp] lemma deref_none : deref p (none : Option α) = .error p := rfl

lemma ok_bind : (Except.ok a >>= f) = f a := rfl

lemma error_bind : (Except.error p >>= f) = .error p := rfl

lemma pure_eq_ok : (pure a : Except NilPointer α) = .ok a := rfl

end

/-! ## Documents -/

lemma Transaction.encode_ne_null (tx : Transaction) : Transaction.codec.encode tx ≠ .null := nofun

lemma BlockHeader.encode_ne_null (header : BlockHeader) :
    BlockHeader.codec.encode header ≠ .null := nofun

/-- A key of a `map[byte]`. -/
def readLabel (label : String) : Option UInt8 :=
  let digits := label.toList
  if digits = [] ∨ ¬ digits.all Char.isDigit then none
  else
    let n := Nat.ofDigitChars 10 digits 0
    if n < 256 then some (UInt8.ofNat n) else none

mutual

def readNode : Json → Option (Option PatriciaNode)
  | .null => some none
  | .obj fields => (readNodeFields fields ({}, [])).map fun (a, cs) => some (.node a cs)
  | _ => none

/-- The fields of a node, on top of those read so far. Others are skipped. -/
def readNodeFields : List (String × Json) → NodeData × List (UInt8 × PatriciaNode) →
    Option (NodeData × List (UInt8 × PatriciaNode))
  | [], node => some node
  | (name, j) :: fields, (a, cs) =>
    if Json.foldCase name = Json.foldCase "Key" then do
      let _ ← Codec.bytes.decode j
      readNodeFields fields (a, cs)
    else if Json.foldCase name = Json.foldCase "Children" then do
      let children ← readChildren j
      readNodeFields fields (a, children)
    else if Json.foldCase name = Json.foldCase "Value" then do
      let value ← (Codec.pointer Transaction.codec Transaction.encode_ne_null).decode j
      readNodeFields fields ({ a with value := value }, cs)
    else if Json.foldCase name = Json.foldCase "Hash" then do
      let hash ← Codec.str.decode j
      readNodeFields fields ({ a with hash := hash }, cs)
    else if Json.foldCase name = Json.foldCase "IsLeaf" then do
      let isLeaf ← Codec.bool.decode j
      readNodeFields fields ({ a with isLeaf := isLeaf }, cs)
    else readNodeFields fields (a, cs)

def readChildren : Json → Option (List (UInt8 × PatriciaNode))
  | .null => some []
  | .obj entries => readEntries entries []
  | _ => none

/-- The entries of a map of children, on top of those read so far. -/
def readEntries : List (String × Json) → List (UInt8 × PatriciaNode) →
    Option (List (UInt8 × PatriciaNode))
  | [], cs => some cs
  | (label, j) :: entries, cs => do
    let b ← readLabel label
    let child ← readNode j
    readEntries entries ((cs.filter fun c => c.1 ≠ b) ++ (child.map fun t => (b, t)).toList)

end

/-- A pointer to a record, its fields read by a function. -/
def readPointer {α : Type} (read : List (String × Json) → Option α) : Json → Option (Option α)
  | .null => some none
  | .obj fields => (read fields).map some
  | _ => none

def readField {α : Type} (read : Json → Option (Option α)) (fields : List (String × Json))
    (name : String) : Option (Option α) :=
  ((Json.get fields name).map read).getD (some none)

def PatriciaTrie.read (fields : List (String × Json)) : Option PatriciaTrie := do
  let root ← readField readNode fields "Root"
  return ⟨root.getD PatriciaTrie.new.root⟩

def PointerBody.read (fields : List (String × Json)) : Option PointerBody := do
  let transactions ← readField (readPointer PatriciaTrie.read) fields "Transactions"
  let receipts ← (Codec.list TxReceipt.codec).field fields "Receipts"
  return { transactions := transactions, receipts := receipts }

/-- A broadcast block, with pointers that may be nil. -/
structure PointerMessage where
  header : Option BlockHeader := none
  body : Option PointerBody := none
  hash : String := ""
  broadcastTimestamp : ℤ := 0

/-- The decoder of `handleBlockStream`. -/
def PointerMessage.read (j : Json) : Option PointerMessage := do
  let fields ← j.fields
  let header ← (Codec.pointer BlockHeader.codec BlockHeader.encode_ne_null).field fields "Header"
  let body ← readField (readPointer PointerBody.read) fields "Body"
  let hash ← Codec.str.field fields "Hash"
  let broadcastTimestamp ← Codec.int.field fields "BroadcastTimestamp"
  return { header := header, body := body, hash := hash, broadcastTimestamp := broadcastTimestamp }

/-- The message as the handler of `Node.lean` takes it, with an empty trie for a nil one. -/
def PointerMessage.toMessage (msg : PointerMessage) : BlockMessage where
  header := msg.header
  body := msg.body.map fun body =>
    { transactions := body.transactions.getD PatriciaTrie.new, receipts := body.receipts }
  hash := msg.hash

/-! ## The functions that follow pointers -/

/-- `Block.UnmarshalJSON`: an error, or a block. -/
def Block.unmarshalOrCrash (C : Crypto) (j : Json) : Except NilPointer (Option Block) :=
  match SimplifiedBlock.codec.decode j with
  | none => .ok none
  | some simplified => do
    let header ← deref .header simplified.header
    return some (Block.restore C simplified header)

def BlockDB.getBlockOrCrash (C : Crypto) (db : BlockDB) (hash : String) :
    Except NilPointer (Except String Block) :=
  if db.closed then .ok (.error "failed to retrieve block from database: database closed")
  else
    match db.blocks.lookup hash with
    | none => .ok (.error s!"block with hash {hash} not found")
    | some data => do
      match ← Block.unmarshalOrCrash C data with
      | none => return .error "failed to deserialize block data"
      | some block => return .ok block

namespace Blockchain

variable (C : Crypto) (bc : Blockchain)

/-- `GetBlock`. -/
def getBlockOrCrash (hash : String) : Except NilPointer (Except String Block) :=
  match bc.chain.find? fun block => block.getHash C = hash with
  | some block => .ok (.ok block)
  | none =>
    match bc.db with
    | none => .ok (.error s!"block with hash {hash} not found")
    | some db => db.getBlockOrCrash C hash

/-- `GetLatestBlock`: if all else fails, an empty block. -/
def getLatestBlockOrCrash : Except NilPointer PointerBlock :=
  match bc.chain.getLast? with
  | some block => .ok block.toPointers
  | none =>
    match bc.db with
    | none => .ok {}
    | some db =>
      if db.latestBlock = "" then .ok {}
      else do
        match ← db.getBlockOrCrash C db.latestBlock with
        | .error _ => return {}
        | .ok block => return block.toPointers

/-- `CalculateCumulativeDifficulty`. -/
def calculateCumulativeDifficultyOrCrash (header : BlockHeader) :
    Except NilPointer (Except String UInt64) := do
  match ← bc.getBlockOrCrash C header.previousHash with
  | .error err => return .error s!"parent block {header.previousHash} not found: {err}"
  | .ok parent =>
    if header.blockNumber = 0 then return .ok header.difficulty.toUInt64
    else if parent.header.blockNumber + 1 ≠ header.blockNumber then
      return .error ("block number mismatch: parent " ++
        toString parent.header.blockNumber.toNat ++ ", new " ++ toString header.blockNumber.toNat)
    else return .ok (parent.cumulativeDifficulty + header.difficulty.toUInt64)

/-- `Blockchain.ValidateBlock`. -/
def validateBlockOrCrash (block : PointerBlock) : Except NilPointer (Except String Unit) := do
  let header ← deref .header block.header
  let hash ← deref .header (block.getHash C)
  if calculateHash C header ≠ hash then return .error "invalid block hash"
  else
    let prevBlock ← bc.getLatestBlockOrCrash C
    let prevHash ← deref .header (prevBlock.getHash C)
    if header.previousHash ≠ prevHash then return .error "invalid previous hash"
    else
      let prevHeader ← deref .header prevBlock.header
      if header.blockNumber ≠ prevHeader.blockNumber + 1 then return .error "invalid block number"
      else
        let body ← deref .body block.body
        let _ ← deref .transactions body.transactions
        return .ok ()

end Blockchain

def PointerBlock.loaded (block : PointerBlock) : Except NilPointer Block := do
  let header ← deref .header block.header
  let body ← deref .body block.body
  let transactions ← deref .transactions body.transactions
  return {
    header := header
    body := { transactions := transactions, receipts := body.receipts }
    hash := block.hash
    originalHash := block.originalHash
    cumulativeDifficulty := block.cumulativeDifficulty }

/-- The block that `handleBlockStream` makes of a message. -/
def PointerMessage.block (msg : PointerMessage) (cumulativeDifficulty : UInt64) : PointerBlock where
  header := msg.header
  body := msg.body
  hash := msg.hash
  originalHash := msg.hash
  cumulativeDifficulty := cumulativeDifficulty

/-- `handleBlockStream`. `ProcessBlockTransactions` follows all pointers of a block that has been
validated. -/
def Node.handleBlockStreamOrCrash (C : Crypto) (n : Node) (peer : String)
    (data : Option PointerMessage) (now₁ now₂ : ℤ) : Except NilPointer (Node × StreamResult) :=
  match data with
  | none => .ok (n.handleStreamError peer "error decoding block data")
  | some msg =>
    match msg.header, msg.body with
    | some header, some _ => do
      match ← n.blockchain.calculateCumulativeDifficultyOrCrash C header with
      | .error err => return (n, .rejected err)
      | .ok cumulativeDifficulty =>
        let block := msg.block cumulativeDifficulty
        match ← n.blockchain.validateBlockOrCrash C block with
        | .error err => return n.handleStreamError peer err
        | .ok _ =>
          if msg.hash ∈ n.broadcastedBlocks then return (n, .alreadyProcessed)
          else
            let block ← block.loaded
            return (n.acceptBlock C peer msg.hash (block.rememberHash C) now₁ now₂, .accepted)
    | _, _ => .ok (n.handleStreamError peer "invalid block data")

/-! ## When nothing is nil -/

/-- A document that decodes to a block without a header. -/
def Headerless (j : Json) : Prop :=
  ∃ simplified, SimplifiedBlock.codec.decode j = some simplified ∧ simplified.header = none

/-- A block without a header would be read from the database. -/
def BlockDB.ReadsHeaderless (db : BlockDB) (hash : String) : Prop :=
  db.closed = false ∧ ∃ data, db.blocks.lookup hash = some data ∧ Headerless data

/-- A block without a header would be read for a hash. -/
def Blockchain.ReadsHeaderless (C : Crypto) (bc : Blockchain) (hash : String) : Prop :=
  bc.chain.find? (fun block => block.getHash C = hash) = none ∧
    ∃ db, bc.db = some db ∧ db.ReadsHeaderless hash

section Cases

variable (C : Crypto)

/-- **Decoding crashes at a document without a header**, and nowhere else. -/
lemma Block.unmarshalOrCrash_cases (j : Json) :
    (Headerless j ∧ Block.unmarshalOrCrash C j = .error .header ∧ Block.unmarshalJSON C j = none) ∨
      (¬ Headerless j ∧ Block.unmarshalOrCrash C j = .ok (Block.unmarshalJSON C j)) := by
  unfold Headerless Block.unmarshalOrCrash Block.unmarshalJSON
  cases hdecode : SimplifiedBlock.codec.decode j with
  | none => exact .inr ⟨by simp, rfl⟩
  | some simplified =>
    cases hheader : simplified.header with
    | none =>
      refine .inl ⟨⟨simplified, rfl, hheader⟩, ?_, ?_⟩
      · simp only [hheader, deref_none, error_bind]
      · simp only [bind_eq_bind, bind_some, hheader, bind_none]
    | some header =>
      refine .inr ⟨?_, ?_⟩
      swap
      · simp only [hheader, deref_some, ok_bind, bind_eq_bind, bind_some]
        rfl
      rintro ⟨_, hsome, hnone⟩
      obtain rfl := Option.some.inj hsome
      rw [hheader] at hnone
      exact some_ne_none _ hnone

lemma BlockDB.getBlockOrCrash_cases (db : BlockDB) (hash : String) :
    (db.ReadsHeaderless hash ∧ db.getBlockOrCrash C hash = .error .header ∧
      ∃ err, db.getBlock C hash = .error err) ∨
    (¬ db.ReadsHeaderless hash ∧ db.getBlockOrCrash C hash = .ok (db.getBlock C hash)) := by
  unfold ReadsHeaderless getBlockOrCrash getBlock
  cases hclosed : db.closed with
  | true => exact .inr ⟨by simp, rfl⟩
  | false =>
    cases hdata : db.blocks.lookup hash with
    | none => exact .inr ⟨by simp, rfl⟩
    | some data =>
      rcases Block.unmarshalOrCrash_cases C data with ⟨hless, hcrash, hnone⟩ | ⟨hless, hok⟩
      · refine .inl ⟨⟨rfl, data, rfl, hless⟩, ?_, ?_⟩
        · simp only [hcrash]
          rfl
        · simp only [hnone]
          exact ⟨_, rfl⟩
      · refine .inr ⟨?_, ?_⟩
        · rintro ⟨-, _, hsome, hdata⟩
          exact hless (Option.some.inj hsome ▸ hdata)
        · simp only [hok]
          cases Block.unmarshalJSON C data <;> rfl

namespace Blockchain

variable (bc : Blockchain)

lemma getBlockOrCrash_cases (hash : String) :
    (bc.ReadsHeaderless C hash ∧ bc.getBlockOrCrash C hash = .error .header ∧
      ∃ err, bc.getBlock C hash = .error err) ∨
    (¬ bc.ReadsHeaderless C hash ∧ bc.getBlockOrCrash C hash = .ok (bc.getBlock C hash)) := by
  unfold ReadsHeaderless getBlockOrCrash getBlock
  cases hfind : bc.chain.find? fun block => block.getHash C = hash with
  | some block => exact .inr ⟨by simp, rfl⟩
  | none =>
    cases hdb : bc.db with
    | none => exact .inr ⟨by simp, rfl⟩
    | some db =>
      rcases db.getBlockOrCrash_cases C hash with ⟨hless, hcrash⟩ | ⟨hless, hok⟩
      · exact .inl ⟨⟨rfl, db, rfl, hless⟩, hcrash⟩
      · refine .inr ⟨?_, hok⟩
        rintro ⟨-, _, hsome, hdb⟩
        exact hless (Option.some.inj hsome ▸ hdb)

lemma calculateCumulativeDifficultyOrCrash_cases (header : BlockHeader) :
    (bc.ReadsHeaderless C header.previousHash ∧
      bc.calculateCumulativeDifficultyOrCrash C header = .error .header ∧
      ∃ err, bc.calculateCumulativeDifficulty C header = .error err) ∨
    (¬ bc.ReadsHeaderless C header.previousHash ∧ bc.calculateCumulativeDifficultyOrCrash C header =
        .ok (bc.calculateCumulativeDifficulty C header)) := by
  unfold calculateCumulativeDifficultyOrCrash calculateCumulativeDifficulty
  rcases bc.getBlockOrCrash_cases C header.previousHash with
    ⟨hless, hcrash, err, herr⟩ | ⟨hless, hok⟩
  · refine .inl ⟨hless, ?_, ?_⟩
    · rw [hcrash]
      rfl
    · rw [herr]
      exact ⟨_, rfl⟩
  · refine .inr ⟨hless, ?_⟩
    rw [hok]
    cases bc.getBlock C header.previousHash with
    | error err => rfl
    | ok parent =>
      simp only [ok_bind, pure_eq_ok]
      split_ifs <;> rfl

/-- The latest block is the one of `getLatestBlock`; without one there is a crash, or an empty
block. -/
lemma getLatestBlockOrCrash_cases : (∃ block, bc.getLatestBlock C = some block ∧
      bc.getLatestBlockOrCrash C = .ok block.toPointers) ∨ (bc.getLatestBlock C = none ∧
      (bc.getLatestBlockOrCrash C = .error .header ∨ bc.getLatestBlockOrCrash C = .ok {})) := by
  unfold getLatestBlock getLatestBlockOrCrash
  cases bc.chain.getLast? with
  | some block => exact .inl ⟨block, rfl, rfl⟩
  | none =>
    cases bc.db with
    | none => exact .inr ⟨rfl, .inr rfl⟩
    | some db =>
      by_cases hlatest : db.latestBlock = ""
      · simp only [if_pos hlatest]
        exact .inr ⟨trivial, .inr trivial⟩
      · simp only [if_neg hlatest]
        rcases db.getBlockOrCrash_cases C db.latestBlock with ⟨-, hcrash, err, herr⟩ | ⟨-, hok⟩
        · rw [hcrash, herr]
          exact .inr ⟨rfl, .inl rfl⟩
        · rw [hok]
          cases db.getBlock C db.latestBlock with
          | error err => exact .inr ⟨rfl, .inr rfl⟩
          | ok block => exact .inl ⟨block, rfl, rfl⟩

lemma getHash_eq_some {block : PointerBlock} {full : Block}
    (hheader : block.header = some full.header)
    (horiginal : block.originalHash = full.originalHash) :
    block.getHash C = some (full.getHash C) := by
  rw [PointerBlock.getHash, PointerBlock.calculateHash, hheader, horiginal, Block.getHash]
  split_ifs <;> rfl

/-- What crashes the validation of a block with a header and a body: its hash is right, and there is
no latest block, or the block follows it and has no trie. -/
def CrashesValidation (block : Block) (trie : Option PatriciaTrie) : Prop :=
  calculateHash C block.header = block.getHash C ∧ (bc.getLatestBlock C = none ∨
      ∃ prevBlock, bc.getLatestBlock C = some prevBlock ∧
        block.header.previousHash = prevBlock.getHash C ∧
        block.header.blockNumber = prevBlock.header.blockNumber + 1 ∧ trie = none)

/-- Validation, where it does not crash, is that of `Node.lean`, and passes only with a trie.
`full` is the block with some trie. -/
lemma validateBlockOrCrash_cases (block : PointerBlock) (full : Block) {body : PointerBody}
    (hheader : block.header = some full.header) (hbody : block.body = some body)
    (horiginal : block.originalHash = full.originalHash) :
    (bc.CrashesValidation C full body.transactions ∧
      ∃ p, bc.validateBlockOrCrash C block = .error p) ∨
    (¬ bc.CrashesValidation C full body.transactions ∧
      bc.validateBlockOrCrash C block = .ok (bc.validateBlock C full) ∧
      (bc.validateBlock C full = .ok () → body.transactions ≠ none)) := by
  have hhash := getHash_eq_some C hheader horiginal
  unfold CrashesValidation validateBlockOrCrash validateBlock
  simp only [hheader, hbody, hhash, deref_some, ok_bind, pure_eq_ok]
  by_cases hvalid : calculateHash C full.header = full.getHash C
  · simp only [hvalid, ne_eq, not_true_eq_false, if_false, true_and]
    rcases bc.getLatestBlockOrCrash_cases C with ⟨prevBlock, hsome, hok⟩ | ⟨hnone, hcrash⟩
    · have hprev : prevBlock.toPointers.getHash C = some (prevBlock.getHash C) :=
        getHash_eq_some C rfl rfl
      have hprevHeader : prevBlock.toPointers.header = some prevBlock.header := rfl
      simp only [hsome, hok, hprev, hprevHeader, deref_some, ok_bind]
      by_cases hprevious : full.header.previousHash = prevBlock.getHash C
      · by_cases hnumber : full.header.blockNumber = prevBlock.header.blockNumber + 1
        · cases htrie : body.transactions with
          | none =>
            left
            simp [hprevious, hnumber, error_bind]
          | some trie =>
            right
            simp [hprevious, hnumber, ok_bind]
        · right
          simp [hprevious, hnumber]
      · right
        simp [hprevious]
    · left
      refine ⟨.inl hnone, ?_⟩
      rcases hcrash with hcrash | hempty
      · exact ⟨.header, by rw [hcrash, error_bind]⟩
      · have hgetHash : PointerBlock.getHash C {} = none := rfl
        exact ⟨.header, by rw [hempty, ok_bind, hgetHash, deref_none, error_bind]⟩
  · right
    simp [hvalid]

end Blockchain

end Cases

/-! ## The handler -/

namespace Node

variable (C : Crypto) (n : Node)

/-- The block of a message with a header and a body, with an empty trie for a nil one. -/
def fullBlock (header : BlockHeader) (body : PointerBody) (hash : String)
    (cumulativeDifficulty : UInt64) : Block where
  header := header
  body :=
    { transactions := body.transactions.getD PatriciaTrie.new
      receipts := body.receipts }
  hash := hash
  originalHash := hash
  cumulativeDifficulty := cumulativeDifficulty

lemma loaded_block {msg : PointerMessage} {header : BlockHeader} {body : PointerBody}
    {trie : PatriciaTrie} (hheader : msg.header = some header) (hbody : msg.body = some body)
    (htrie : body.transactions = some trie) (difficulty : UInt64) :
    (msg.block difficulty).loaded = .ok (fullBlock header body msg.hash difficulty) := by
  simp only [PointerBlock.loaded, PointerMessage.block, hheader, hbody, htrie, deref_some, ok_bind,
    pure_eq_ok, fullBlock, getD_some]

/-- What crashes the handler: the parent would be read from the database without a header, or it is
found and the validation crashes. -/
def CrashesOn (msg : PointerMessage) : Prop :=
  ∃ header body, msg.header = some header ∧ msg.body = some body ∧
    (n.blockchain.ReadsHeaderless C header.previousHash ∨
      ∃ difficulty, n.blockchain.calculateCumulativeDifficulty C header = .ok difficulty ∧
        n.blockchain.CrashesValidation C (fullBlock header body msg.hash difficulty)
          body.transactions)

/-- **The handler crashes on these messages; on others it is the handler of `Node.lean`.** -/
lemma handleBlockStreamOrCrash_cases (peer : String) (msg : PointerMessage) (now₁ now₂ : ℤ) :
    (n.CrashesOn C msg ∧ ∃ p, n.handleBlockStreamOrCrash C peer (some msg) now₁ now₂ = .error p) ∨
    (¬ n.CrashesOn C msg ∧ n.handleBlockStreamOrCrash C peer (some msg) now₁ now₂ =
      .ok (n.handleBlockStream C peer (some msg.toMessage) now₁ now₂)) := by
  unfold CrashesOn handleBlockStreamOrCrash handleBlockStream
  cases hheader : msg.header with
  | none =>
    right
    simp [PointerMessage.toMessage, hheader]
  | some header =>
    cases hbody : msg.body with
    | none =>
      right
      simp [PointerMessage.toMessage, hheader, hbody]
    | some body =>
      simp only [PointerMessage.toMessage, hheader, hbody, map_some, Option.some.injEq,
        exists_and_left, exists_eq_left', pure_eq_ok]
      rcases n.blockchain.calculateCumulativeDifficultyOrCrash_cases C header with
        ⟨hless, hcrash, -⟩ | ⟨hless, hok⟩
      · left
        exact ⟨.inl hless, .header, by rw [hcrash, error_bind]⟩
      · rw [hok, ok_bind]
        cases hdiff : n.blockchain.calculateCumulativeDifficulty C header with
        | error err =>
          right
          simp [hless]
        | ok difficulty =>
          simp only [hless, false_or, Except.ok.injEq, exists_eq_left']
          have hcases := n.blockchain.validateBlockOrCrash_cases C (msg.block difficulty)
            (fullBlock header body msg.hash difficulty) hheader hbody rfl
          rcases hcases with ⟨hcrashes, p, hp⟩ | ⟨hcrashes, hvalidate, htrie⟩
          · left
            exact ⟨hcrashes, p, by rw [hp, error_bind]⟩
          · right
            refine ⟨hcrashes, ?_⟩
            rw [hvalidate, ok_bind]
            unfold fullBlock at htrie ⊢
            cases hresult : n.blockchain.validateBlock C
              { header := header
                body := { transactions := body.transactions.getD PatriciaTrie.new
                          receipts := body.receipts }
                hash := msg.hash
                originalHash := msg.hash
                cumulativeDifficulty := difficulty } with
            | error err => rfl
            | ok result =>
              by_cases hseen : msg.hash ∈ n.broadcastedBlocks
              · simp only [if_pos hseen]
              · obtain ⟨trie, hsome⟩ := ne_none_iff_exists'.mp (htrie hresult)
                simp only [if_neg hseen, loaded_block hheader hbody hsome, ok_bind, fullBlock]

/-- **Without a crash this is the handler of `Node.lean`.** -/
theorem handleBlockStream_of_ok {peer : String} {data : Option PointerMessage} {now₁ now₂ : ℤ}
    {result : Node × StreamResult}
    (h : n.handleBlockStreamOrCrash C peer data now₁ now₂ = .ok result) :
    result = n.handleBlockStream C peer (data.map PointerMessage.toMessage) now₁ now₂ := by
  cases data with
  | none => exact (Except.ok.inj h).symm
  | some msg =>
    rcases n.handleBlockStreamOrCrash_cases C peer msg now₁ now₂ with ⟨-, p, hp⟩ | ⟨-, hok⟩
    · rw [hp] at h
      cases h
    · rw [hok] at h
      exact (Except.ok.inj h).symm

end Node

/-- **Which documents and messages crash a node.** Decoding a block follows a nil pointer exactly
if the document has no header. A message that decodes makes the handler follow one exactly if it
has a header and a body, and its parent would be read without a header, or its parent is found, its
hash is right, and there is no latest block or the block follows it and has no trie.

**Proof sketch.** The functions are gone through in the order of their calls: each follows a nil
pointer in one place, or gives the result of the function without pointers. -/
theorem peerBlock_crash_iff (C : Crypto) :
    (∀ j, (∃ p, Block.unmarshalOrCrash C j = .error p) ↔ Headerless j) ∧
    (∀ (n : Node) (peer : String) (msg : PointerMessage) (now₁ now₂ : ℤ),
      (∃ p, n.handleBlockStreamOrCrash C peer (some msg) now₁ now₂ = .error p) ↔
        n.CrashesOn C msg) := by
  constructor
  · intro j
    rcases Block.unmarshalOrCrash_cases C j with ⟨hless, hcrash, -⟩ | ⟨hless, hok⟩
    · exact iff_of_true ⟨.header, hcrash⟩ hless
    · refine iff_of_false ?_ hless
      rintro ⟨p, hp⟩
      rw [hok] at hp
      cases hp
  · intro n peer msg now₁ now₂
    rcases n.handleBlockStreamOrCrash_cases C peer msg now₁ now₂ with ⟨hon, hcrash⟩ | ⟨hon, hok⟩
    · exact iff_of_true hcrash hon
    · refine iff_of_false ?_ hon
      rintro ⟨p, hp⟩
      rw [hok] at hp
      cases hp

def oneBlockNode : Node where
  blockchain := { chain := [{ originalHash := "genesis" }] }

def emptyBody : Json :=
  .obj [("Header", .obj [("BlockNumber", .num 1), ("PreviousHash", .str "genesis")]),
    ("Body", .obj [])]

/-- **Two documents that crash a node**: an empty one, as a block, and a message with an empty body,
which has no trie. -/
theorem empty_documents_crash : Block.unmarshalOrCrash Crypto.sample (.obj []) = .error .header ∧
      ∃ msg, PointerMessage.read emptyBody = some msg ∧
        oneBlockNode.handleBlockStreamOrCrash Crypto.sample "peer" (some msg) 0 0 =
          .error .transactions := by
  refine ⟨rfl, { header := some { blockNumber := 1, previousHash := "genesis" }, body := some {} },
    ?_, ?_⟩
  · rfl
  · rfl

end HybridChain
