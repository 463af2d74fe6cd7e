import HybridChain.BlockCodec
import HybridChain.Mempool

/-!
# The node

The state of a node and its blockchain (`p2p.go`, `blockchain.go`), and how a block that a peer
broadcasts is received.

The node and its blockchain share one mempool. The node's own pool starts as the blockchain's and
becomes another one when a block is mined. On an empty chain `GetLatestBlock` returns a block
without a header, at which every caller crashes; here it returns nothing.

## Main definitions

* `Node`, `Blockchain`, `StakePool`
* `validateBlock`, `addBlockWithoutValidation`, `handleBlockStream`

## Main results

* `handleBlockStream_cases`: what the handler can do
-/

namespace HybridChain

open KeyedLog (Store)

/-- The blocks of the database, under their hashes, and the pointer to the latest one. -/
structure BlockDB where
  blocks : Store String Json := ∅
  latestBlock : String := ""
  /-- A closed database fails every call. -/
  closed : Bool := false

structure ValidatorPerformance where
  blocksProposed : UInt64 := 0
  blocksValidated : UInt64 := 0
  missedValidations : UInt64 := 0
  uptimePercentage : Float := 0
  lastUpdate : ℤ := 0
  deriving DecidableEq

/-- The zero value of `time.Time`. -/
def zeroTime : ℤ := -62135596800000000000

structure WithdrawalRequest where
  requestTime : ℤ
  amount : UInt64
  status : String
  deriving DecidableEq

structure StakeInfo where
  address : String := ""
  amount : UInt64 := 0
  startTime : ℤ := zeroTime
  lastRewardTime : ℤ := zeroTime
  lastActive : ℤ := zeroTime
  withdrawalReq : Option WithdrawalRequest := none
  violations : ℤ := 0
  performance : Option ValidatorPerformance := none
  selectionCount : UInt64 := 0
  hostID : String := ""
  timestamp : ℤ := 0
  isValidator : Bool := false
  deriving DecidableEq

/-- A stake made and active at the time 0. -/
def StakeInfo.fresh (amount : UInt64) : StakeInfo where
  amount := amount
  startTime := 0
  lastActive := 0

/-- The stakes and the hosts of the stakers, under their addresses. -/
structure StakePool where
  stakes : Store String StakeInfo := ∅
  walletToHost : Store String String := ∅

structure Blockchain where
  chain : List Block := []
  currentHash : String := ""
  utxoPool : Option UTXOPool := none
  mempool : Option Mempool := none
  stakePool : StakePool := {}
  db : Option BlockDB := none

/-- The pool a node points to: none, that of its blockchain, or another one. -/
inductive NodePool where
  | none
  | shared
  | own (pool : UTXOPool)

structure Node where
  blockchain : Blockchain := {}
  utxoPool : NodePool := .shared
  /-- The account manager, and the database of the pools. -/
  host : Host := {}
  broadcastedBlocks : Finset String := ∅
  /-- The scores of the known peers. -/
  peers : Store String ℤ := ∅

/-! ## Blocks in memory and in the database -/

namespace BlockDB

def getBlock (C : Crypto) (db : BlockDB) (hash : String) : Except String Block :=
  if db.closed then .error "failed to retrieve block from database: database closed"
  else
    match db.blocks.lookup hash with
    | none => .error s!"block with hash {hash} not found"
    | some data =>
      match Block.unmarshalJSON C data with
      | none => .error "failed to deserialize block data"
      | some block => .ok block

lemma getBlock_of_lookup {C : Crypto} {db : BlockDB} {hash : String} {data : Json} {block : Block}
    (hopen : db.closed = false) (hdata : db.blocks.lookup hash = some data)
    (hblock : Block.unmarshalJSON C data = some block) : db.getBlock C hash = .ok block := by
  simp [getBlock, hopen, hdata, hblock]

end BlockDB

namespace Blockchain

variable (C : Crypto) (bc : Blockchain)

def getLatestBlock : Option Block :=
  match bc.chain.getLast? with
  | some block => some block
  | none =>
    match bc.db with
    | none => none
    | some db =>
      if db.latestBlock = "" then none else (db.getBlock C db.latestBlock).toOption

/-- `GetBlock`: the first block in memory with the hash, or else the one in the database. -/
def getBlock (hash : String) : Except String Block :=
  match bc.chain.find? fun block => block.getHash C = hash with
  | some block => .ok block
  | none =>
    match bc.db with
    | none => .error s!"block with hash {hash} not found"
    | some db => db.getBlock C hash

/-- `saveBlock`: store the encoding and move the pointer. -/
def saveBlock (block : Block) : Except String Blockchain :=
  match bc.db with
  | none => .error "database not initialized"
  | some db =>
    if db.closed then .error "failed to save block: database closed"
    else
      let db := { db with
        blocks := db.blocks.insert (block.getHash C) block.serialize
        latestBlock := block.getHash C }
      .ok { bc with db := some db }

def calculateCumulativeDifficulty (header : BlockHeader) : Except String UInt64 :=
  match bc.getBlock C header.previousHash with
  | .error err => .error s!"parent block {header.previousHash} not found: {err}"
  | .ok parent =>
    if header.blockNumber = 0 then .ok header.difficulty.toUInt64
    else if parent.header.blockNumber + 1 ≠ header.blockNumber then
      .error ("block number mismatch: parent " ++ toString parent.header.blockNumber.toNat ++
        ", new " ++ toString header.blockNumber.toNat)
    else .ok (parent.cumulativeDifficulty + header.difficulty.toUInt64)

/-- `Blockchain.ValidateBlock`: hash, previous hash and number. Transactions are not checked, since
`Blockchain.ValidateTransaction` accepts all of them. -/
def validateBlock (block : Block) : Except String Unit :=
  if calculateHash C block.header ≠ block.getHash C then .error "invalid block hash"
  else
    match bc.getLatestBlock C with
    | none => .error "invalid memory address or nil pointer dereference"
    | some prevBlock =>
      if block.header.previousHash ≠ prevBlock.getHash C then .error "invalid previous hash"
      else if block.header.blockNumber ≠ prevBlock.header.blockNumber + 1 then
        .error "invalid block number"
      else .ok ()

end Blockchain

def Mempool.clearProcessedTransactions (m : Mempool) (processedTxs : List String) : Mempool :=
  { m with transactions := m.transactions.filter fun tx => tx.transactionID ∉ processedTxs }

/-! ## Receiving a block -/

/-- A broadcast block as it is read from the stream. -/
structure BlockMessage where
  header : Option BlockHeader := none
  body : Option BlockBody := none
  hash : String := ""

inductive StreamResult where
  | rejected (err : String)
  | alreadyProcessed
  | accepted
  deriving DecidableEq

namespace Node

variable (C : Crypto) (n : Node)

/-- `UpdatePeerScore`: the score of a known peer, kept between -100 and 1000. -/
def updatePeerScore (peer : String) (delta : ℤ) : Node :=
  match n.peers.lookup peer with
  | none => n
  | some score => { n with peers := n.peers.insert peer (max (-100) (min 1000 (score + delta))) }

lemma updatePeerScore_fst (peer : String) (delta : ℤ) :
    (n.updatePeerScore peer delta).blockchain = n.blockchain ∧
      (n.updatePeerScore peer delta).host = n.host := by
  unfold updatePeerScore
  cases n.peers.lookup peer <;> exact ⟨rfl, rfl⟩

def handleStreamError (peer err : String) : Node × StreamResult :=
  (n.updatePeerScore peer (-10), .rejected err)

/-- `ProcessBlockTransactions` on the pool of the blockchain, if there is one. Both callers only
log its error. -/
def processBlockUTXOs (block : Block) (now : ℤ) : Node :=
  match n.blockchain.utxoPool with
  | none => n
  | some pool =>
    let ((pool, host), _) := pool.processBlockTransactions C n.host block now
    { n with blockchain := { n.blockchain with utxoPool := some pool }, host := host }

def addBlockWithoutValidation (block : Block) (now : ℤ) : Node :=
  let bc := { n.blockchain with
    chain := n.blockchain.chain ++ [block]
    currentHash := block.hash }
  { n with blockchain := bc }.processBlockUTXOs C block now

lemma chain_processBlockUTXOs (block : Block) (now : ℤ) :
    (n.processBlockUTXOs C block now).blockchain.chain = n.blockchain.chain := by
  unfold processBlockUTXOs
  cases n.blockchain.utxoPool <;> rfl

lemma chain_addBlockWithoutValidation (block : Block) (now : ℤ) :
    (n.addBlockWithoutValidation C block now).blockchain.chain = n.blockchain.chain ++ [block] :=
  chain_processBlockUTXOs C _ block now

/-- Remove the transactions of a block from the mempool. -/
def clearMempool (block : Block) : Node :=
  let txIDs := (block.transactions.filter fun tx => !tx.isCoinbase && !tx.isValidatorReward).map
    Transaction.transactionID
  let mempool := n.blockchain.mempool.map fun m => m.clearProcessedTransactions txIDs
  { n with blockchain := { n.blockchain with mempool := mempool } }

/-- The last part of the handler, for a block that has passed: remember its hash, add it to the
chain, process its outputs, and once more, and clear the mempool. -/
def acceptBlock (peer hash : String) (block : Block) (now₁ now₂ : ℤ) : Node :=
  let n := { n with broadcastedBlocks := insert hash n.broadcastedBlocks }
  let n := n.addBlockWithoutValidation C block now₁
  let n := n.processBlockUTXOs C block now₂
  (n.clearMempool block).updatePeerScore peer 5

/-- `handleBlockStream`. Text that is not a block gives no data. `ValidateBlock` calls
`Block.Hash`, which remembers the hash if the message has none. -/
def handleBlockStream (peer : String) (data : Option BlockMessage) (now₁ now₂ : ℤ) :
    Node × StreamResult :=
  match data with
  | none => n.handleStreamError peer "error decoding block data"
  | some msg =>
    match msg.header, msg.body with
    | some header, some body =>
      match n.blockchain.calculateCumulativeDifficulty C header with
      | .error err => (n, .rejected err)
      | .ok cumulativeDifficulty =>
        let block : Block :=
          { header := header
            body := body
            hash := msg.hash
            originalHash := msg.hash
            cumulativeDifficulty := cumulativeDifficulty }
        match n.blockchain.validateBlock C block with
        | .error err => n.handleStreamError peer err
        | .ok _ =>
          if msg.hash ∈ n.broadcastedBlocks then (n, .alreadyProcessed)
          else (n.acceptBlock C peer msg.hash (block.rememberHash C) now₁ now₂, .accepted)
    | _, _ => n.handleStreamError peer "invalid block data"

/-- **What a message can do**: it is turned away and the blockchain stays as it was, or it has
passed and its block is added. -/
theorem handleBlockStream_cases (n : Node) (peer : String) (data : Option BlockMessage)
    (now₁ now₂ : ℤ) : ((n.handleBlockStream C peer data now₁ now₂).2 ≠ .accepted ∧
      (n.handleBlockStream C peer data now₁ now₂).1.blockchain = n.blockchain) ∨
    ∃ msg header body difficulty,
      data = some msg ∧ msg.header = some header ∧ msg.body = some body ∧
      n.blockchain.calculateCumulativeDifficulty C header = .ok difficulty ∧
      n.blockchain.validateBlock C
        { header := header, body := body, hash := msg.hash, originalHash := msg.hash,
          cumulativeDifficulty := difficulty } = .ok () ∧ msg.hash ∉ n.broadcastedBlocks ∧
      n.handleBlockStream C peer data now₁ now₂ = (n.acceptBlock C peer msg.hash
        (Block.rememberHash C
          { header := header, body := body, hash := msg.hash, originalHash := msg.hash,
            cumulativeDifficulty := difficulty }) now₁ now₂, .accepted) := by
  have herror : ∀ err, (n.handleStreamError peer err).2 ≠ .accepted ∧
      (n.handleStreamError peer err).1.blockchain = n.blockchain :=
    fun err => ⟨nofun, (n.updatePeerScore_fst peer (-10)).1⟩
  cases data with
  | none => exact .inl (herror _)
  | some msg =>
    cases hheader : msg.header with
    | none =>
      simp only [handleBlockStream, hheader]
      exact .inl (herror _)
    | some header =>
      cases hbody : msg.body with
      | none =>
        simp only [handleBlockStream, hheader, hbody]
        exact .inl (herror _)
      | some body =>
        cases hdiff : n.blockchain.calculateCumulativeDifficulty C header with
        | error err =>
          simp only [handleBlockStream, hheader, hbody, hdiff]
          exact .inl ⟨nofun, trivial⟩
        | ok difficulty =>
          cases hvalid : n.blockchain.validateBlock C
              { header := header, body := body, hash := msg.hash, originalHash := msg.hash,
                cumulativeDifficulty := difficulty } with
          | error err =>
            simp only [handleBlockStream, hheader, hbody, hdiff, hvalid]
            exact .inl (herror err)
          | ok _ =>
            by_cases hseen : msg.hash ∈ n.broadcastedBlocks
            · simp only [handleBlockStream, hheader, hbody, hdiff, hvalid, if_pos hseen]
              exact .inl ⟨nofun, trivial⟩
            · refine .inr ⟨msg, header, body, difficulty, rfl, hheader, hbody, hdiff, hvalid,
                hseen, ?_⟩
              simp only [handleBlockStream, hheader, hbody, hdiff, hvalid, if_neg hseen]

end Node

end HybridChain
