import HybridChain.Lib.Run
import HybridChain.Node
import HybridChain.Signature

/-!
# Mining

`MineBlock` of `blockchain.go` with the nonce search and the validation requests of `block.go`, the
rewards, and the choice of validators of `stake_pool.go`.

The search for a nonce is bounded, and `none` when the bound is reached. `GetRootHash` enters as a
function of the outputs. The pool is cloned, but the account manager and the database are not: what
the clone writes there stays when mining fails.

## Main definitions

* `mineBlock`, `findNonce`, `collectValidation`, `getValidators`
* `calculateBlockReward` and its parts
* `assembled`: the transactions of the new block

## Main results

* `Node.exists_newBlock`, `Node.transactions_mineBlock`: what a mined block is
-/

namespace HybridChain

open KeyedLog (Store)

/-! ## Validators -/

structure ValidatorNode where
  address : String
  stake : ℚ
  hostID : String

def minStakeAge : ℤ := 0

/-- `GetValidators`: the stakers of the required age, largest stake first. `order` is the order in
which the map of stakes is enumerated. -/
def StakePool.getValidators (sp : StakePool) (order : List String) (now : ℤ) (count : ℕ) :
    Except String (List ValidatorNode) :=
  if sp.stakes = ∅ then .error "no validators available in stake pool"
  else
    let validators := order.filterMap fun addr => match sp.stakes.lookup addr with
      | none => none
      | some stake =>
        if now - stake.startTime ≥ minStakeAge then
          some
            { address := addr
              stake := stake.amount.toNat
              hostID := (sp.walletToHost.lookup addr).getD "" : ValidatorNode }
        else none
    if validators.isEmpty then .error "no active validators available"
    else
      let sorted := validators.insertionSort fun a b => b.stake ≤ a.stake
      .ok (sorted.take (if count = 0 then sorted.length else count))

/-- The answer of a validator, as far as it has the form that is read. -/
structure ValidationResponse where
  valid : Option Bool := none
  signature : Option String := none

/-- What mining reads from outside. -/
structure MiningEnv where
  coinbaseTime : ℤ := 0
  rewardTime : ℤ := 0
  headerTime : ℤ := 0
  /-- The time of the updates of the cloned pool. -/
  poolTime : ℤ := 0
  validationTime : ℤ := 0
  /-- The time of the updates after mining. -/
  commitTime : ℤ := 0
  /-- `GetRootHash`. -/
  getRootHash : Store String UTXO → String
  /-- The order in which the map of stakes is enumerated. -/
  stakeOrder : List String
  /-- The answer to a request, or why there is none. -/
  respond : Block → ValidatorNode → Except String ValidationResponse
  /-- The number of nonces tried. -/
  nonces : ℕ

/-- `requestValidation`: a validator that agrees is recorded in the header. -/
def requestValidation (respond : Block → ValidatorNode → Except String ValidationResponse)
    (block : Block) (validator : ValidatorNode) : Block × Except String Bool :=
  if validator.hostID = "" then (block, .error "validator host ID not found")
  else
    match respond block validator with
    | .error err => (block, .error err)
    | .ok response =>
      match response.valid with
      | none => (block, .error "invalid response format")
      | some false => (block, .ok false)
      | some true =>
        let header := { block.header with validatedBy := validator.address }
        let header := match response.signature.bind fun sig => Base64.decode sig.toList with
          | none => header
          | some signature => { header with validatorSig := signature }
        ({ block with header := header }, .ok true)

/-! ## The search for a nonce -/

/-- `isHashValid`: the hash starts with as many zeros as the difficulty says. -/
def isHashValid (hash : String) (difficulty : UInt32) : Bool :=
  (List.replicate difficulty.toNat '0').isPrefixOf hash.toList

/-- The search for a nonce, over at most `fuel` nonces. -/
def findNonce (C : Crypto) (difficulty : UInt32) : ℕ → BlockHeader → Option BlockHeader
  | 0, _ => none
  | fuel + 1, header =>
    if isHashValid (calculateHash C header) difficulty then some header
    else findNonce C difficulty fuel { header with nonce := header.nonce + 1 }

/-- One turn of the loop over the validators. A request that fails counts as no agreement. -/
def collectValidation (env : MiningEnv) (state : Block × ℕ) (validator : ValidatorNode) :
    Block × ℕ :=
  match requestValidation env.respond state.1 validator with
  | (block, .ok true) => (block, state.2 + 1)
  | (block, _) => (block, state.2)

/-- `MineBlock` of `block.go`: find a nonce, then ask up to three validators, of whom more than half
have to agree. -/
def Block.mineBlock (C : Crypto) (env : MiningEnv) (block : Block) (stakePool : StakePool)
    (difficulty : UInt32) : Option (Except String Block) :=
  match findNonce C difficulty env.nonces { block.header with difficulty := difficulty } with
  | none => none
  | some header =>
    let block := { block with header := header, hash := calculateHash C header }
    match stakePool.getValidators env.stakeOrder env.validationTime 3 with
    | .error err => some (.error err)
    | .ok validators =>
      let (block, validations) := validators.foldl (collectValidation env) (block, 0)
      if validations < validators.length / 2 + 1 then some (.error "insufficient validations")
      else some (.ok block)

/-! ## Rewards -/

def initialBlockReward : ℚ := 50

def rewardHalvingBlocks : UInt64 := 210000

/-- No reward is below `0.00000001`. -/
def atLeastMinimum (reward : ℚ) : ℚ := if reward < 1 / 10 ^ 8 then 1 / 10 ^ 8 else reward

/-- `calculateBlockReward`: halved every 210000 blocks, with the fees of the block. -/
def calculateBlockReward (block : Block) : ℚ :=
  if block.header.blockNumber = 0 then initialBlockReward
  else
    let halvings := (block.header.blockNumber / rewardHalvingBlocks).toNat
    let reward := (fun reward : ℚ => reward / 2)^[halvings] initialBlockReward
    let fees := ((block.transactions.filter fun tx => tx.txType ≠ TX_COINBASE).map
      Transaction.gasFee).sum
    atLeastMinimum (reward + fees)

def calculateMinerReward (blockReward : ℚ) : ℚ := atLeastMinimum (blockReward * (7 / 10))

def calculateValidatorReward (blockReward : ℚ) : ℚ := atLeastMinimum (blockReward * (3 / 10))

/-! ## The block -/

/-- The two hundred waiting transactions with the highest fees. They are not validated again. -/
def selectPending (mempool : Option Mempool) : List Transaction :=
  match mempool with
  | none => []
  | some m => (Mempool.sortByGasFee m.transactions).take 200

def Mempool.removeTransaction (m : Mempool) (txID : String) : Mempool :=
  { m with transactions := m.transactions.filter fun tx => tx.transactionID ≠ txID }

def baseGasLimit : UInt64 := 15000000

/-- Call `AddUTXO` for each transaction of a list. -/
def UTXOPool.addUTXOs (C : Crypto) (state : UTXOPool × Host) (txs : List Transaction)
    (blockHeight : UInt64) (now : ℤ) : UTXOPool × Host :=
  txs.foldl (fun (pool, host) tx => pool.addUTXO C host tx blockHeight now) state

/-- The block that is to be mined, on top of a cloned pool that its transactions have been applied
to. The previous hash is read from the field, which may be empty. -/
def newBlock (C : Crypto) (env : MiningEnv) (previousBlock : Block) (minerAddress : String)
    (txs : List Transaction) (tempUTXOPool : Option UTXOPool) : Block :=
  let difficulty := previousBlock.header.difficulty
  let (merkleRoot, txTrie) := (PatriciaTrie.new.insertBatch C txs).generateRootHash C
  let header : BlockHeader :=
    { version := 1
      blockNumber := previousBlock.header.blockNumber + 1
      previousHash := previousBlock.hash
      timestamp := env.headerTime
      difficulty := difficulty
      gasLimit := baseGasLimit
      minedBy := minerAddress
      merkleRoot := merkleRoot
      stateRoot := match tempUTXOPool with
        | some pool => env.getRootHash pool.utxos
        | none => ""
      receiptsRoot := match tempUTXOPool with
        | some pool => env.getRootHash pool.utxos
        | none => "0x0000000000000000000000000000000000000000000000000000000000000000" }
  { header := header
    body := { transactions := txTrie }
    cumulativeDifficulty := previousBlock.cumulativeDifficulty + difficulty.toUInt64 }

/-- The transactions made for a new block: the reward of the miner, and that of the validator of the
previous block. -/
def rewardTransactions (C : Crypto) (env : MiningEnv) (previousBlock : Block)
    (minerAddress : String) : Transaction × Option Transaction :=
  let blockHeight := previousBlock.header.blockNumber + 1
  let totalBlockReward := calculateBlockReward previousBlock
  let coinbaseTx := newCoinbaseTransaction C minerAddress (calculateMinerReward totalBlockReward)
    blockHeight env.coinbaseTime
  let lastValidatorAddress := previousBlock.header.validatedBy
  let validatorRewardTx :=
    if lastValidatorAddress ≠ "" ∧ blockHeight > 1 then
      some (newValidatorRewardTransaction C lastValidatorAddress
        (calculateValidatorReward totalBlockReward) blockHeight env.rewardTime)
    else none
  (coinbaseTx, validatorRewardTx)

/-- The transactions that a miner assembles: the rewards, and the selected ones. -/
def assembled (C : Crypto) (env : MiningEnv) (n : Node) (previousBlock : Block)
    (minerAddress : String) : List Transaction :=
  let rewards := rewardTransactions C env previousBlock minerAddress
  rewards.1 :: (rewards.2.toList ++ selectPending n.blockchain.mempool)

namespace Node

variable (C : Crypto) (env : MiningEnv) (n : Node)

/-- Call `AddUTXO` on the pool the node points to, then replace that pool by a clone of the pool of
the blockchain if their roots differ. -/
def syncNodePool (txs : List Transaction) (blockHeight : UInt64) : Node :=
  match n.utxoPool, n.blockchain.utxoPool with
  | .own pool, some bcPool =>
    let (pool, host) := UTXOPool.addUTXOs C (pool, n.host) txs blockHeight env.commitTime
    let pool := if bcPool.merkleRoot ≠ pool.merkleRoot then bcPool else pool
    { n with utxoPool := .own pool, host := host }
  | .shared, some bcPool =>
    let (pool, host) := UTXOPool.addUTXOs C (bcPool, n.host) txs blockHeight env.commitTime
    { n with blockchain := { n.blockchain with utxoPool := some pool }, host := host }
  | _, _ => n

/-- Commit the cloned pool. A node that shared the pool of the blockchain keeps the old one, and
gets the rewards. -/
def commitPool (tempUTXOPool : Option UTXOPool) (rewards : List Transaction)
    (blockHeight : UInt64) : Node :=
  match tempUTXOPool, n.blockchain.utxoPool with
  | some temp, some old =>
    let nodePool := match n.utxoPool with
      | .shared => .own old
      | pool => pool
    { n with
      blockchain := { n.blockchain with utxoPool := some temp }
      utxoPool := nodePool }.syncNodePool C env rewards blockHeight
  | _, _ => n

/-- `updateUTXOSet`: apply the transactions of the block to both pools once more; every ten blocks a
snapshot is taken. -/
def updateUTXOSet (block : Block) : Node :=
  let number := block.header.blockNumber
  let pool := n.blockchain.utxoPool.getD {}
  let (pool, host) := UTXOPool.addUTXOs C (pool, n.host) block.transactions number env.commitTime
  let n := { n with blockchain := { n.blockchain with utxoPool := some pool }, host := host }
  let n := n.syncNodePool C env block.transactions number
  if number % 10 = 0 then
    let host := n.host.createSnapshot (n.blockchain.utxoPool.getD {}) number (block.getHash C)
      env.commitTime
    { n with host := host }
  else n

/-- Remember that a block has been broadcast; a set of more than a thousand hashes is cleared. -/
def broadcastBlock (hash : String) : Node :=
  if hash ∈ n.broadcastedBlocks then n
  else
    let hashes := insert hash n.broadcastedBlocks
    { n with broadcastedBlocks := if hashes.card ≤ 1000 then hashes else ∅ }

/-- The part of `MineBlock` after a block has been mined: pools, chain, database and mempool. A
failure to save the block is only logged. -/
def commitBlock (block : Block) (tempUTXOPool : Option UTXOPool)
    (rewards pendingTxs : List Transaction) : Node :=
  let n := n.commitPool C env tempUTXOPool rewards block.header.blockNumber
  let bc := { n.blockchain with
    chain := n.blockchain.chain ++ [block]
    currentHash := block.getHash C }
  let bc := match bc.saveBlock C block with
    | .ok bc => bc
    | .error _ => bc
  let mempool := bc.mempool.map fun m =>
    (pendingTxs.map Transaction.transactionID).foldl Mempool.removeTransaction m
  let n := { n with blockchain := { bc with mempool := mempool } }
  if bc.utxoPool.isSome then n.updateUTXOSet C env block else n

/-- `Blockchain.MineBlock`. There is no result if the search for a nonce does not end. The balance
that is logged for a rewarded validator is read from the pool without a check, which fails at the
end of the call if there is none. -/
def mineBlock (minerAddress : String) : Option (Node × Except String Block) :=
  match n.blockchain.getLatestBlock C with
  | none => some (n, .error "invalid memory address or nil pointer dereference")
  | some previousBlock =>
    let difficulty := previousBlock.header.difficulty
    let blockHeight := previousBlock.header.blockNumber + 1
    let pendingTxs := selectPending n.blockchain.mempool
    let (coinbaseTx, validatorRewardTx) := rewardTransactions C env previousBlock minerAddress
    let txs := coinbaseTx :: (validatorRewardTx.toList ++ pendingTxs)
    let temp := n.blockchain.utxoPool.map fun pool =>
      UTXOPool.addUTXOs C (pool, n.host) txs blockHeight env.poolTime
    let n := { n with host := (temp.map Prod.snd).getD n.host }
    let block := newBlock C env previousBlock minerAddress txs (temp.map Prod.fst)
    match block.mineBlock C env n.blockchain.stakePool difficulty with
    | none => none
    | some (.error err) => some (n, .error err)
    | some (.ok block) =>
      let block := block.rememberHash C
      let n := n.commitBlock C env block (temp.map Prod.fst)
        (validatorRewardTx.toList ++ [coinbaseTx]) pendingTxs
      if validatorRewardTx.isSome ∧ temp.isNone then
        some (n, .error "invalid memory address or nil pointer dereference")
      else some (n.broadcastBlock (block.getHash C), .ok block)

end Node

/-! ## What mining does to a block -/

variable {C : Crypto} {difficulty : UInt32}

lemma exists_of_findNonce {fuel : ℕ} {header mined : BlockHeader}
    (h : findNonce C difficulty fuel header = some mined) :
    isHashValid (calculateHash C mined) difficulty = true ∧
      ∃ nonce, mined = { header with nonce := nonce } := by
  induction fuel generalizing header with
  | zero => simp [findNonce] at h
  | succ fuel ih =>
    unfold findNonce at h
    split_ifs at h with hvalid
    · obtain rfl := Option.some.inj h
      exact ⟨hvalid, header.nonce, rfl⟩
    · obtain ⟨hmined, nonce, hnonce⟩ := ih h
      exact ⟨hmined, nonce, hnonce⟩

/-- A block with the marks of a validator in its header. -/
def Block.markedBy (block : Block) (validatedBy : String) (validatorSig : List UInt8) : Block :=
  { block with header :=
    { block.header with validatedBy := validatedBy, validatorSig := validatorSig } }

lemma exists_markedBy_requestValidation
    (respond : Block → ValidatorNode → Except String ValidationResponse) (block : Block)
    (validator : ValidatorNode) :
    ∃ who sig, (requestValidation respond block validator).1 = block.markedBy who sig := by
  have hunmarked : ∃ who sig, block = block.markedBy who sig :=
    ⟨block.header.validatedBy, block.header.validatorSig, rfl⟩
  unfold requestValidation
  by_cases hhost : validator.hostID = ""
  · rw [if_pos hhost]
    exact hunmarked
  · rw [if_neg hhost]
    cases respond block validator with
    | error err => exact hunmarked
    | ok response =>
      cases hvalid : response.valid with
      | none =>
        simp only [hvalid]
        exact hunmarked
      | some valid =>
        cases valid with
        | false =>
          simp only [hvalid]
          exact hunmarked
        | true =>
          simp only [hvalid]
          cases response.signature.bind fun sig => Base64.decode sig.toList with
          | none => exact ⟨validator.address, block.header.validatorSig, rfl⟩
          | some signature => exact ⟨validator.address, signature, rfl⟩

lemma exists_markedBy_collectValidation (env : MiningEnv) (state : Block × ℕ)
    (validator : ValidatorNode) :
    ∃ who sig, (collectValidation env state validator).1 = state.1.markedBy who sig := by
  obtain ⟨who, sig, h⟩ := exists_markedBy_requestValidation env.respond state.1 validator
  refine ⟨who, sig, ?_⟩
  rw [← h]
  unfold collectValidation
  split <;> simp [*]

lemma exists_markedBy_foldl (env : MiningEnv) (validators : List ValidatorNode)
    (state : Block × ℕ) :
    ∃ who sig, (validators.foldl (collectValidation env) state).1 = state.1.markedBy who sig := by
  induction validators generalizing state with
  | nil => exact ⟨state.1.header.validatedBy, state.1.header.validatorSig, rfl⟩
  | cons validator validators ih =>
    obtain ⟨who, sig, h⟩ := exists_markedBy_collectValidation env state validator
    obtain ⟨who', sig', h'⟩ := ih (collectValidation env state validator)
    exact ⟨who', sig', by rw [List.foldl_cons, h', h]; rfl⟩

variable {block : Block} {env : MiningEnv}

/-- **What mining does to a block**: the header gets the difficulty, a nonce and the marks of
validators, and the block gets the hash of its header, which is valid. -/
theorem Block.mineBlock_ok {mined : Block}
    {stakePool : StakePool}
    (h : block.mineBlock C env stakePool difficulty = some (.ok mined)) : ∃ nonce who sig, mined =
        { block with
          header :=
            { block.header with
              difficulty := difficulty
              nonce := nonce
              validatedBy := who
              validatorSig := sig }
          hash := calculateHash C mined.header } ∧
      isHashValid (calculateHash C mined.header) difficulty = true := by
  unfold mineBlock at h
  cases hnonce : findNonce C difficulty env.nonces
    { block.header with difficulty := difficulty } with
  | none => simp [hnonce] at h
  | some header =>
    obtain ⟨hvalid, nonce, rfl⟩ := exists_of_findNonce hnonce
    cases hvals : stakePool.getValidators env.stakeOrder env.validationTime 3 with
    | error err => simp [hnonce, hvals] at h
    | ok validators =>
      simp only [hnonce, hvals] at h
      split_ifs at h
      · simp at h
      · obtain rfl := Except.ok.inj (Option.some.inj h)
        obtain ⟨who, sig, hmarked⟩ := exists_markedBy_foldl env validators _
        rw [hmarked]
        exact ⟨nonce, who, sig, rfl, hvalid⟩

variable {minerAddress : String}

lemma Node.exists_of_bind_toOption {n : Node}
    (h : (n.mineBlock C env minerAddress).bind (fun r => r.2.toOption) = some block) :
    ∃ n', n.mineBlock C env minerAddress = some (n', .ok block) := by
  obtain ⟨⟨n', result⟩, hmined, hresult⟩ := Option.bind_eq_some_iff.mp h
  cases result with
  | error err => simp [Except.toOption] at hresult
  | ok b =>
    obtain rfl : b = block := by simpa [Except.toOption] using hresult
    exact ⟨n', hmined⟩

section Mined
variable {previousBlock : Block} {n n' : Node}
  (h : n.mineBlock C env minerAddress = some (n', .ok block))
include h

/-- **What a successful call of `MineBlock` has done**: the rewards and the waiting transactions
have been applied to a clone of the pool, the new block has been mined, and it has been
committed. -/
theorem Node.mineBlock_inv :
    ∃ previousBlock mined, n.blockchain.getLatestBlock C = some previousBlock ∧
      let rewards := rewardTransactions C env previousBlock minerAddress
      let txs := rewards.1 :: (rewards.2.toList ++ selectPending n.blockchain.mempool)
      let temp := n.blockchain.utxoPool.map fun pool =>
        UTXOPool.addUTXOs C (pool, n.host) txs (previousBlock.header.blockNumber + 1) env.poolTime
      (newBlock C env previousBlock minerAddress txs (temp.map Prod.fst)).mineBlock C env
          n.blockchain.stakePool previousBlock.header.difficulty = some (.ok mined) ∧
        block = mined.rememberHash C ∧
        n' = ({ n with host := (temp.map Prod.snd).getD n.host }.commitBlock C env block
          (temp.map Prod.fst) (rewards.2.toList ++ [rewards.1])
          (selectPending n.blockchain.mempool)).broadcastBlock (block.getHash C) := by
  unfold mineBlock at h
  cases hprev : n.blockchain.getLatestBlock C with
  | none => simp [hprev] at h
  | some previousBlock =>
    simp only [hprev] at h
    split at h
    · simp at h
    · simp at h
    next mined hmined =>
      split_ifs at h
      · simp at h
      have hpair := Option.some.inj h
      obtain rfl := Except.ok.inj (congrArg Prod.snd hpair)
      exact ⟨previousBlock, mined, rfl, hmined, rfl, (congrArg Prod.fst hpair).symm⟩

variable (hprev : n.blockchain.getLatestBlock C = some previousBlock)
include hprev

/-- **What a mined block is**: the new block over the assembled transactions, with difficulty,
nonce, marks and hash filled in, which remembers its hash. -/
theorem Node.exists_newBlock : ∃ mined nonce who sig, block = Block.rememberHash C mined ∧
      let txs := assembled C env n previousBlock minerAddress
      let temp := n.blockchain.utxoPool.map fun pool =>
        UTXOPool.addUTXOs C (pool, n.host) txs (previousBlock.header.blockNumber + 1) env.poolTime
      let new := newBlock C env previousBlock minerAddress txs (temp.map Prod.fst)
      mined =
        { new with
          header :=
            { new.header with
              difficulty := previousBlock.header.difficulty
              nonce := nonce
              validatedBy := who
              validatorSig := sig }
          hash := calculateHash C mined.header } := by
  obtain ⟨previousBlock', mined, hprev', hmined, hblock, -⟩ := Node.mineBlock_inv h
  obtain rfl : previousBlock = previousBlock' := Option.some.inj (hprev.symm.trans hprev')
  obtain ⟨nonce, who, sig, hfields, -⟩ := Block.mineBlock_ok hmined
  exact ⟨mined, nonce, who, sig, hblock, hfields⟩

/-- **The transactions of a mined block** are those of the trie made from the assembled ones. -/
theorem Node.transactions_mineBlock :
    block.transactions = (PatriciaTrie.new.insertBatch C
      (assembled C env n previousBlock minerAddress)).getAllTransactions := by
  obtain ⟨mined, nonce, who, sig, rfl, hfields⟩ := Node.exists_newBlock h hprev
  rw [Block.transactions, Block.body_rememberHash, hfields]
  exact PatriciaTrie.getAllTransactions_generateRootHash _

end Mined

/-! ## A validator that agrees -/

/-- A pool with one validator, who has a host. -/
def agreeingPool : StakePool where
  stakes := Finmap.singleton "validator" (.fresh 1)
  walletToHost := Finmap.singleton "validator" "host"

/-- An environment in which the first nonce will do and the validator agrees. -/
def agreeingEnv : MiningEnv where
  getRootHash _ := ""
  stakeOrder := ["validator"]
  respond _ _ := .ok { valid := some true }
  nonces := 1

end HybridChain
