import HybridChain.AppendFailures
import HybridChain.BlockAssembly
import HybridChain.Consensus

/-!
# The production of a block

`Blockchain.AddBlock` of `blockchain.go`, with `SelectValidator` of `stake_pool.go` and
`ValidateBlock` of `block.go`. A node that is no miner assembles a block of its own, mines it,
starts a consensus round, and adds the block if it is valid. The assembly has then changed the
caller's map of outputs.

Stakes are added up exactly where the source has `float64`. Locks are left out, and the call of
`AddBlock` in `finalizeBlock` is another call. Of an error within an error only the outer text is
kept.

## Main definitions

* `addBlock`, `prepare`, `produce`, `selectByStake`, `validateNewBlock`
* `Plain`: mempools whose transactions create outputs

## Main results

* `failed_production_unchanged`: when a failure leaves no trace
-/

namespace HybridChain

open KeyedLog (Store)

/-! ## Selection and validation -/

/-- `StakePool.SelectValidator`: the only staker, or the one at a share `draw` of the total stake,
with the host. `order` is the order in which the map of stakes is enumerated. The broadcast of the
selection never fails. -/
def StakePool.selectByStake (sp : StakePool) (order : List String) (draw : ℚ) :
    Except String (String × String) :=
  let stakeOf addr : ℚ := ((sp.stakes.lookup addr).getD {}).amount.toNat
  let selected :=
    if sp.stakes.keys.card = 1 then order.head?
    else CumulativeWalk.pick stakeOf (draw * (order.map stakeOf).sum) order
  if sp.stakes = ∅ then .error "no validators available"
  else
    match selected with
    | none => .error "failed to select validator"
    | some walletAddr => .ok (walletAddr, (sp.walletToHost.lookup walletAddr).getD "")

/-- The check of one transaction in `ValidateBlock`. -/
def validateIncluded (C : Crypto) (tx : Transaction) : Bool :=
  if tx.isCoinbase then tx.sender = "coinbase" ∧ tx.outputs.length = 1
  else if tx.isValidatorReward then tx.sender = "system" ∧ tx.outputs.length = 1
  else tx.verifySignature C

/-- `ValidateBlock` of `block.go`. The hashes are read from the fields, which may be empty. -/
def validateNewBlock (C : Crypto) (block previousBlock : Block) : Bool :=
  if block.header.blockNumber ≠ previousBlock.header.blockNumber + 1 then false
  else if block.header.previousHash ≠ previousBlock.hash then false
  else if ¬ isHashValid block.hash block.header.difficulty then false
  else block.transactions.all (validateIncluded C)

/-! ## The call -/

/-- The node of a blockchain, as far as `AddBlock` reads it. -/
structure ProducerNode where
  isInitializedValidator : Bool := false
  accountManager : AccountManager

/-- A blockchain with what is passed to `AddBlock` and may be changed by it. -/
structure Producer where
  chain : ChainState := {}
  node : Option ProducerNode := none
  consensus : ConsensusEngine := {}
  mempool : Mempool := {}
  utxos : Store String UTXO := ∅

/-- What a call of `AddBlock` reads from outside. -/
structure ProductionEnv where
  mining : MiningEnv
  /-- Whether a host is passed. -/
  host : Bool := false
  drawOrder : List String
  draw : ℚ := 0
  /-- The Unix time of the header. -/
  timestamp : ℤ := 0
  /-- The times at which the mempool is sorted. -/
  sortClock : Mempool.SortClock := fun _ _ => (0, 0)
  roundOrder : List String
  roundTime : ℤ := 0
  /-- Whether the selection of the round can be broadcast. -/
  broadcast : Bool := true
  faults : StoreFaults := {}

inductive Outcome where
  | returned
  | failed (message : String)
  | panicked
  /-- The search for a nonce does not end. -/
  | searching
  deriving DecidableEq

/-- The outcome of a step that returns an error or nothing. -/
def Outcome.ofResult : Except String Unit → Outcome
  | .ok _ => .returned
  | .error message => .failed message

namespace Producer

variable (C : Crypto) (p : Producer) (stakePool : StakePool) (env : ProductionEnv)

/-- A node that is not a validator only appends blocks. -/
def isMiner : Bool := p.node.any fun node => !node.isInitializedValidator

/-- The steps of `AddBlock` before the assembly: the latest block and the wallet of the validator.
A call through a missing node panics, and so does a look at the header of a missing block. -/
def prepare : Except Outcome (Block × String) :=
  if stakePool.stakes = ∅ then
    .error (if env.host ∧ p.node.isNone then .panicked else .failed "no validators available")
  else
    match stakePool.selectByStake env.drawOrder env.draw with
    | .error err => .error (.failed err)
    | .ok (validatorWallet, _) =>
      match p.chain.blockchain.getLatestBlock C with
      | none => .error .panicked
      | some previousBlock => .ok (previousBlock, validatorWallet)

/-- `StartConsensusRound` for a new block. The selection updates the stakes of the blockchain, and
the broadcast needs a node. -/
def startRound (newBlock : Block) : Producer × Outcome :=
  let pool := p.chain.blockchain.stakePool
  let (pool', selection) := pool.selectValidator C env.roundOrder newBlock.header.blockNumber
    newBlock.header.previousHash env.roundTime
  let (consensus, result) := p.consensus.startConsensusRound C newBlock pool env.roundOrder
    env.roundTime env.broadcast
  let blockchain := { p.chain.blockchain with stakePool := pool' }
  let p := { p with chain := { p.chain with blockchain := blockchain }, consensus := consensus }
  match selection, p.node with
  | .ok _, none => (p, .panicked)
  | _, _ => (p, .ofResult (result.mapError fun err => "consensus failed: " ++ err))

/-- The last step of `AddBlock`: a valid block is appended, its transactions leave the mempool, and
the nonces of the senders are counted up. An invalid block is only logged. -/
def commit (newBlock previousBlock : Block) : Producer :=
  if validateNewBlock C newBlock previousBlock then
    let txs := newBlock.transactions
    let blockchain :=
      { p.chain.blockchain with chain := p.chain.blockchain.chain ++ [newBlock] }
    let node := p.node.map fun node =>
      let accountManager := txs.foldl (fun am tx =>
        am.update tx.sender fun state => { state with nonce := state.nonce + 1 })
        node.accountManager
      { node with
        accountManager := accountManager.batchUpdateAccounts (txs.map Transaction.sender) }
    { p with
      chain := { p.chain with blockchain := blockchain }
      mempool := (txs.map Transaction.transactionID).foldl Mempool.removeTransaction p.mempool
      node := node }
  else p

/-- `AddBlock` from the assembly on. -/
def produce (previousBlock : Block) (validatorWallet : String) : Producer × Outcome :=
  let (newBlock, utxos) := Block.newBlock C previousBlock p.mempool p.utxos
    previousBlock.header.difficulty validatorWallet env.timestamp env.sortClock
  let p := { p with utxos := utxos }
  match newBlock.mineBlock C env.mining stakePool 10 with
  | none => (p, .searching)
  | some (.error err) => (p, .failed err)
  | some (.ok newBlock) =>
    match p.startRound C env newBlock with
    | (p, .returned) => (p.commit C newBlock previousBlock, .returned)
    | failed => failed

def addBlock (block : Block) : Producer × Outcome :=
  if p.isMiner then
    let (chain, result) := p.chain.addBlockWithoutValidation C block env.faults
    ({ p with chain := chain }, .ofResult result)
  else
    match p.prepare C stakePool env with
    | .error outcome => (p, outcome)
    | .ok (previousBlock, validatorWallet) =>
      p.produce C stakePool env previousBlock validatorWallet

/-! ## What a failed production has changed -/

lemma startRound_frame (newBlock : Block) :
    (p.startRound C env newBlock).1.chain.blockchain.chain = p.chain.blockchain.chain ∧
      (p.startRound C env newBlock).1.mempool = p.mempool ∧
      (p.startRound C env newBlock).1.utxos = p.utxos := by
  unfold startRound
  simp only
  split <;> exact ⟨rfl, rfl, rfl⟩

variable {C p stakePool env} {previousBlock : Block}

lemma prepare_eq {validatorWallet validatorHost : String}
    (hstakes : stakePool.stakes ≠ ∅) (hselect : stakePool.selectByStake env.drawOrder env.draw =
      .ok (validatorWallet, validatorHost))
    (hlatest : p.chain.blockchain.getLatestBlock C = some previousBlock) :
    p.prepare C stakePool env = .ok (previousBlock, validatorWallet) := by
  simp only [prepare, if_neg hstakes, hselect, hlatest]

/-- **What a production that fails has changed**: the chain and the mempool are as they were, and
the included transactions have been applied to the outputs. -/
lemma produce_failed {validatorWallet message : String}
    (h : (p.produce C stakePool env previousBlock validatorWallet).2 = .failed message) :
    let p' := (p.produce C stakePool env previousBlock validatorWallet).1
    p'.chain.blockchain.chain = p.chain.blockchain.chain ∧ p'.mempool = p.mempool ∧
      p'.utxos = applyUTXOs p.utxos (Block.newBlockIncludes C p.mempool p.utxos env.sortClock) := by
  obtain ⟨-, -, -, -, hutxos⟩ := Block.newBlock_eq C p.mempool p.utxos env.sortClock previousBlock
    previousBlock.header.difficulty validatorWallet env.timestamp
  rw [← hutxos]
  unfold produce at h ⊢
  generalize Block.newBlock C previousBlock p.mempool p.utxos previousBlock.header.difficulty
    validatorWallet env.timestamp env.sortClock = assembled at h ⊢
  obtain ⟨newBlock, utxos⟩ := assembled
  simp only at h ⊢
  cases hmined : newBlock.mineBlock C env.mining stakePool 10 with
  | none => simp [hmined] at h
  | some mined =>
    cases mined with
    | error err => exact ⟨rfl, rfl, rfl⟩
    | ok mined =>
      simp only [hmined] at h ⊢
      obtain ⟨hchain, hmempool, hafter⟩ := startRound_frame C { p with utxos := utxos } env mined
      generalize startRound C { p with utxos := utxos } env mined = round
        at h hchain hmempool hafter ⊢
      obtain ⟨p', outcome⟩ := round
      cases outcome with
      | returned => simp at h
      | failed message => exact ⟨hchain, hmempool, hafter⟩
      | panicked | searching => simp at h

/-- **The mempools that `NewBlock` goes through to the end**: the size of a block and its gas limit
leave no waiting transaction out, and each has an output whose key is new. -/
structure Plain (p : Producer) : Prop where
  size : p.mempool.transactions.length ≤ 1024 * 1024
  gas : ∀ tx ∈ p.mempool.transactions, calculateGas tx ≤ baseGasLimit
  outputs : ∀ tx ∈ p.mempool.transactions, tx.outputs ≠ []
  fresh : ∀ tx ∈ p.mempool.transactions, utxoKey tx.transactionID 0 ∉ p.utxos

/-- **When a failed production leaves no trace.** If `AddBlock` fails after the assembly, then
outputs, chain and mempool are unchanged if no waiting transaction is valid for these outputs, and
for plain mempools only then.

**Proof sketch.** Only the assembly touches the three: it has applied the included transactions, the
last of which has left an output. -/
theorem failed_production_unchanged (C : Crypto) (p : Producer) (stakePool : StakePool)
    (env : ProductionEnv) (block : Block) (hminer : p.isMiner = false)
    {previousBlock : Block} {validatorWallet : String}
    (hprepare : p.prepare C stakePool env = .ok (previousBlock, validatorWallet))
    {message : String} (hfailed : (p.addBlock C stakePool env block).2 = .failed message) :
    let p' := (p.addBlock C stakePool env block).1
    let unchanged := p'.utxos = p.utxos ∧ p'.chain.blockchain.chain = p.chain.blockchain.chain ∧
      p'.mempool = p.mempool
    let noneValid := ∀ tx ∈ p.mempool.transactions,
      Mempool.validateTransaction (Transaction.verifySignature C) tx p.utxos = false
    (noneValid → unchanged) ∧ (p.Plain → unchanged → noneValid) := by
  have hcall : p.addBlock C stakePool env block =
      p.produce C stakePool env previousBlock validatorWallet := by
    rw [addBlock, if_neg (Bool.eq_false_iff.mp hminer), hprepare]
  rw [hcall] at hfailed ⊢
  obtain ⟨hchain, hmempool, hutxos⟩ := produce_failed hfailed
  constructor
  · intro hnone
    rw [Block.newBlockIncludes_eq_nil C p.mempool p.utxos env.sortClock hnone] at hutxos
    exact ⟨hutxos, hchain, hmempool⟩
  · rintro hplain ⟨hsame, -, -⟩
    have hsub := (Block.newBlockIncludes_subperm C p.mempool p.utxos env.sortClock).subset
    refine Block.validateTransaction_eq_false_of_newBlockIncludes_eq_nil C p.mempool p.utxos
      env.sortClock hplain.size hplain.gas ?_
    by_contra hne
    exact applyUTXOs_ne p.utxos hne (fun tx htx => hplain.outputs tx (hsub htx))
      (fun tx htx => hplain.fresh tx (hsub htx)) (hutxos.symm.trans hsame)

/-- Primitives in which every digest is zero, so that any header is mined. -/
def zeroDigests : Crypto := { Crypto.sample with sha256 := fun _ => List.Vector.replicate 32 0 }

def waiting (txs : List Transaction) : Producer where
  chain := { blockchain := { chain := [{}] } }
  mempool := { transactions := txs }

def silentEnv : ProductionEnv where
  mining :=
    { getRootHash := fun _ => ""
      stakeOrder := ["staker"]
      respond := fun _ _ => .error "no answer"
      nonces := 1 }
  drawOrder := ["staker"]
  roundOrder := ["staker"]

/-- A payment from an output that is not in the map. -/
def unfunded : Transaction where
  transactionID := "t"
  inputs := [{ transactionID := "p", outputIndex := 0 }]
  outputs := [⟨"alice", 1, ""⟩]
  gasLimit := 21000
  gasPrice := 10

theorem failed_production_unfunded :
    ((waiting [unfunded]).addBlock zeroDigests .sole silentEnv {}).2 =
        .failed "insufficient validations" ∧
      ((waiting [unfunded]).addBlock zeroDigests .sole silentEnv {}).1.utxos = ∅ := by
  have hfailed : ((waiting [unfunded]).addBlock zeroDigests .sole silentEnv {}).2 =
      .failed "insufficient validations" := by decide +kernel
  have hselect : StakePool.sole.selectByStake ["staker"] 0 = .ok ("staker", "") := by
    decide +kernel
  have hprepare : (waiting [unfunded]).prepare zeroDigests .sole silentEnv = .ok ({}, "staker") :=
    prepare_eq (by decide +kernel) hselect rfl
  refine ⟨hfailed, ((failed_production_unchanged zeroDigests (waiting [unfunded]) .sole silentEnv
    {} rfl hprepare hfailed).1 fun tx htx => ?_).1⟩
  obtain rfl := List.mem_singleton.mp htx
  decide +kernel

/-- **The outputs of a block that is never added are there**: the only validator does not answer,
the call fails, the chain and the mempool are as they were, and the map has the output of the
waiting reward. -/
theorem failed_production_leaves_outputs :
    let reward : Transaction :=
      { transactionID := "a", txType := TX_COINBASE, outputs := [⟨"alice", 1, ""⟩] }
    let result := (waiting [reward]).addBlock zeroDigests .sole silentEnv {}
    result.2 = .failed "insufficient validations" ∧
      result.1.chain.blockchain.chain.length = 1 ∧ result.1.mempool.transactions = [reward] ∧
      (waiting [reward]).utxos.lookup "a-0" = none ∧
      (result.1.utxos.lookup "a-0").map UTXO.amount = some 1 := by
  decide +kernel

end Producer

end HybridChain
