import HybridChain.ForkChoice
import HybridChain.MerkleRoots
import HybridChain.Mining

/-!
# Chains that a node grows by itself

The first block, as `InitialiseBlockchain` and `InitializeChain` install it, and the chains that
mining builds on it.

The wallet's address and the set of outputs that `InitializeChain` reads are arguments.

## Main definitions

* `initialiseBlockchain`, `initializeChain`
* `SelfGrown`: a chain that a node has grown by itself

## Main results

* `SelfGrown.not_valid`: `ValidateCandidateChain` refuses all of them
-/

namespace HybridChain

open KeyedLog (Store)

/-! ## The first block -/

/-- `GenesisBlock`. Neither the cumulative difficulty nor the hash is set. -/
def genesisBlock (now : ℤ) : Block where
  header :=
    { version := 1
      blockNumber := 0
      previousHash := genesisPreviousHash
      timestamp := now
      difficulty := 1
      gasLimit := baseGasLimit
      merkleRoot := zeroRoot
      stateRoot := zeroRoot
      receiptsRoot := zeroRoot }
  body := { transactions := .new, receipts := [] }

/-- `InitialiseBlockchain`, given the database and the pool that is loaded from it. -/
def initialiseBlockchain (db : BlockDB) (utxoPool : UTXOPool) (now : ℤ) : Blockchain where
  chain := [genesisBlock now]
  utxoPool := some utxoPool
  mempool := some {}
  db := some db

namespace Blockchain

def getHeight (bc : Blockchain) : UInt64 :=
  match bc.chain.getLast? with
  | none => 0
  | some block => block.header.blockNumber

/-- The first block of `InitializeChain`: with its validator and state root, and its hash. -/
def initialBlock (C : Crypto) (wallet : Option String) (utxoSet : Store String UTXO) (now : ℤ) :
    Block :=
  let block := genesisBlock now
  let header := match wallet with
    | some address => { block.header with validatedBy := address, validatorAddress := address }
    | none => block.header
  let block := { block with header := { header with stateRoot := calculateStateRoot C utxoSet } }
  block.rememberHash C

def initializeChain (C : Crypto) (bc : Blockchain) (wallet : Option String)
    (utxoSet : Store String UTXO) (now : ℤ) : Except String Blockchain :=
  if bc.getHeight > 0 then .ok bc
  else
    let block := initialBlock C wallet utxoSet now
    match bc.saveBlock C block with
    | .error err => .error s!"failed to save genesis block: {err}"
    | .ok bc => .ok { bc with chain := [block], currentHash := block.hash }

end Blockchain

/-- The chains that mining builds on an installed first block. What else happens to a node between
two blocks does not matter: the node that mines is any node with the chain built so far. -/
inductive SelfGrown (C : Crypto) : List Block → Prop
  | fromInitialise (db : BlockDB) (utxoPool : UTXOPool) (now : ℤ) :
    SelfGrown C (initialiseBlockchain db utxoPool now).chain
  | fromInitializeChain {bc bc' : Blockchain} {wallet : Option String} {utxoSet : Store String UTXO}
      {now : ℤ} (hheight : bc.getHeight = 0)
      (hinit : bc.initializeChain C wallet utxoSet now = .ok bc') : SelfGrown C bc'.chain
  | mine {n n' : Node} {env : MiningEnv} {minerAddress : String} {block : Block}
      (hgrown : SelfGrown C n.blockchain.chain)
      (hmine : n.mineBlock C env minerAddress = some (n', .ok block)) :
    SelfGrown C n'.blockchain.chain

/-! ## One mined block -/

namespace Node

variable (C : Crypto) (env : MiningEnv) (n : Node)

@[simp] lemma chain_syncNodePool (txs : List Transaction) (h : UInt64) :
    (n.syncNodePool C env txs h).blockchain.chain = n.blockchain.chain := by
  unfold syncNodePool
  split <;> rfl

@[simp] lemma chain_commitPool (temp : Option UTXOPool) (rewards : List Transaction) (h : UInt64) :
    (n.commitPool C env temp rewards h).blockchain.chain = n.blockchain.chain := by
  unfold commitPool
  split
  · rw [chain_syncNodePool]
  · rfl

@[simp] lemma chain_updateUTXOSet (block : Block) :
    (n.updateUTXOSet C env block).blockchain.chain = n.blockchain.chain := by
  unfold updateUTXOSet
  simp only
  split_ifs
  · exact chain_syncNodePool C env _ _ _
  · exact chain_syncNodePool C env _ _ _

@[simp] lemma blockchain_broadcastBlock (hash : String) :
    (n.broadcastBlock hash).blockchain = n.blockchain := by
  unfold broadcastBlock
  split_ifs <;> rfl

end Node

variable {block : Block} {C : Crypto}

lemma Blockchain.chain_saveBlock {bc bc' : Blockchain}
    (h : bc.saveBlock C block = .ok bc') : bc'.chain = bc.chain := by
  unfold saveBlock at h
  split at h
  · simp at h
  · split_ifs at h
    obtain rfl := Except.ok.inj h
    rfl

namespace Node

lemma chain_commitBlock (C : Crypto) (env : MiningEnv) (n : Node) (block : Block)
    (temp : Option UTXOPool) (rewards pendingTxs : List Transaction) :
    (n.commitBlock C env block temp rewards pendingTxs).blockchain.chain =
      n.blockchain.chain ++ [block] := by
  have hpool := n.chain_commitPool C env temp rewards block.header.blockNumber
  simp only [commitBlock]
  generalize n.commitPool C env temp rewards block.header.blockNumber = m at hpool ⊢
  have happend : m.blockchain.chain ++ [block] = n.blockchain.chain ++ [block] := by rw [hpool]
  cases hsave : Blockchain.saveBlock C { m.blockchain with
      chain := m.blockchain.chain ++ [block], currentHash := block.getHash C } block with
  | error err =>
    simp only
    split_ifs
    · rw [chain_updateUTXOSet]
      exact happend
    · exact happend
  | ok bc =>
    have hchain := Blockchain.chain_saveBlock hsave
    simp only
    split_ifs
    · rw [chain_updateUTXOSet]
      exact hchain.trans happend
    · exact hchain.trans happend

variable {minerAddress : String} {env : MiningEnv} {n n' : Node} {C : Crypto}

section
variable (h : n.mineBlock C env minerAddress = some (n', .ok block))
include h

/-- **Mining appends the block it returns.** -/
lemma chain_mineBlock :
    n'.blockchain.chain = n.blockchain.chain ++ [block] := by
  obtain ⟨previousBlock, mined, -, -, -, rfl⟩ := mineBlock_inv h
  rw [blockchain_broadcastBlock, chain_commitBlock]

lemma hash_mineBlock : block.hash = block.getHash C := by
  obtain ⟨previousBlock, -, hprev, -⟩ := mineBlock_inv h
  obtain ⟨mined, nonce, who, sig, rfl, hfields⟩ := exists_newBlock h hprev
  have horiginal : mined.originalHash = "" := by rw [hfields]; rfl
  rw [Block.getHash_rememberHash]
  simp [Block.rememberHash, Block.getHash, horiginal]

/-- **When a mined block follows its predecessor**: exactly when the field `hash` of the
predecessor has been filled, which mining reads as it is. -/
theorem follows_mineBlock_iff {previousBlock : Block}
    (hprev : n.blockchain.getLatestBlock C = some previousBlock) :
    Block.Follows C previousBlock block ↔ previousBlock.hash = previousBlock.getHash C := by
  obtain ⟨mined, nonce, who, sig, rfl, hfields⟩ := exists_newBlock h hprev
  unfold Block.Follows
  rw [Block.header_rememberHash, Block.cumulativeDifficulty_rememberHash, hfields]
  simp only [newBlock, true_and, and_true]

end

end Node

/-! ## Whole chains -/

/-- The first block of a chain as it was installed: its cumulative difficulty is not its
difficulty. -/
def Installed (block : Block) : Prop :=
  block.header.blockNumber = 0 ∧ block.header.difficulty = 1 ∧ block.cumulativeDifficulty = 0

lemma installed_initialBlock (C : Crypto) (wallet : Option String) (utxoSet : Store String UTXO)
    (now : ℤ) : Installed (Blockchain.initialBlock C wallet utxoSet now) := by
  unfold Installed Blockchain.initialBlock
  rw [Block.header_rememberHash, Block.cumulativeDifficulty_rememberHash]
  cases wallet <;> exact ⟨rfl, rfl, rfl⟩

lemma Blockchain.chain_initializeChain {bc bc' : Blockchain} {wallet : Option String}
    {utxoSet : Store String UTXO} {now : ℤ} (hheight : bc.getHeight = 0)
    (hinit : bc.initializeChain C wallet utxoSet now = .ok bc') :
    bc'.chain = [initialBlock C wallet utxoSet now] := by
  unfold initializeChain at hinit
  rw [hheight, if_neg (by decide)] at hinit
  cases hsave : bc.saveBlock C (initialBlock C wallet utxoSet now) with
  | error err => simp [hsave] at hinit
  | ok saved =>
    simp only [hsave] at hinit
    rw [← Except.ok.inj hinit]

/-- **The shape of a self-grown chain**: an installed first block, and mined blocks that remember
their hashes and follow one another. -/
theorem SelfGrown.shape {chain : List Block} (h : SelfGrown C chain) :
    ∃ first rest, chain = first :: rest ∧ Installed first ∧
      (∀ block ∈ rest, block.hash = block.getHash C) ∧ rest.IsChain (Block.Follows C) := by
  induction h with
  | fromInitialise db utxoPool now =>
    exact ⟨genesisBlock now, [], rfl, ⟨rfl, rfl, rfl⟩, by simp, .nil⟩
  | @fromInitializeChain bc bc' wallet utxoSet now hheight hinit =>
    exact ⟨Blockchain.initialBlock C wallet utxoSet now, [],
      Blockchain.chain_initializeChain hheight hinit, installed_initialBlock C wallet utxoSet now,
      by simp, .nil⟩
  | @mine n n' env minerAddress block _ hmine ih =>
    obtain ⟨first, rest, hchain, hfirst, hhash, hlinks⟩ := ih
    refine ⟨first, rest ++ [block], ?_, hfirst, ?_, ?_⟩
    · rw [Node.chain_mineBlock hmine, hchain, List.cons_append]
    · intro b hb
      rcases List.mem_append.mp hb with hb | hb
      · exact hhash b hb
      · obtain rfl := List.mem_singleton.mp hb
        exact Node.hash_mineBlock hmine
    · -- the block before the new one is in `rest`, so its hash has been filled
      refine hlinks.append (.singleton block) ?_
      intro previous hprevious b hb
      obtain rfl : block = b := by simpa using hb
      have hlatest : n.blockchain.getLatestBlock C = some previous := by
        have hlast : n.blockchain.chain.getLast? = some previous := by
          rw [hchain, List.getLast?_cons, hprevious]
          rfl
        rw [Blockchain.getLatestBlock, hlast]
      exact (Node.follows_mineBlock_iff hmine hlatest).mpr
        (hhash previous (List.mem_of_mem_getLast? hprevious))

/-- **No self-grown chain is valid**: its first block has the number zero, so its cumulative
difficulty is compared with its difficulty, and it has never been set. -/
theorem SelfGrown.not_valid {C : Crypto} {chain : List Block} (h : SelfGrown C chain) :
    validateCandidateChain C chain = false := by
  obtain ⟨first, rest, rfl, ⟨hnumber, hdifficulty, hcumulative⟩, -, -⟩ := h.shape
  by_contra hvalid
  rw [Bool.not_eq_false] at hvalid
  obtain ⟨first', hfirst, hgenesis, -⟩ := validateCandidateChain_iff.mp hvalid
  obtain rfl : first = first' := Option.some.inj hfirst
  have hequal := (hgenesis hnumber).2
  rw [hcumulative, hdifficulty] at hequal
  exact absurd hequal (by decide)

/-- A hash function whose digests start with zeros, so that every nonce will do, and go on with the
first bytes of what is hashed, so that the rewards of a block have different identifiers. -/
def leadingZero : Crypto :=
  { Crypto.sample with sha256 := fun data => ⟨0 :: pad data, by simp⟩ }

/-- A node with the first block, a pool of outputs and a validator. -/
def firstNode : Node where
  blockchain := { initialiseBlockchain {} {} 0 with stakePool := agreeingPool }

theorem SelfGrown.not_valid_mined :
    ∃ n block, firstNode.mineBlock leadingZero agreeingEnv "miner" = some (n, .ok block) ∧
      SelfGrown leadingZero n.blockchain.chain ∧
      validateCandidateChain leadingZero n.blockchain.chain = false := by
  have hsome : ((firstNode.mineBlock leadingZero agreeingEnv "miner").bind
      fun r => r.2.toOption).isSome := by decide +kernel
  obtain ⟨block, hblock⟩ := Option.isSome_iff_exists.mp hsome
  obtain ⟨n, hmined⟩ := Node.exists_of_bind_toOption hblock
  have hgrown := SelfGrown.mine (.fromInitialise {} {} 0) hmined
  exact ⟨n, block, hmined, hgrown, SelfGrown.not_valid hgrown⟩

/-- Neither of the two ways to install the first block gives a valid chain. -/
theorem installed_chains_not_valid :
    validateCandidateChain Crypto.sample (initialiseBlockchain {} {} 0).chain = false ∧
      (Blockchain.initializeChain Crypto.sample { db := some {} } (some "wallet") ∅ 0).toOption.map
        (fun bc => (bc.chain.length, validateCandidateChain Crypto.sample bc.chain)) =
        some (1, false) := by
  decide +kernel

end HybridChain
