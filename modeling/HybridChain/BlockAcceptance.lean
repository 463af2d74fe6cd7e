import HybridChain.BlockStream
import HybridChain.DoubleSpend

/-!
# What an accepted block guarantees

The handler of received blocks looks at the header and at the hash that comes with a block, not at
its body. So a header that is accepted is accepted with any body.

## Main definitions

* `AcceptsHeader`: the checks of the handler
* `SpendsOnlySpendable`, `CarriesWorkAndBody`, `MintsAtMostReward`: what a block should be

## Main results

* `accepted_spends_iff`, `accepted_work_iff`, `accepted_mint_iff`: acceptance guarantees none of
  these, unless no header is accepted
-/

namespace HybridChain

open Crypto (sample)

namespace Node

variable (C : Crypto) (n : Node)

/-- What the handler checks of a message: the parent of the header is known and has the number
before, the header has the hash that comes with it and continues the latest block, and the hash has
not been seen. -/
def AcceptsHeader (header : BlockHeader) (hash : String) : Prop :=
  (n.blockchain.calculateCumulativeDifficulty C header).isOk = true ∧
    n.blockchain.validateBlock C { header := header, hash := hash, originalHash := hash } = .ok () ∧
    hash ∉ n.broadcastedBlocks

/-- The block that the handler makes of a header, a body and a hash. -/
def receivedBlock (header : BlockHeader) (body : BlockBody) (hash : String)
    (cumulativeDifficulty : UInt64) : Block :=
  Block.rememberHash C
    { header := header
      body := body
      hash := hash
      originalHash := hash
      cumulativeDifficulty := cumulativeDifficulty }

lemma validateBlock_congr (bc : Blockchain) {block block' : Block}
    (hheader : block.header = block'.header)
    (horiginal : block.originalHash = block'.originalHash) :
    bc.validateBlock C block = bc.validateBlock C block' := by
  unfold Blockchain.validateBlock Block.getHash
  rw [hheader, horiginal]

lemma chain_acceptBlock (peer hash : String) (block : Block) (now₁ now₂ : ℤ) :
    (n.acceptBlock C peer hash block now₁ now₂).blockchain.chain =
      n.blockchain.chain ++ [block] := by
  unfold acceptBlock clearMempool
  simp only [updatePeerScore_fst, chain_processBlockUTXOs, chain_addBlockWithoutValidation]

/-- **The handler accepts what passes its checks**, whatever the body. -/
lemma handleBlockStream_of_acceptsHeader {header : BlockHeader} {hash : String}
    (h : n.AcceptsHeader C header hash) (peer : String) (body : BlockBody) (now₁ now₂ : ℤ) :
    ∃ cumulativeDifficulty,
      n.handleBlockStream C peer (some { header := some header, body := some body, hash := hash })
          now₁ now₂ =
        (n.acceptBlock C peer hash (receivedBlock C header body hash cumulativeDifficulty) now₁
          now₂, .accepted) := by
  obtain ⟨hdiff, hvalid, hnew⟩ := h
  cases hcalc : n.blockchain.calculateCumulativeDifficulty C header with
  | error err => simp [hcalc, Except.isOk, Except.toBool] at hdiff
  | ok difficulty =>
    refine ⟨difficulty, ?_⟩
    have hvalid' : n.blockchain.validateBlock C
        { header := header, body := body, hash := hash, originalHash := hash,
          cumulativeDifficulty := difficulty } = .ok () :=
      (validateBlock_congr C n.blockchain rfl rfl).trans hvalid
    simp only [handleBlockStream, hcalc, hvalid', if_neg hnew]
    rfl

/-- **Which blocks the handler appends**: those made of a message whose header and hash pass. -/
theorem acceptsHeader_of_appended {peer : String} {data : Option BlockMessage} {now₁ now₂ : ℤ}
    {block : Block}
    (h : (n.handleBlockStream C peer data now₁ now₂).1.blockchain.chain =
      n.blockchain.chain ++ [block]) :
    ∃ header body hash cumulativeDifficulty, n.AcceptsHeader C header hash ∧
      block = receivedBlock C header body hash cumulativeDifficulty := by
  rcases n.handleBlockStream_cases C peer data now₁ now₂ with ⟨-, hsame⟩ |
    ⟨msg, header, body, difficulty, -, -, -, hdiff, hvalid, hnew, heq⟩
  · rw [hsame] at h
    have hlen := congrArg List.length h
    rw [List.length_append, List.length_singleton] at hlen
    omega
  · refine ⟨header, body, msg.hash, difficulty, ⟨by rw [hdiff]; rfl, hvalid, hnew⟩, ?_⟩
    rw [heq, chain_acceptBlock] at h
    exact (List.singleton_inj.mp (List.append_cancel_left h)).symm

/-- **Properties that depend on the body**: if every accepted header comes with some body that
violates a property, then every appended block has it exactly when no header is accepted. -/
theorem forall_appended_iff {P : Block → Prop}
    (hbad : ∀ header hash, n.AcceptsHeader C header hash →
      ∃ body, ∀ cumulativeDifficulty, ¬ P (receivedBlock C header body hash cumulativeDifficulty)) :
    (∀ peer data now₁ now₂ block, (n.handleBlockStream C peer data now₁ now₂).1.blockchain.chain =
        n.blockchain.chain ++ [block] → P block) ↔
      ∀ header hash, ¬ n.AcceptsHeader C header hash := by
  constructor
  · intro hall header hash hacc
    obtain ⟨body, hviolates⟩ := hbad header hash hacc
    obtain ⟨difficulty, heq⟩ := n.handleBlockStream_of_acceptsHeader C hacc "" body 0 0
    refine hviolates difficulty (hall ""
      (some { header := some header, body := some body, hash := hash }) 0 0 _ ?_)
    rw [heq]
    exact n.chain_acceptBlock C "" hash _ 0 0
  · intro hnone peer data now₁ now₂ block happended
    obtain ⟨header, body, hash, difficulty, hacc, -⟩ := n.acceptsHeader_of_appended C happended
    exact absurd hacc (hnone header hash)

end Node

/-! ## Bodies that come with a header -/

def singleBody (C : Crypto) (tx : Transaction) : BlockBody where
  transactions := PatriciaTrie.new.insert C tx

lemma transactions_receivedBlock (C : Crypto) (header : BlockHeader) (tx : Transaction)
    (hash : String) (cumulativeDifficulty : UInt64) :
    (Node.receivedBlock C header (singleBody C tx) hash cumulativeDifficulty).transactions =
      [tx] := by
  have hperm := @PatriciaTrie.perm_insertBatch C [tx] (List.nodup_singleton _)
  rw [Block.transactions, Node.receivedBlock, Block.body_rememberHash]
  exact List.perm_singleton.mp hperm

/-! ## Spending -/

/-- The input refers to an unspent output of the sender in the pool. -/
def SpendableInPool (pool : Option UTXOPool) (tx : Transaction) (input : TransactionInput) : Prop :=
  ∃ p utxo, pool = some p ∧ Mempool.Spendable p.utxos tx.sender input.key utxo

/-- The input refers to an output for the sender of another transaction of the block. -/
def CreatedInBlock (txs : List Transaction) (tx : Transaction) (input : TransactionInput) : Prop :=
  ∃ other ∈ txs, other ≠ tx ∧ input.transactionID = other.transactionID ∧
    ∃ (i : ℕ) (output : TransactionOutput), other.outputs[i]? = some output ∧
      input.outputIndex = i ∧ output.receiver = tx.sender

/-- The transactions of a block spend only what may be spent: they are signed, their inputs are
outputs of the sender, in the pool or made by another transaction of the block, and no reference is
used twice. -/
structure SpendsOnlySpendable (C : Crypto) (pool : Option UTXOPool) (txs : List Transaction) :
    Prop where
  signed : ∀ tx ∈ regular txs, tx.verifySignature C = true
  spendable : ∀ tx ∈ regular txs, ∀ input ∈ tx.inputs,
    SpendableInPool pool tx input ∨ CreatedInBlock txs tx input
  once : (references txs).Nodup

/-- A transaction that lists one reference twice. -/
def doubleInput : Transaction where
  transactionID := "t"
  sender := "mallory"
  receiver := "mallory"
  inputs := [{ transactionID := "genesis", outputIndex := 0 },
    { transactionID := "genesis", outputIndex := 0 }]
  outputs := [{ receiver := "mallory", amount := 10 }]

/-- **Accepted blocks spend only what may be spent exactly when no header is accepted.** -/
theorem accepted_spends_iff (C : Crypto) (n : Node) : (∀ peer data now₁ now₂ block,
      (n.handleBlockStream C peer data now₁ now₂).1.blockchain.chain =
        n.blockchain.chain ++ [block] →
      SpendsOnlySpendable C n.blockchain.utxoPool block.transactions) ↔
      ∀ header hash, ¬ n.AcceptsHeader C header hash := by
  refine n.forall_appended_iff C fun header hash _ => ⟨singleBody C doubleInput, ?_⟩
  intro difficulty hspends
  rw [transactions_receivedBlock] at hspends
  exact absurd hspends.once (by decide)

/-- A block is accepted whose only transaction is not signed and spends the output of another
address, twice. -/
theorem accepted_block_steals :
    let result := tenTokensNode.handleBlockStream sample "peer" (some (secondBlock doubleInput)) 5 6
    result.2 = .accepted ∧
      result.1.blockchain.chain.getLast?.map Block.transactions = some [doubleInput] ∧
      doubleInput.verifySignature sample = false ∧
      (Ledger.tenTokensLinked.1.utxos.lookup "genesis-0").map UTXO.owner = some "alice" ∧
      references [doubleInput] = [("genesis", 0), ("genesis", 0)] := by
  decide +kernel

/-! ## Work and body -/

/-- `calculateDifficulty`: the difficulty does not change. -/
def calculateDifficulty (previousBlock : Block) : UInt32 := previousBlock.header.difficulty

/-- The hash of a block shows the work its difficulty asks for, the difficulty is the one due, and
the Merkle root is that of the transactions. -/
structure CarriesWorkAndBody (C : Crypto) (parent : Option Block) (block : Block) : Prop where
  work : isHashValid (block.getHash C) block.header.difficulty = true
  difficulty : ∀ p, parent = some p → block.header.difficulty = calculateDifficulty p
  merkleRoot : block.header.merkleRoot = block.body.transactions.rootHash C

/-- A trie whose root is marked as a leaf, with a hash text of its own. -/
def forgedTrie (hash : String) : PatriciaTrie :=
  ⟨.node { isLeaf := true, hash := hash } [(0, .node {} [])]⟩

lemma rootHash_forgedTrie (C : Crypto) (hash : String) : (forgedTrie hash).rootHash C = hash := by
  simp [forgedTrie, PatriciaTrie.rootHash, PatriciaTrie.generateRootHash, PatriciaTrie.computeHash,
    EdgeTree.Tree.children]

/-- **Accepted blocks carry their work and their body exactly when no header is accepted.** -/
theorem accepted_work_iff (C : Crypto) (n : Node) : (∀ peer data now₁ now₂ block,
      (n.handleBlockStream C peer data now₁ now₂).1.blockchain.chain =
        n.blockchain.chain ++ [block] →
      CarriesWorkAndBody C (n.blockchain.getLatestBlock C) block) ↔
      ∀ header hash, ¬ n.AcceptsHeader C header hash := by
  refine n.forall_appended_iff C fun header hash _ =>
    ⟨{ transactions := forgedTrie (header.merkleRoot ++ "0") }, ?_⟩
  intro difficulty hcarries
  have hroot := hcarries.merkleRoot
  rw [Node.receivedBlock, Block.header_rememberHash, Block.body_rememberHash,
    rootHash_forgedTrie] at hroot
  have hlen := congrArg String.length hroot
  rw [String.length_append] at hlen
  have hone : ("0" : String).length = 1 := by decide
  dsimp only at hlen
  omega

def heavyHeader : BlockHeader :=
  { blockNumber := 1, previousHash := "first", merkleRoot := "root", difficulty := 5 }

/-- A block is accepted without work, with a difficulty that is not due and with a Merkle root that
is not that of its transactions. -/
theorem accepted_block_without_work :
    let msg : BlockMessage :=
      { header := some heavyHeader
        body := some (bodyOf payBackTen)
        hash := calculateHash sample heavyHeader }
    let result := tenTokensNode.handleBlockStream sample "peer" (some msg) 5 6
    result.2 = .accepted ∧ result.1.blockchain.chain.getLast?.map (fun block =>
        (isHashValid (block.getHash sample) block.header.difficulty,
          block.header.difficulty, block.header.merkleRoot ==
            block.body.transactions.rootHash sample)) = some (false, 5, false) ∧
      (tenTokensNode.blockchain.getLatestBlock sample).map calculateDifficulty = some 0 := by
  decide +kernel

/-! ## Rewards -/

/-- The outputs of the system transactions of a block. -/
def minted (txs : List Transaction) : ℚ := ((txs.filter Transaction.isSystem).map fun tx =>
    (tx.outputs.map TransactionOutput.amount).sum).sum

/-- A block mints at most the reward, in at most one coinbase transaction and one validator
reward. -/
structure MintsAtMostReward (parent : Option Block) (txs : List Transaction) : Prop where
  amount : ∀ p, parent = some p → minted txs ≤ calculateBlockReward p
  coinbase : (txs.filter Transaction.isCoinbase).length ≤ 1
  validatorReward : (txs.filter Transaction.isValidatorReward).length ≤ 1

def minting (amount : ℚ) : Transaction where
  transactionID := "mint"
  sender := "coinbase"
  receiver := "mallory"
  txType := TX_COINBASE
  outputs := [{ receiver := "mallory", amount := amount }]

lemma minted_minting (amount : ℚ) : minted [minting amount] = amount := by
  simp [minted, minting, Transaction.isSystem, Transaction.isCoinbase]

/-- **Accepted blocks mint at most the reward exactly when no header is accepted.** -/
theorem accepted_mint_iff (C : Crypto) (n : Node) : (∀ peer data now₁ now₂ block,
      (n.handleBlockStream C peer data now₁ now₂).1.blockchain.chain =
        n.blockchain.chain ++ [block] →
      MintsAtMostReward (n.blockchain.getLatestBlock C) block.transactions) ↔
      ∀ header hash, ¬ n.AcceptsHeader C header hash := by
  refine n.forall_appended_iff C fun header hash hacc => ?_
  obtain ⟨parent, hparent⟩ : ∃ parent, n.blockchain.getLatestBlock C = some parent := by
    cases hlatest : n.blockchain.getLatestBlock C with
    | some parent => exact ⟨parent, rfl⟩
    | none =>
      have hvalid := hacc.2.1
      simp only [Blockchain.validateBlock, hlatest] at hvalid
      split_ifs at hvalid
  refine ⟨singleBody C (minting (calculateBlockReward parent + 1)), ?_⟩
  intro difficulty hmints
  have hamount := hmints.amount parent hparent
  rw [transactions_receivedBlock, minted_minting] at hamount
  linarith

/-- A block is accepted that mints a million tokens where the reward is fifty. -/
theorem accepted_block_mints_million :
    let result := tenTokensNode.handleBlockStream sample "peer"
      (some (secondBlock (minting 1000000))) 5 6
    result.2 = .accepted ∧
      result.1.blockchain.chain.getLast?.map (fun block => minted block.transactions) =
        some 1000000 ∧
      (tenTokensNode.blockchain.getLatestBlock sample).map calculateBlockReward = some 50 := by
  decide +kernel

end HybridChain
