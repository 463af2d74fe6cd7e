import HybridChain.ChainGrowth

/-!
# The pool as a replay of the chain

`AddBlockWithUTXOProcessing` and `AddBlockWithoutValidation` change the chain, the hash of its last
block and the pool of outputs; `ResolveFork` and `RollbackToHeight` change the chain alone.

A block lists its transactions in the same order for every call. `bc.Node`, which only receives the
broadcast, is left out.

## Main definitions

* `addBlockWithoutValidation`, `rollbackToHeight`, `chainStep`
* `Replayed`: the pool is the replay of the chain, and the hash is current

## Main results

* `replayed_run_iff`: along which runs it is
-/

namespace HybridChain

open List
open KeyedLog (Store Event)
open Crypto (sample)

/-! ## Replay -/

/-- The outputs after `ProcessBlockTransactions` for each block, from an empty pool. -/
def replayedOutputs (C : Crypto) (chain : List Block) : Store String UTXO :=
  (chain.foldl (fun state block => (state.1.processBlockTransactions C state.2 block 0).1)
    (({} : UTXOPool), ({} : Host))).1.utxos

def unspentOutputs (utxos : Store String UTXO) : Store String UTXO :=
  KeyedLog.filterValues (fun utxo => !utxo.spent) utxos

def Block.events (block : Block) : List (Event String UTXO) :=
  block.transactions.flatMap (Transaction.events block.header.blockNumber)

lemma replayedOutputs_eq (C : Crypto) (chain : List Block) :
    replayedOutputs C chain = KeyedLog.run UTXO.markSpent ∅ (chain.flatMap Block.events) := by
  suffices h : ∀ (pool : UTXOPool) (host : Host),
      (chain.foldl (fun state block => (state.1.processBlockTransactions C state.2 block 0).1)
        (pool, host)).1.utxos =
      KeyedLog.run UTXO.markSpent pool.utxos (chain.flatMap Block.events) from h {} {}
  induction chain with
  | nil => intro pool host; rfl
  | cons block chain ih =>
    intro pool host
    rw [foldl_cons, ih, UTXOPool.utxos_processBlockTransactions, flatMap_cons, KeyedLog.run_append]
    rfl

lemma replayedOutputs_append (C : Crypto) (chain blocks : List Block) :
    replayedOutputs C (chain ++ blocks) =
      KeyedLog.run UTXO.markSpent (replayedOutputs C chain) (blocks.flatMap Block.events) := by
  rw [replayedOutputs_eq, replayedOutputs_eq, flatMap_append, KeyedLog.run_append]

variable {C : Crypto}

lemma SameBlocks.replayedOutputs_eq {blocks blocks' : List Block}
    (h : SameBlocks C blocks blocks') : replayedOutputs C blocks' = replayedOutputs C blocks := by
  have hevents : ∀ block : Block, (block.rememberHash C).events = block.events := by
    intro block
    simp [Block.events, Block.transactions]
  rw [HybridChain.replayedOutputs_eq, HybridChain.replayedOutputs_eq, flatMap_def,
    flatMap_def, h.map_eq hevents]

lemma unspentOutputs_run_congr {s t : Store String UTXO} (h : unspentOutputs s = unspentOutputs t)
    (es : List (Event String UTXO)) : unspentOutputs (KeyedLog.run UTXO.markSpent s es) =
      unspentOutputs (KeyedLog.run UTXO.markSpent t es) :=
  KeyedLog.filterValues_run_congr UTXO.markSpent (fun _ => rfl) h es

/-- Blocks that change no unspent output when they come after a chain. -/
def Inert (C : Crypto) (chain blocks : List Block) : Prop :=
  unspentOutputs (replayedOutputs C (chain ++ blocks)) = unspentOutputs (replayedOutputs C chain)

/-! ## The calls -/

/-- The chain after a call of `Hash` for its last block. -/
def rememberLast (C : Crypto) (chain : List Block) : List Block :=
  chain.dropLast ++ (chain.getLast?.map (Block.rememberHash C)).toList

/-- The errors that a call meets on the way to the database. -/
structure StoreFaults where
  /-- That of `json.Marshal`, which fails for a time outside of the years 0 to 9999. -/
  marshal : Option String := none
  putBlock : Option String := none
  putLatest : Option String := none

/-- The blockchain with the address of the validator of its last block. -/
structure ChainState where
  blockchain : Blockchain := {}
  lastValidatorAddress : String := ""

/-- The part of `addBlockWithoutValidation` that writes to the database. -/
def BlockDB.storeBlock (C : Crypto) (db : BlockDB) (block : Block) (faults : StoreFaults) :
    BlockDB × Except String Unit :=
  match faults.marshal with
  | some err => (db, .error s!"failed to serialize block: {err}")
  | none =>
    match faults.putBlock with
    | some err => (db, .error s!"failed to store block: {err}")
    | none =>
      let db := { db with blocks := db.blocks.insert (block.getHash C) block.serialize }
      match faults.putLatest with
      | some err => (db, .error s!"failed to update latest block: {err}")
      | none => ({ db with latestBlock := block.getHash C }, .ok ())

/-- The faults of a database that fails every write if it is closed. -/
def BlockDB.closedFaults (db : BlockDB) : StoreFaults where
  putBlock := if db.closed then some "database closed" else none

namespace ChainState

variable (C : Crypto) (st : ChainState)

/-- The last validator after a block: the one in its header, if there is one. -/
def recordValidator (header : BlockHeader) : String :=
  if header.validatedBy ≠ "" then header.validatedBy else st.lastValidatorAddress

/-- `addBlockWithoutValidation`, the unexported method, which does check hash, number and previous
hash. If the database fails, the block has been added already. -/
def addBlockWithoutValidation (block : Block) (faults : StoreFaults) :
    ChainState × Except String Unit :=
  let block := block.rememberHash C
  let bc := st.blockchain
  if block.getHash C ≠ block.hash then (st, .error "invalid block hash")
  else if block.header.blockNumber ≠ UInt64.ofNat bc.chain.length then
    (st, .error "invalid block number")
  else
    let linked := bc.chain.getLast?.all fun last => block.header.previousHash == last.getHash C
    let bc := { bc with chain := rememberLast C bc.chain }
    if ¬ linked then ({ st with blockchain := bc }, .error "invalid previous hash")
    else
      let lastValidatorAddress := st.recordValidator block.header
      let bc := { bc with chain := bc.chain ++ [block], currentHash := block.getHash C }
      match bc.db with
      | none => (⟨bc, lastValidatorAddress⟩, .ok ())
      | some db =>
        let (db, result) := db.storeBlock C block faults
        (⟨{ bc with db := some db }, lastValidatorAddress⟩, result)

end ChainState

namespace Blockchain

variable (C : Crypto) (bc : Blockchain)

/-- `addBlockWithoutValidation` with a database that fails if it is closed, and only then. -/
def addCheckedBlock (block : Block) : Blockchain × Except String Unit :=
  let faults := (bc.db.map BlockDB.closedFaults).getD {}
  let (st, result) := ChainState.addBlockWithoutValidation C { blockchain := bc } block faults
  (st.blockchain, result)

def rollbackToHeight (height : UInt64) : Except String Blockchain :=
  if height.toNat ≥ bc.chain.length then .error "invalid rollback height"
  else .ok { bc with chain := bc.chain.take (height.toNat + 1) }

end Blockchain

/-- `AddBlockWithUTXOProcessing` at the time `now`. -/
def Node.addBlockWithUTXOProcessing (C : Crypto) (n : Node) (block : Block) (now : ℤ) :
    Node × Except String Unit :=
  match n.blockchain.validateBlock C block with
  | .error err => (n, .error err)
  | .ok _ =>
    match n.blockchain.addCheckedBlock C block with
    | (bc, .error err) => ({ n with blockchain := bc }, .error err)
    | (bc, .ok _) =>
      let n := { n with blockchain := bc }.processBlockUTXOs C (block.rememberHash C) now
      (n.broadcastBlock (block.getHash C), .ok ())

inductive ChainCall where
  | addBlockWithUTXOProcessing (block : Block) (now : ℤ)
  | addBlockWithoutValidation (block : Block) (now : ℤ)
  | resolveFork (candidateChain : List Block)
  | rollbackToHeight (height : UInt64)

namespace Node

variable (C : Crypto)

/-- The node after a call, and whether the call succeeds. -/
def chainStep (n : Node) : ChainCall → Node × Bool
  | .addBlockWithUTXOProcessing block now =>
    let (n, result) := n.addBlockWithUTXOProcessing C block now
    (n, result.isOk)
  | .addBlockWithoutValidation block now => (n.addBlockWithoutValidation C block now, true)
  | .resolveFork candidateChain =>
    let (resolved, bc) := n.blockchain.resolveFork C candidateChain
    ({ n with blockchain := bc }, resolved)
  | .rollbackToHeight height =>
    match n.blockchain.rollbackToHeight height with
    | .error _ => (n, false)
    | .ok bc => ({ n with blockchain := bc }, true)

/-- The unspent outputs of the pool are those of the replay of the chain. -/
def OutputsReplayed (n : Node) : Prop := ∃ pool, n.blockchain.utxoPool = some pool ∧
    unspentOutputs pool.utxos = unspentOutputs (replayedOutputs C n.blockchain.chain)

/-- The current hash is that of the last block. -/
def HashCurrent (n : Node) : Prop := ∃ last, n.blockchain.chain.getLast? = some last ∧
    n.blockchain.currentHash = last.getHash C

/-- **The pool is the replay of the chain**, and the current hash is that of the last block. -/
def Replayed (n : Node) : Prop := n.OutputsReplayed C ∧ n.HashCurrent C

/-- **The calls that keep the pool a replay.** A block added without validation carries its hash; a
chain that is spliced or cut ends with a block that has the current hash, and the blocks added or
removed change no unspent output. -/
def KeepsReplay (n : Node) : ChainCall → Prop
  | .addBlockWithUTXOProcessing _ _ => True
  | .addBlockWithoutValidation block _ => block.hash = block.getHash C
  | .resolveFork candidateChain =>
    (∃ tip, candidateChain.getLast? = some tip ∧ n.blockchain.currentHash = tip.getHash C) ∧
    Inert C n.blockchain.chain (candidateChain.drop n.blockchain.chain.length)
  | .rollbackToHeight height =>
    (∃ tip, n.blockchain.chain[height.toNat]? = some tip ∧
      n.blockchain.currentHash = tip.getHash C) ∧
    Inert C (n.blockchain.chain.take (height.toNat + 1))
      (n.blockchain.chain.drop (height.toNat + 1))

end Node

/-! ## Adding a block -/

lemma sameBlocks_rememberLast (C : Crypto) (chain : List Block) :
    SameBlocks C chain (rememberLast C chain) := by
  rcases eq_nil_or_concat chain with rfl | ⟨init, last, rfl⟩
  · exact .refl C []
  · rw [concat_eq_append, rememberLast, dropLast_concat, List.getLast?_concat]
    exact (SameBlocks.refl C init).append (.cons (.inr rfl) .nil)

lemma Blockchain.addCheckedBlock_ok {bc bc' : Blockchain} {block : Block}
    (h : bc.addCheckedBlock C block = (bc', .ok ())) :
    bc'.chain = rememberLast C bc.chain ++ [block.rememberHash C] ∧
      bc'.currentHash = block.getHash C ∧ bc'.utxoPool = bc.utxoPool := by
  simp only [addCheckedBlock, ChainState.addBlockWithoutValidation, Block.getHash_rememberHash,
    BlockDB.storeBlock] at h
  split_ifs at h with hhash hnumber hlinked
  · simp at h
  · simp at h
  · cases hdb : bc.db with
    | none =>
      simp only [hdb, Prod.mk.injEq, and_true] at h
      rw [← h]
      exact ⟨rfl, rfl, rfl⟩
    | some db =>
      simp only [hdb, Option.map_some, Option.getD_some, BlockDB.closedFaults] at h
      split_ifs at h
      · simp at h
      · simp only [Prod.mk.injEq, and_true] at h
        rw [← h]
        exact ⟨rfl, rfl, rfl⟩
  · simp at h

variable {chain : List Block}

namespace Node

variable {C : Crypto} {n : Node}

lemma processBlockUTXOs_spec {pool : UTXOPool} (hpool : n.blockchain.utxoPool = some pool)
    (block : Block) (now : ℤ) : ∃ pool', (n.processBlockUTXOs C block now).blockchain =
        { n.blockchain with utxoPool := some pool' } ∧
      pool'.utxos = KeyedLog.run UTXO.markSpent pool.utxos block.events := by
  simp only [processBlockUTXOs, hpool]
  exact ⟨_, rfl, pool.utxos_processBlockTransactions C n.host block now⟩

lemma OutputsReplayed.add (h : n.OutputsReplayed C)
    (hsame : SameBlocks C n.blockchain.chain chain) {bc : Blockchain} (block : Block) (now : ℤ)
    (hchain : bc.chain = chain ++ [block]) (hpool : bc.utxoPool = n.blockchain.utxoPool) :
    OutputsReplayed C ({ n with blockchain := bc }.processBlockUTXOs C block now) := by
  obtain ⟨pool, hsome, houtputs⟩ := h
  obtain ⟨pool', hbc, hrun⟩ := processBlockUTXOs_spec (C := C)
    (n := { n with blockchain := bc }) (hpool.trans hsome) block now
  refine ⟨pool', by rw [hbc], ?_⟩
  rw [hbc, hrun]
  show _ = unspentOutputs (replayedOutputs C bc.chain)
  rw [hchain, replayedOutputs_append, flatMap_singleton]
  apply unspentOutputs_run_congr
  rw [hsame.replayedOutputs_eq, houtputs]

lemma replayed_addBlockWithUTXOProcessing (h : n.OutputsReplayed C) {block : Block} {now : ℤ}
    (hok : (n.chainStep C (.addBlockWithUTXOProcessing block now)).2 = true) :
    (n.chainStep C (.addBlockWithUTXOProcessing block now)).1.Replayed C := by
  simp only [chainStep, addBlockWithUTXOProcessing] at hok ⊢
  cases hvalid : n.blockchain.validateBlock C block with
  | error err => simp [hvalid, Except.isOk, Except.toBool] at hok
  | ok _ =>
    rcases hadd : n.blockchain.addCheckedBlock C block with ⟨bc, err | ⟨⟩⟩
    · simp [hvalid, hadd, Except.isOk, Except.toBool] at hok
    · obtain ⟨hchain, hcurrent, hpool⟩ := Blockchain.addCheckedBlock_ok hadd
      have houtputs := h.add (sameBlocks_rememberLast C _) (block.rememberHash C) now hchain hpool
      obtain ⟨pool, hsome, -⟩ := h
      obtain ⟨pool', hbc, -⟩ := processBlockUTXOs_spec (C := C)
        (n := { n with blockchain := bc }) (hpool.trans hsome) (block.rememberHash C) now
      unfold Replayed OutputsReplayed HashCurrent
      simp only [blockchain_broadcastBlock]
      refine ⟨houtputs, block.rememberHash C, ?_, ?_⟩
      · rw [hbc]
        show bc.chain.getLast? = _
        rw [hchain, List.getLast?_concat]
      · rw [hbc, Block.getHash_rememberHash]
        exact hcurrent

/-- A block that `AddBlockWithoutValidation` takes keeps the pool a replay if it carries its
hash. -/
lemma replayed_addBlockWithoutValidation_iff (h : n.OutputsReplayed C) (block : Block) (now : ℤ) :
    (n.addBlockWithoutValidation C block now).Replayed C ↔ block.hash = block.getHash C := by
  have houtputs : (n.addBlockWithoutValidation C block now).OutputsReplayed C :=
    h.add (.refl C _) block now rfl rfl
  obtain ⟨pool, hsome, -⟩ := h
  obtain ⟨pool', hbc, -⟩ := processBlockUTXOs_spec (C := C) (n := { n with blockchain :=
    { n.blockchain with chain := n.blockchain.chain ++ [block], currentHash := block.hash } })
    hsome block now
  unfold Replayed HashCurrent
  rw [and_iff_right houtputs]
  unfold addBlockWithoutValidation
  rw [hbc]
  simp

end Node

/-! ## Splicing and cutting the chain -/

lemma findHash_concat {hash : String} (init : List Block) {last : Block}
    (h : last.getHash C = hash) : (findHash C hash (init ++ [last])).1 = some init.length := by
  induction init with
  | nil => simp [findHash, h]
  | cons a init ih =>
    rcases hfind : findHash C hash (init ++ [last]) with ⟨j, blocks⟩
    rw [hfind] at ih
    obtain rfl : j = some init.length := ih
    simp [findHash, hfind]

lemma findCommonAncestor_concat (init : List Block)
    {tip : Block} {j : ℕ} (h : (findHash C (tip.getHash C) chain).1 = some j) :
    (findCommonAncestor C chain (init ++ [tip])).1 = some j := by
  induction init with
  | nil => simpa [findCommonAncestor] using h
  | cons a init ih =>
    rcases hfind : findCommonAncestor C chain (init ++ [tip]) with ⟨k, blocks⟩
    rw [hfind] at ih
    obtain rfl : k = some j := ih
    simp [findCommonAncestor, hfind]

variable {candidateChain : List Block}

lemma findCommonAncestor_of_tip_eq
    {last tip : Block} (hlast : chain.getLast? = some last)
    (htip : candidateChain.getLast? = some tip) (h : last.getHash C = tip.getHash C) :
    (findCommonAncestor C chain candidateChain).1 = some (chain.length - 1) := by
  obtain ⟨init, rfl⟩ := List.getLast?_eq_some_iff.mp hlast
  obtain ⟨init', rfl⟩ := List.getLast?_eq_some_iff.mp htip
  rw [findCommonAncestor_concat init' (findHash_concat init h)]
  simp

namespace Node

variable {C : Crypto} {n : Node}

lemma outputsReplayed_exchange_iff (h : n.OutputsReplayed C) (chain : List Block) :
    OutputsReplayed C { n with blockchain := { n.blockchain with chain := chain } } ↔
      unspentOutputs (replayedOutputs C chain) =
        unspentOutputs (replayedOutputs C n.blockchain.chain) := by
  obtain ⟨pool, hsome, houtputs⟩ := h
  constructor
  · rintro ⟨pool', hsome', houtputs'⟩
    obtain rfl : pool = pool' := Option.some.inj (hsome.symm.trans hsome')
    exact houtputs'.symm.trans houtputs
  · intro heq
    exact ⟨pool, hsome, houtputs.trans heq.symm⟩

/-- A successful rollback keeps the pool a replay exactly if the block it ends with has the current
hash and the removed blocks are inert. -/
lemma replayed_rollbackToHeight_iff (h : n.OutputsReplayed C) {height : UInt64}
    (hok : (n.chainStep C (.rollbackToHeight height)).2 = true) :
    (n.chainStep C (.rollbackToHeight height)).1.Replayed C ↔
      n.KeepsReplay C (.rollbackToHeight height) := by
  by_cases hheight : height.toNat ≥ n.blockchain.chain.length
  · simp [chainStep, Blockchain.rollbackToHeight, hheight] at hok
  have hstep : (n.chainStep C (.rollbackToHeight height)).1 = { n with blockchain :=
      { n.blockchain with chain := n.blockchain.chain.take (height.toNat + 1) } } := by
    simp only [chainStep, Blockchain.rollbackToHeight, if_neg hheight]
  have hlast : (n.blockchain.chain.take (height.toNat + 1)).getLast? =
      n.blockchain.chain[height.toNat]? := by
    rw [List.getLast?_take, if_neg (by omega), Nat.add_sub_cancel, Option.or_of_isSome]
    rw [List.getElem?_eq_getElem (by omega)]
    rfl
  simp only [hstep, Replayed, HashCurrent, KeepsReplay, Inert]
  rw [outputsReplayed_exchange_iff h, take_append_drop, hlast, and_comm, eq_comm]

/-- A successful fork resolution keeps the pool a replay exactly if the candidate ends with the
current hash and its new blocks are inert. -/
lemma replayed_resolveFork_iff (h : n.OutputsReplayed C)
    (hhash : n.blockchain.currentHash = "" ∨ n.HashCurrent C)
    (hok : (n.chainStep C (.resolveFork candidateChain)).2 = true) :
    (n.chainStep C (.resolveFork candidateChain)).1.Replayed C ↔
      n.KeepsReplay C (.resolveFork candidateChain) := by
  simp only [chainStep] at hok ⊢
  obtain ⟨chain, hresult, -⟩ | ⟨k, ancestor, chain, newChain, current, tip, hfind, hancestor,
    -, hsame, hnew, hlast, hlen, hcurrent, htip, -, -, hresult⟩ :=
    n.blockchain.resolveFork_cases C candidateChain
  · simp [hresult] at hok
  rw [hresult]
  obtain ⟨-, hend, -⟩ := Blockchain.splice_spec hsame.length_eq hnew.length_eq hancestor hlen
  have hend' := hend.trans (hlast.trans htip)
  -- the splice is at the end of the chain as soon as the hashes agree
  have hsplice : n.blockchain.currentHash = tip.getHash C →
      replayedOutputs C (chain.take (k + 1) ++ newChain.drop (k + 1)) = replayedOutputs C
        (n.blockchain.chain ++ candidateChain.drop n.blockchain.chain.length) := by
    intro htipHash
    obtain hempty | ⟨last, hlast', hlastHash⟩ := hhash
    · exact absurd (htipHash.symm.trans hempty) (Block.getHash_ne_empty C tip)
    have hindex := findCommonAncestor_of_tip_eq hlast' htip (hlastHash.symm.trans htipHash)
    obtain rfl : k = n.blockchain.chain.length - 1 := Option.some.inj (hfind.symm.trans hindex)
    have hlength : n.blockchain.chain.length - 1 + 1 = n.blockchain.chain.length := by
      have := (List.getElem?_eq_some_iff.mp hancestor).1
      omega
    rw [hlength]
    apply SameBlocks.replayedOutputs_eq
    have htake := (hsame.take n.blockchain.chain.length).append
      (hnew.drop n.blockchain.chain.length)
    rwa [take_length] at htake
  simp only [Replayed, HashCurrent, KeepsReplay, Inert]
  rw [outputsReplayed_exchange_iff h]
  simp only [hend', htip, Option.some.injEq, exists_eq_left']
  rw [and_comm]
  exact and_congr_right fun htipHash => by rw [hsplice htipHash]

/-- **What keeps the pool a replay**, for one successful call. -/
theorem replayed_chainStep_iff (h : n.OutputsReplayed C)
    (hhash : n.blockchain.currentHash = "" ∨ n.HashCurrent C) {call : ChainCall}
    (hok : (n.chainStep C call).2 = true) :
    (n.chainStep C call).1.Replayed C ↔ n.KeepsReplay C call := by
  cases call with
  | addBlockWithUTXOProcessing block now =>
    exact iff_of_true (replayed_addBlockWithUTXOProcessing h hok) trivial
  | addBlockWithoutValidation block now => exact replayed_addBlockWithoutValidation_iff h block now
  | resolveFork candidateChain => exact replayed_resolveFork_iff h hhash hok
  | rollbackToHeight height => exact replayed_rollbackToHeight_iff h hok

def fresh (n : Node) (db : BlockDB) (utxoPool : UTXOPool) (now : ℤ) : Node :=
  { n with blockchain := initialiseBlockchain db utxoPool now }

lemma events_genesisBlock (now : ℤ) : (genesisBlock now).events = [] := by
  simp [Block.events, Block.transactions, genesisBlock]

lemma outputsReplayed_fresh (n : Node) (db : BlockDB) {utxoPool : UTXOPool} (now : ℤ)
    (hempty : utxoPool.utxos = ∅) : (n.fresh db utxoPool now).OutputsReplayed C := by
  refine ⟨utxoPool, rfl, ?_⟩
  show _ = unspentOutputs (replayedOutputs C [genesisBlock now])
  rw [replayedOutputs_eq, flatMap_singleton, events_genesisBlock, hempty]
  rfl

/-- **When the pool is the replay of the chain.** Along a run of successful calls from a fresh
blockchain, whose current hash is empty, the pool is the replay and the current hash that of the
last block after every call exactly when every call is one of those in `KeepsReplay`. -/
theorem replayed_run_iff (C : Crypto) (n : Node) (db : BlockDB) (utxoPool : UTXOPool) (now : ℤ)
    (hempty : utxoPool.utxos = ∅) (calls : List ChainCall)
    (hok : Run.Along (fun n call => (chainStep C n call).1)
      (fun n call => (chainStep C n call).2 = true) (n.fresh db utxoPool now) calls) :
    ¬ (n.fresh db utxoPool now).Replayed C ∧
      ((∀ s ∈ (List.scanl (fun n call => (chainStep C n call).1) (n.fresh db utxoPool now)
          calls).tail, s.Replayed C) ↔
        Run.Along (fun n call => (chainStep C n call).1) (KeepsReplay C)
          (n.fresh db utxoPool now) calls) := by
  constructor
  · rintro ⟨-, last, -, hlast⟩
    exact Block.getHash_ne_empty C last hlast.symm
  have houtputs := outputsReplayed_fresh (C := C) n db now hempty
  cases calls with
  | nil => simp [Run.Along]
  | cons call calls =>
    have hfirst := replayed_chainStep_iff houtputs (.inl rfl) hok.1
    -- from the first call on, the hash is current whenever the invariant holds
    have hrest : ∀ {m : Node}, m.Replayed C → Run.Along (fun n call => (chainStep C n call).1)
          (fun n call => (chainStep C n call).2 = true) m calls →
        ((∀ s ∈ List.scanl (fun n call => (chainStep C n call).1) m calls, s.Replayed C) ↔
          Run.Along (fun n call => (chainStep C n call).1) (KeepsReplay C) m calls) := by
      intro m hm hcalls
      refine Run.forall_mem_scanl_iff (fun s a hs ha => ?_) hm hcalls
      exact replayed_chainStep_iff hs.1 (.inr hs.2) ha
    rw [scanl_cons, tail_cons, Run.Along]
    constructor
    · intro hall
      have hm := hall _ (Run.self_mem_scanl _ _)
      exact ⟨hfirst.mp hm, (hrest hm hok.2).mp hall⟩
    · rintro ⟨hkeep, hkeeps⟩
      exact (hrest (hfirst.mpr hkeep) hok.2).mpr hkeeps

def paymentBlock : Block where
  header := { blockNumber := 1 }
  body :=
    { transactions := PatriciaTrie.new.insertBatch sample
        [{ transactionID := "p", outputs := [⟨"bob", 1, ""⟩] }] }
  hash := "h"
  originalHash := "h"

lemma transactions_paymentBlock : paymentBlock.transactions =
    [{ transactionID := "p", outputs := [⟨"bob", 1, ""⟩] }] :=
  perm_singleton.mp (PatriciaTrie.perm_insertBatch (by simp))

theorem replayed_run_no_cut :
    let n := fresh {} {} {} 0
    let calls := [ChainCall.addBlockWithoutValidation paymentBlock 0, .rollbackToHeight 1]
    ∀ s ∈ (List.scanl (fun n call => (chainStep sample n call).1) n calls).tail,
      s.Replayed sample := by
  intro n calls
  have hchain : (n.chainStep sample
      (.addBlockWithoutValidation paymentBlock 0)).1.blockchain.chain =
        [genesisBlock 0, paymentBlock] := rfl
  refine (replayed_run_iff sample {} {} {} 0 rfl calls ⟨rfl, ?_, trivial⟩).2.mpr
    ⟨rfl, ⟨⟨paymentBlock, rfl, rfl⟩, ?_⟩, trivial⟩
  · rfl
  · rw [hchain]
    rfl

/-- **A rollback keeps the outputs and the hash of the blocks it removes**: a block with a payment
is added to a fresh blockchain and removed again; the output stays in the pool, and the current hash
is that of the removed block. -/
theorem rollback_keeps_removed_outputs :
    let n := fresh {} {} {} 0
    let calls := [ChainCall.addBlockWithoutValidation paymentBlock 0, .rollbackToHeight 0]
    let s := calls.foldl (fun n call => (chainStep sample n call).1) n
    Run.Along (fun n call => (chainStep sample n call).1)
        (fun n call => (chainStep sample n call).2 = true) n calls ∧
      s.blockchain.chain = [genesisBlock 0] ∧
      (replayedOutputs sample s.blockchain.chain).lookup "p-0" = none ∧
      (∃ pool utxo, s.blockchain.utxoPool = some pool ∧ pool.utxos.lookup "p-0" = some utxo ∧
        utxo.spent = false) ∧
      s.blockchain.currentHash = "h" ∧ ¬ s.Replayed sample := by
  intro n calls s
  obtain ⟨pool, hpool, hrun⟩ := processBlockUTXOs_spec (C := sample) (n := { n with blockchain :=
      { n.blockchain with chain := [genesisBlock 0, paymentBlock], currentHash := "h" } })
    (rfl : _ = some ({} : UTXOPool)) paymentBlock 0
  have hsome : s.blockchain.utxoPool = some pool := congrArg Blockchain.utxoPool hpool
  have houtput : pool.utxos.lookup "p-0" =
      some { transactionID := "p", amount := 1, owner := "bob", blockHeight := 1 } := by
    rw [hrun, KeyedLog.lookup_run, Block.events, transactions_paymentBlock]
    decide +kernel
  have hreplay : (replayedOutputs sample [genesisBlock 0]).lookup "p-0" = none := by
    rw [replayedOutputs_eq, flatMap_singleton, events_genesisBlock]
    rfl
  refine ⟨⟨rfl, rfl, trivial⟩, rfl, hreplay, ⟨pool, _, hsome, houtput, rfl⟩, rfl, ?_⟩
  rintro ⟨⟨pool', hsome', hreplayed⟩, -⟩
  obtain rfl : pool = pool' := Option.some.inj (hsome.symm.trans hsome')
  have hlookup := congrArg (fun m : Store String UTXO => m.lookup "p-0") hreplayed
  simp only [unspentOutputs, KeyedLog.lookup_filterValues, houtput] at hlookup
  have hchain : s.blockchain.chain = [genesisBlock 0] := rfl
  rw [hchain, hreplay] at hlookup
  simp at hlookup

end Node

end HybridChain
