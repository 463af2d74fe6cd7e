import HybridChain.Consensus
import HybridChain.Lib.LockProg
import HybridChain.PoolReorg

/-!
# Calls and the locks they take

`SelectValidator`, `SubmitVote`, `HandleReorg` and `RecordBlockValidation`, with the mutexes they
lock. The mutexes of Go are not reentrant, and each of these calls holds the one of its object when
it comes to a helper that locks it again.

Blocks are pointers, so that the same block, with its mutex, may stand in both chains of a
reorganisation. Mutexes that only come into play after a point that no run passes are left out:
those of `AddBlock` and of the account manager. Scores and counters of peers are 64-bit.

## Main definitions

* `selectValidator`, `submitVote`, `handleReorg`, `recordBlockValidation`: programs with locks
* `Unblocked`: no such helper is called

## Main results

* `returns_iff`: just then a call returns
* `handleReorg_eq_of_returned`: what it does then
-/

namespace HybridChain

open List
open KeyedLog (Store)
open LockProg (Prog Mode Hold Outcome withLock load store)
open Crypto (sample)
open LockProg (eval_bind eval_load eval_pure eval_withLock exec_bind exec_load exec_pure exec_store
  exec_withLock exec_withLock_returned)

/-! ## Objects and their mutexes -/

/-- The mutexes: those of the four objects, and one for each block. -/
inductive Lock where
  | selector
  | engine
  | utxoPool
  | peerManager
  | block (pointer : ℕ)
  deriving DecidableEq

/-- `PeerInfo`: the fields that `RecordBlockValidation` and `BlacklistPeer` use. -/
structure PeerInfo where
  score : Int64 := 0
  blacklisted : Bool := false
  validBlocks : Int64 := 0
  invalidBlocks : Int64 := 0
  deriving DecidableEq

structure PeerManager where
  peers : Store String PeerInfo := ∅
  /-- Until when a peer is blacklisted. -/
  blacklist : Store String ℤ := ∅

structure Objects where
  stakePool : StakePool := {}
  engine : ConsensusEngine := {}
  pool : UTXOPool := {}
  host : Host := {}
  blocks : ℕ → Block
  peerManager : PeerManager := {}

namespace Locked

variable (C : Crypto)

/-! ## The calls -/

def getEligibleValidators (order : List String) (now : ℤ) :
    Prog Lock Objects (List ValidatorRecord) :=
  withLock .selector .read do
    let s ← load
    return s.stakePool.getEligibleValidators order now

def selectValidator (order : List String) (blockHeight : UInt64) (previousHash : String) (now : ℤ) :
    Prog Lock Objects (Except String (ValidatorRecord × TimedProof)) :=
  withLock .selector .write do
    let seed := generateSeed C blockHeight previousHash
    let validators ← getEligibleValidators order now
    if validators.isEmpty then return .error "no eligible validators"
    else
      let s ← load
      match s.stakePool.weightedSelection C validators seed now with
      | .error _ => .fault
      | .ok none => return .error "validator selection failed"
      | .ok (some (v, proof)) =>
        let selected :=
          { v with isSelected := true, selectionProof := some proof, lastActive := now }
        let stakes := match s.stakePool.stakes.lookup v.address with
          | none => s.stakePool.stakes
          | some stakeInfo => s.stakePool.stakes.insert v.address
              { stakeInfo with
                lastActive := now
                selectionCount := stakeInfo.selectionCount + 1 }
        store { s with stakePool := { s.stakePool with stakes := stakes } }
        return .ok (selected, proof)

def isConsensusReached (blockHash : String) : Prog Lock Objects Bool := withLock .engine .read do
    let s ← load
    match s.engine.votes.lookup blockHash with
    | none => return false
    | some table => return ConsensusEngine.isConsensusReached table

/-- `SubmitVote`, which always returns nil. -/
def submitVote (validatorAddr blockHash : String) (vote : Bool) : Prog Lock Objects Unit :=
  withLock .engine .write do
    let s ← load
    store { s with engine := { s.engine.recordVote validatorAddr vote with
      votes := s.engine.votes.insert blockHash (s.engine.hashVotes validatorAddr blockHash vote) } }
    let reached ← isConsensusReached blockHash
    if reached then
      let s ← load
      store { s with engine := s.engine.conclude }
    else return ()

/-- `Block.Hash`, which gives up the read lock before it asks for the write lock. -/
def hash (pointer : ℕ) : Prog Lock Objects String := do
  let cached ← withLock (.block pointer) .read do
    let s ← load
    return (s.blocks pointer).originalHash
  if cached ≠ "" then return cached
  else
    withLock (.block pointer) .write do
      let s ← load
      let block := s.blocks pointer
      if block.originalHash ≠ "" then return block.originalHash
      else
        let hash := calculateHash C block.header
        store { s with
          blocks := Function.update s.blocks pointer
            { block with
              originalHash := hash
              hash := hash } }
        return hash

/-- The loop of `findLastCommonBlock` over the indices below a bound, from the last one down. -/
def lastCommon (oldChain newChain : List ℕ) : ℕ → Prog Lock Objects ℕ
  | 0 => return 0
  | i + 1 =>
    match oldChain[i]?, newChain[i]? with
    | some old, some new => do
      let oldHash ← hash C old
      let newHash ← hash C new
      if oldHash = newHash then return i else lastCommon oldChain newChain i
    | _, _ => .fault

def findLastCommonBlock (oldChain newChain : List ℕ) : Prog Lock Objects ℕ :=
  lastCommon C oldChain newChain (min oldChain.length newChain.length)

def addUTXO (tx : Transaction) (blockHeight : UInt64) (now : ℤ) : Prog Lock Objects Unit :=
  withLock .utxoPool .write do
    let s ← load
    let added := s.pool.addUTXO C s.host tx blockHeight now
    store { s with
      pool := added.1
      host := added.2 }

/-- The transactions of some blocks, as `HandleReorg` applies them. -/
def addBlocks (now : ℤ) (chain : List ℕ) : Prog Lock Objects Unit := forM chain fun pointer => do
    let s ← load
    forM (s.blocks pointer).transactions fun tx =>
      addUTXO C tx (s.blocks pointer).header.blockNumber now

/-- `HandleReorg`, once the height of the last common block is known. -/
def reorgFrom (newChain : List ℕ) (now : ℤ) (commonHeight : ℕ) :
    Prog Lock Objects (Except String Unit) := do
  let s ← load
  match s.pool.restoreSnapshot commonHeight with
  | none => return .error s!"no snapshot found for height {commonHeight}"
  | some (i, snapshot) =>
    if newChain.length < commonHeight + 1 then .fault
    else
      store { s with pool := { s.pool with utxos := snapshot.utxoStates } }
      addBlocks C now (newChain.drop (commonHeight + 1))
      -- the pool and the snapshot share one map
      let s ← load
      let restored := { snapshot with utxoStates := s.pool.utxos }
      store { s with pool := { s.pool with snapshots := s.pool.snapshots.set i restored } }
      return .ok ()

def handleReorg (oldChain newChain : List ℕ) (now : ℤ) : Prog Lock Objects (Except String Unit) :=
  withLock .utxoPool .write do
    let commonHeight ← findLastCommonBlock C oldChain newChain
    reorgFrom C newChain now commonHeight

end Locked

namespace PeerManager

def peerScoreMax : Int64 := 1000

def peerScoreMin : Int64 := -100

def scoreValidBlock : Int64 := 5

def scoreInvalidBlock : Int64 := -10

/-- The peer after one more block, its score not yet bounded from below. -/
def judge (info : PeerInfo) (isValid : Bool) : PeerInfo :=
  let oldScore := info.score
  let info :=
    if isValid then
      { info with
        validBlocks := info.validBlocks + 1
        score := info.score + scoreValidBlock }
    else
      { info with
        invalidBlocks := info.invalidBlocks + 1
        score := info.score + scoreInvalidBlock }
  let info :=
    if isValid && info.score ≤ oldScore then { info with score := oldScore + scoreValidBlock }
    else info
  if info.score > peerScoreMax then { info with score := peerScoreMax } else info

/-- `BlacklistPeer`. -/
def blacklistPeerFor (peerID : String) (duration now : ℤ) : Prog Lock Objects Unit :=
  withLock .peerManager .write do
    let s ← load
    let pm := s.peerManager
    let peers := match pm.peers.lookup peerID with
      | none => pm.peers
      | some peerInfo => pm.peers.insert peerID { peerInfo with blacklisted := true }
    store { s with peerManager := ⟨peers, pm.blacklist.insert peerID (now + duration)⟩ }

def blacklistPeer (id : String) (now : ℤ) : Prog Lock Objects Unit :=
  blacklistPeerFor id (24 * hour) now

/-- `RecordBlockValidation`. The map holds pointers, so `blacklistPeer` already finds the new
score. -/
def recordBlockValidation (id : String) (isValid : Bool) (now : ℤ) : Prog Lock Objects Unit :=
  withLock .peerManager .write do
    let s ← load
    match s.peerManager.peers.lookup id with
    | none => return ()
    | some info =>
      let info := judge info isValid
      let write (info : PeerInfo) : Prog Lock Objects Unit :=
        store { s with peerManager := { s.peerManager with
          peers := s.peerManager.peers.insert id info } }
      if info.score < peerScoreMin then
        write { info with score := peerScoreMin }
        blacklistPeer id now
      else write info

end PeerManager

/-! ## Hashes of blocks -/

/-- The blocks may have remembered their hashes in between. -/
structure Rehashed (C : Crypto) (s t : Objects) : Prop where
  getHash : ∀ pointer, (t.blocks pointer).getHash C = (s.blocks pointer).getHash C
  header : ∀ pointer, (t.blocks pointer).header = (s.blocks pointer).header
  transactions : ∀ pointer, (t.blocks pointer).transactions = (s.blocks pointer).transactions
  rest : t = { s with blocks := t.blocks }

namespace Rehashed

variable {C : Crypto} {s t u : Objects}

lemma refl (C : Crypto) (s : Objects) : Rehashed C s s :=
  ⟨fun _ => rfl, fun _ => rfl, fun _ => rfl, rfl⟩

lemma trans (hst : Rehashed C s t) (htu : Rehashed C t u) : Rehashed C s u where
  getHash pointer := (htu.getHash pointer).trans (hst.getHash pointer)
  header pointer := (htu.header pointer).trans (hst.header pointer)
  transactions pointer := (htu.transactions pointer).trans (hst.transactions pointer)
  rest := by rw [htu.rest, hst.rest]

lemma remember (s : Objects) (pointer : ℕ) : Rehashed C s { s with
    blocks := Function.update s.blocks pointer ((s.blocks pointer).rememberHash C) } := by
  have hupdate : ∀ {β : Type} (f : Block → β),
      f ((s.blocks pointer).rememberHash C) = f (s.blocks pointer) → ∀ p,
        f (Function.update s.blocks pointer ((s.blocks pointer).rememberHash C) p) =
          f (s.blocks p) := by
    intro β f hf p
    by_cases hp : p = pointer
    · subst hp
      rw [Function.update_self, hf]
    · rw [Function.update_of_ne hp]
  refine ⟨hupdate (Block.getHash C) (by simp), hupdate Block.header (by simp),
    hupdate Block.transactions ?_, rfl⟩
  rw [Block.transactions, Block.body_rememberHash, Block.transactions]

end Rehashed

namespace Locked

variable {C : Crypto} {locks : Lock → Hold}

lemma exec_hash {pointer : ℕ} (hfree : locks (.block pointer) = .free) (s : Objects) :
    ∃ t, Rehashed C s t ∧
      (hash C pointer).exec locks s = .returned ((s.blocks pointer).getHash C) locks t := by
  refine ⟨_, Rehashed.remember s pointer, ?_⟩
  have hread : (locks (.block pointer)).acquire .read = some (.readers 0) := by rw [hfree]; rfl
  have hwrite : (locks (.block pointer)).acquire .write = some .writer := by rw [hfree]; rfl
  rw [hash, exec_bind, exec_withLock_returned hread rfl]
  by_cases hcached : (s.blocks pointer).originalHash = ""
  · rw [Outcome.andThen, if_neg (not_not.mpr hcached)]
    refine exec_withLock_returned hwrite ?_
    simp [Outcome.andThen, hcached, Block.getHash, Block.rememberHash]
  · simp [Outcome.andThen, hcached, Block.getHash, Block.rememberHash]

lemma lastCommon_rehashed {s t : Objects} (h : Rehashed C s t) (oldChain newChain : List ℕ)
    (n : ℕ) : UTXOPool.lastCommon C (oldChain.map t.blocks) (newChain.map t.blocks) n =
      UTXOPool.lastCommon C (oldChain.map s.blocks) (newChain.map s.blocks) n := by
  have hhash : Block.getHash C ∘ t.blocks = Block.getHash C ∘ s.blocks := funext h.getHash
  induction n with
  | zero => rfl
  | succ n ih =>
    simp only [UTXOPool.lastCommon, List.getElem?_map, Option.map_map, hhash, ih]

lemma exec_lastCommon (hfree : ∀ pointer, locks (.block pointer) = .free)
    (oldChain newChain : List ℕ) {n : ℕ} (hn : n ≤ min oldChain.length newChain.length)
    (s : Objects) : ∃ t, Rehashed C s t ∧ (lastCommon C oldChain newChain n).exec locks s =
      .returned (UTXOPool.lastCommon C (oldChain.map s.blocks) (newChain.map s.blocks) n)
        locks t := by
  induction n generalizing s with
  | zero => exact ⟨s, .refl C s, rfl⟩
  | succ n ih =>
    have hold : oldChain[n]? = some oldChain[n] := List.getElem?_eq_getElem (by omega)
    have hnew : newChain[n]? = some newChain[n] := List.getElem?_eq_getElem (by omega)
    obtain ⟨t, hst, holdHash⟩ := exec_hash (C := C) (hfree oldChain[n]) s
    obtain ⟨u, htu, hnewHash⟩ := exec_hash (C := C) (hfree newChain[n]) t
    have hsu := hst.trans htu
    rw [hst.getHash] at hnewHash
    simp only [lastCommon, hold, hnew, exec_bind, holdHash, hnewHash, Outcome.andThen,
      UTXOPool.lastCommon, List.getElem?_map, Option.map_some, Option.some.injEq]
    split_ifs with heq
    · exact ⟨u, hsu, rfl⟩
    · obtain ⟨v, huv, hv⟩ := ih (by omega) u
      rw [lastCommon_rehashed hsu] at hv
      exact ⟨v, hsu.trans huv, hv⟩

variable (C locks) in
lemma exec_findLastCommonBlock (hfree : ∀ pointer, locks (.block pointer) = .free)
    (oldChain newChain : List ℕ) (s : Objects) :
    ∃ t, Rehashed C s t ∧ (findLastCommonBlock C oldChain newChain).exec locks s =
      .returned (UTXOPool.findLastCommonBlock C (oldChain.map s.blocks) (newChain.map s.blocks))
        locks t := by
  rw [UTXOPool.findLastCommonBlock, length_map, length_map]
  exact exec_lastCommon hfree oldChain newChain le_rfl s

lemma addBlocks_rehashed {s t : Objects} (h : Rehashed C s t) (now : ℤ) (state : UTXOPool × Host)
    (chain : List ℕ) : UTXOPool.addBlocks C now state (chain.map t.blocks) =
      UTXOPool.addBlocks C now state (chain.map s.blocks) := by
  simp only [UTXOPool.addBlocks, foldl_map, h.header, h.transactions]

/-! ## The calls without their mutexes -/

variable (validatorAddr blockHash : String) (order : List String) (blockHeight : UInt64)
  (vote : Bool) (previousHash : String)

/-- Without mutexes, `SelectValidator` is the selection of a validator. -/
theorem eval_selectValidator (now : ℤ) (s : Objects) :
    (selectValidator C order blockHeight previousHash now).eval s =
      match s.stakePool.selectValidator C order blockHeight previousHash now with
      | (_, .error .divideByZero) => none
      | (stakePool, .error (.error message)) => some (.error message, { s with stakePool })
      | (stakePool, .ok r) => some (.ok r, { s with stakePool }) := by
  simp only [selectValidator, getEligibleValidators, eval_withLock, eval_bind,
    eval_load, eval_pure, Option.bind_some, StakePool.selectValidator]
  split_ifs with hempty
  · rfl
  · simp only [eval_bind, eval_load, Option.bind_some, StakePool.weightedSelection]
    split_ifs with hweight
    · rfl
    · cases CumulativeWalk.walk (s.stakePool.calculateWeight now) _ 0
        (s.stakePool.getEligibleValidators order now) <;> rfl

/-- Without mutexes, `SubmitVote` is the vote. -/
theorem eval_submitVote (s : Objects) : (submitVote validatorAddr blockHash vote).eval s =
      some ((), { s with engine := s.engine.submitVote validatorAddr blockHash vote }) := by
  simp only [submitVote, isConsensusReached, eval_withLock, eval_bind,
    eval_load, LockProg.eval_store, Option.bind_some, Finmap.lookup_insert,
    eval_pure, ConsensusEngine.submitVote]
  split_ifs <;> rfl

lemma eval_addBlocks (now : ℤ) (chain : List ℕ) (s : Objects) : (addBlocks C now chain).eval s =
      some ((), { s with
        pool := (UTXOPool.addBlocks C now (s.pool, s.host) (chain.map s.blocks)).1
        host := (UTXOPool.addBlocks C now (s.pool, s.host) (chain.map s.blocks)).2 }) := by
  have hblock : ∀ (txs : List Transaction) (height : UInt64) (s : Objects),
      (forM txs fun tx => addUTXO C tx height now).eval s = some ((), { s with
          pool := (txs.foldl (fun s tx => s.1.addUTXO C s.2 tx height now) (s.pool, s.host)).1
          host := (txs.foldl (fun s tx => s.1.addUTXO C s.2 tx height now)
            (s.pool, s.host)).2 }) := by
    intro txs height
    induction txs with
    | nil => exact fun s => rfl
    | cons tx txs ih =>
      intro s
      rw [forM_cons, eval_bind, addUTXO, eval_withLock]
      exact ih _
  unfold addBlocks UTXOPool.addBlocks
  induction chain generalizing s with
  | nil => rfl
  | cons pointer chain ih =>
    rw [forM_cons, eval_bind, eval_bind, eval_load, Option.bind_some, hblock]
    exact ih _

/-- Without mutexes, `HandleReorg` is the reorganisation of the pool, up to hashes that blocks
remember. -/
theorem eval_handleReorg (oldChain newChain : List ℕ) (now : ℤ) (s : Objects) :
    ∃ t, Rehashed C s t ∧ (handleReorg C oldChain newChain now).eval s =
      (s.pool.handleReorg C s.host (oldChain.map s.blocks) (newChain.map s.blocks) now).map
        fun r => (r.2, { t with
          pool := r.1.1
          host := r.1.2 }) := by
  obtain ⟨t, hst, hfind⟩ := exec_findLastCommonBlock C (fun _ => .free) (fun _ => rfl) oldChain
    newChain s
  refine ⟨t, hst, ?_⟩
  have hpool : t.pool = s.pool := by rw [hst.rest]
  have hhost : t.host = s.host := by rw [hst.rest]
  rw [handleReorg, eval_withLock, eval_bind, LockProg.eval_of_exec hfind]
  simp only [Option.bind_some, reorgFrom, eval_bind, eval_load,
    UTXOPool.handleReorg, hpool, length_map]
  cases hrestore : s.pool.restoreSnapshot
    (UTXOPool.findLastCommonBlock C (oldChain.map s.blocks) (newChain.map s.blocks)) with
  | none => simp [← hpool, ← hhost]
  | some found =>
    obtain ⟨i, snapshot⟩ := found
    dsimp only
    split_ifs with hshort
    · rfl
    · simp only [eval_bind, LockProg.eval_store, eval_load, eval_pure,
        Option.bind_some, eval_addBlocks, addBlocks_rehashed hst, hhost, Option.map_some,
        ← map_drop]

/-! ## The calls with their mutexes -/

/-- `SelectValidator` waits for the mutex that it holds. -/
theorem exec_selectValidator (now : ℤ) (s : Objects) :
    (selectValidator C order blockHeight previousHash now).exec (fun _ => .free) s =
      .blocked .selector .read := by
  rw [selectValidator, exec_withLock rfl, exec_bind, getEligibleValidators,
    LockProg.exec_withLock_of_conflict rfl]
  rfl

/-- `SubmitVote` waits for the mutex that it holds. -/
theorem exec_submitVote (s : Objects) :
    (submitVote validatorAddr blockHash vote).exec (fun _ => .free) s = .blocked .engine .read := by
  rw [submitVote, exec_withLock rfl, exec_bind, exec_load]
  simp only [Outcome.andThen, exec_bind, exec_store]
  rw [isConsensusReached, LockProg.exec_withLock_of_conflict rfl]

lemma exec_addBlocks_of_forall {now : ℤ} {chain : List ℕ} {s : Objects}
    (h : ∀ pointer ∈ chain, (s.blocks pointer).transactions = []) :
    (addBlocks C now chain).exec locks s = .returned () locks s := by
  unfold addBlocks
  induction chain with
  | nil => rfl
  | cons pointer chain ih =>
    rw [forM_cons, exec_bind, exec_bind, exec_load]
    simp only [Outcome.andThen, h pointer mem_cons_self, forM_nil, exec_pure]
    exact ih fun p hp => h p (mem_cons_of_mem _ hp)

lemma exec_addBlocks_of_exists {now : ℤ} {chain : List ℕ} {s : Objects}
    (hheld : locks .utxoPool = .writer)
    (h : ∃ pointer ∈ chain, (s.blocks pointer).transactions ≠ []) :
    (addBlocks C now chain).exec locks s = .blocked .utxoPool .write := by
  have hconflict : (locks .utxoPool).acquire .write = none := by rw [hheld]; rfl
  unfold addBlocks
  induction chain with
  | nil => simp at h
  | cons pointer chain ih =>
    rw [forM_cons, exec_bind, exec_bind, exec_load]
    cases htxs : (s.blocks pointer).transactions with
    | nil =>
      obtain ⟨p, hp, hne⟩ := h
      obtain rfl | hp := mem_cons.mp hp
      · exact absurd htxs hne
      · simp only [Outcome.andThen, htxs, forM_nil, exec_pure]
        exact ih ⟨p, hp, hne⟩
    | cons tx txs =>
      simp only [Outcome.andThen, htxs, forM_cons, exec_bind]
      rw [addUTXO, LockProg.exec_withLock_of_conflict hconflict]

section Reorg

variable {newChain : List ℕ} {now : ℤ} {commonHeight i : ℕ} {snapshot : StateSnapshot} {s : Objects}

lemma exec_reorgFrom_of_none (h : s.pool.restoreSnapshot commonHeight = none) :
    (reorgFrom C newChain now commonHeight).exec locks s =
      .returned (.error s!"no snapshot found for height {commonHeight}") locks s := by
  simp only [reorgFrom, exec_bind, exec_load, Outcome.andThen, h, exec_pure]

variable (h : s.pool.restoreSnapshot commonHeight = some (i, snapshot))
include h

lemma exec_reorgFrom_of_length_le (hlength : newChain.length ≤ commonHeight) :
    (reorgFrom C newChain now commonHeight).exec locks s = .faulted := by
  simp only [reorgFrom, exec_bind, exec_load, Outcome.andThen, h,
    if_pos (Nat.lt_succ_of_le hlength), LockProg.exec_fault]

variable (hlength : commonHeight < newChain.length)
include hlength

lemma exec_reorgFrom_of_forall
    (hnone : ∀ pointer ∈ newChain.drop (commonHeight + 1), (s.blocks pointer).transactions = []) :
    ∃ t, (reorgFrom C newChain now commonHeight).exec locks s = .returned (.ok ()) locks t := by
  simp only [reorgFrom, exec_bind, exec_load, Outcome.andThen, h,
    if_neg (not_lt.mpr (Nat.succ_le_of_lt hlength)), exec_store]
  rw [exec_addBlocks_of_forall (by exact hnone)]
  exact ⟨_, rfl⟩

lemma exec_reorgFrom_of_exists (hheld : locks .utxoPool = .writer)
    (hsome : ∃ pointer ∈ newChain.drop (commonHeight + 1), (s.blocks pointer).transactions ≠ []) :
    (reorgFrom C newChain now commonHeight).exec locks s = .blocked .utxoPool .write := by
  simp only [reorgFrom, exec_bind, exec_load, Outcome.andThen, h,
    if_neg (not_lt.mpr (Nat.succ_le_of_lt hlength)), exec_store]
  rw [exec_addBlocks_of_exists hheld (by exact hsome)]

end Reorg

lemma exec_handleReorg (oldChain newChain : List ℕ) (now : ℤ) (s : Objects) :
    ∃ t, Rehashed C s t ∧ (handleReorg C oldChain newChain now).exec (fun _ => .free) s =
      ((reorgFrom C newChain now (UTXOPool.findLastCommonBlock C (oldChain.map s.blocks)
        (newChain.map s.blocks))).exec
          (Function.update (fun _ => .free) .utxoPool .writer) t).andThen
            fun a locks s => (Prog.release .utxoPool .write (.ret a)).exec locks s := by
  obtain ⟨t, hst, hfind⟩ := exec_findLastCommonBlock C
    (Function.update (fun _ => .free) .utxoPool .writer) (fun _ => rfl) oldChain newChain s
  refine ⟨t, hst, ?_⟩
  rw [handleReorg, exec_withLock rfl, exec_bind, hfind]
  rfl

/-- What `HandleReorg` must find to return: no snapshot, or no transactions after the common
block. -/
def ReorgUnblocked (C : Crypto) (oldChain newChain : List ℕ) (s : Objects) : Prop :=
  let oldBlocks := oldChain.map s.blocks
  let newBlocks := newChain.map s.blocks
  let commonHeight := UTXOPool.findLastCommonBlock C oldBlocks newBlocks
  s.pool.restoreSnapshot commonHeight = none ∨ (commonHeight < newBlocks.length ∧
    ∀ block ∈ UTXOPool.laterBlocks C oldBlocks newBlocks, block.transactions = [])

/-- **When a reorganisation returns.** -/
lemma handleReorg_returns_iff (oldChain newChain : List ℕ) (now : ℤ) (s : Objects) :
    (handleReorg C oldChain newChain now).Returns s ↔ ReorgUnblocked C oldChain newChain s := by
  obtain ⟨t, hst, hrun⟩ := exec_handleReorg (C := C) oldChain newChain now s
  have hpool : t.pool = s.pool := by rw [hst.rest]
  simp only [Prog.Returns, ReorgUnblocked, hrun, ← hpool, UTXOPool.laterBlocks, ← map_drop,
    forall_mem_map, length_map, ← hst.transactions]
  generalize UTXOPool.findLastCommonBlock C (oldChain.map s.blocks) (newChain.map s.blocks) =
    commonHeight
  cases hrestore : t.pool.restoreSnapshot commonHeight with
  | none =>
    rw [exec_reorgFrom_of_none hrestore, Outcome.andThen]
    exact iff_of_true ⟨_, t, LockProg.exec_release rfl _ t⟩ (.inl rfl)
  | some found =>
    obtain ⟨i, snapshot⟩ := found
    by_cases hlength : commonHeight < newChain.length
    · by_cases hnone : ∀ pointer ∈ newChain.drop (commonHeight + 1),
          (t.blocks pointer).transactions = []
      · obtain ⟨u, hu⟩ := exec_reorgFrom_of_forall (C := C) hrestore hlength hnone
        rw [hu, Outcome.andThen]
        exact iff_of_true ⟨_, u, LockProg.exec_release rfl _ u⟩ (.inr ⟨hlength, hnone⟩)
      · have hsome : ∃ pointer ∈ newChain.drop (commonHeight + 1),
            (t.blocks pointer).transactions ≠ [] := by
          simpa only [not_forall, exists_prop] using hnone
        rw [exec_reorgFrom_of_exists hrestore hlength rfl hsome]
        simp [Outcome.andThen, hnone]
    · rw [exec_reorgFrom_of_length_le hrestore (not_lt.mp hlength)]
      simp [Outcome.andThen, hlength]

/-- **A reorganisation that returns is the one without mutexes**: whichever mutexes others hold, the
result, the pool and what the pool writes to are the same. -/
theorem handleReorg_eq_of_returned {oldChain newChain : List ℕ} {now : ℤ} {s s' : Objects}
    {locks locks' : Lock → Hold} {result : Except String Unit}
    (h : (handleReorg C oldChain newChain now).exec locks s = .returned result locks' s') :
    s.pool.handleReorg C s.host (oldChain.map s.blocks) (newChain.map s.blocks) now =
      some ((s'.pool, s'.host), result) := by
  obtain ⟨t, -, heval⟩ := eval_handleReorg oldChain newChain now s (C := C)
  rw [LockProg.eval_of_exec h] at heval
  obtain ⟨⟨⟨pool, host⟩, result'⟩, hplain, heq⟩ := Option.map_eq_some_iff.mp heval.symm
  obtain ⟨rfl, rfl⟩ := Prod.mk.inj heq
  exact hplain

/-- Blocks without transactions, and a pool with a snapshot of the first one. -/
def emptyAfterSnapshot : Objects where
  blocks number := { header := { blockNumber := UInt64.ofNat number } }
  pool :=
    { snapshots := [{ height := 0, utxoStates := Finmap.singleton "p-0" { amount := 1 } }] }

theorem handleReorg_eq_of_returned_snapshot :
    ∃ s' : Objects, emptyAfterSnapshot.pool.handleReorg sample emptyAfterSnapshot.host
        ([0, 1].map emptyAfterSnapshot.blocks) ([0, 2, 3].map emptyAfterSnapshot.blocks) 0 =
          some ((s'.pool, s'.host), .ok ()) ∧
      (s'.pool.utxos.lookup "p-0").map UTXO.amount = some 1 := by
  have hcommon : UTXOPool.findLastCommonBlock sample
      ([0, 1].map emptyAfterSnapshot.blocks) ([0, 2, 3].map emptyAfterSnapshot.blocks) = 0 := by
    decide +kernel
  have hreturns := (handleReorg_returns_iff (C := sample) [0, 1] [0, 2, 3] 0
    emptyAfterSnapshot).mpr (.inr ⟨by rw [hcommon]; decide, fun block hblock => ?_⟩)
  · obtain ⟨result, s', h⟩ := hreturns
    have hplain := handleReorg_eq_of_returned h
    have hresult : (emptyAfterSnapshot.pool.handleReorg sample emptyAfterSnapshot.host
        ([0, 1].map emptyAfterSnapshot.blocks) ([0, 2, 3].map emptyAfterSnapshot.blocks) 0).map
          (fun r => (r.2, (r.1.1.utxos.lookup "p-0").map UTXO.amount)) = some (.ok (), some 1) := by
      decide +kernel
    rw [hplain] at hresult
    obtain ⟨rfl, hamount⟩ := Prod.mk.inj (Option.some.inj hresult)
    exact ⟨s', hplain, hamount⟩
  · obtain ⟨number, -, rfl⟩ := mem_map.mp (mem_of_mem_drop hblock)
    exact PatriciaTrie.getAllTransactions_new

end Locked

/-! ## Peers -/

namespace PeerManager

/-- A score that one more block does not bring below `peerScoreMin`. The bounds near `2 ^ 63` are
for sums that wrap around. -/
def Endures (score : ℤ) (isValid : Bool) : Prop :=
  if isValid then -105 ≤ score ∧ score < 2 ^ 63 - 5 else -90 ≤ score ∨ score < -2 ^ 63 + 10

/-- What `RecordBlockValidation` must find to return: a peer that is unknown, or whose score endures
the block. -/
def RecordUnblocked (id : String) (isValid : Bool) (s : Objects) : Prop :=
  ∀ info, s.peerManager.peers.lookup id = some info → Endures info.score.toInt isValid

variable {info : PeerInfo} {isValid : Bool} {id : String} {s : Objects} (now : ℤ)

lemma judge_score (info : PeerInfo) (isValid : Bool) : (judge info isValid).score =
      let score := info.score + if isValid then scoreValidBlock else scoreInvalidBlock
      if score > peerScoreMax then peerScoreMax else score := by
  cases isValid <;> simp only [judge] <;> simp <;> split_ifs <;> simp_all

lemma le_judge_score :
    peerScoreMin ≤ (judge info isValid).score ↔ Endures info.score.toInt isValid := by
  have hge := info.score.le_toInt
  have hlt := info.score.toInt_lt
  have hmin : peerScoreMin.toInt = -100 := rfl
  have hmax : peerScoreMax.toInt = 1000 := rfl
  have hvalid : scoreValidBlock.toInt = 5 := rfl
  have hinvalid : scoreInvalidBlock.toInt = -10 := rfl
  rw [judge_score, Int64.le_iff_toInt_le, hmin]
  cases isValid with
  | false | true =>
    simp only [Bool.false_eq_true, if_false, if_true, Endures, gt_iff_lt, Int64.lt_iff_toInt_lt,
      hmax]
    split_ifs with h <;> rw [Int64.toInt_add, Int.bmod_def] at * <;> omega

lemma exec_recordBlockValidation_of_lt (hinfo : s.peerManager.peers.lookup id = some info)
    (hscore : (judge info isValid).score < peerScoreMin) :
    (recordBlockValidation id isValid now).exec (fun _ => .free) s =
      .blocked .peerManager .write := by
  rw [recordBlockValidation, exec_withLock rfl, exec_bind, exec_load]
  simp only [Outcome.andThen, hinfo, if_pos hscore, exec_bind, exec_store]
  rw [blacklistPeer, blacklistPeerFor, LockProg.exec_withLock_of_conflict rfl]

lemma returns_recordBlockValidation_of_le (hinfo : s.peerManager.peers.lookup id = some info)
    (hscore : ¬ (judge info isValid).score < peerScoreMin) :
    (recordBlockValidation id isValid now).Returns s := by
  refine ⟨(), { s with peerManager := { s.peerManager with
    peers := s.peerManager.peers.insert id (judge info isValid) } },
    exec_withLock_returned rfl ?_⟩
  simp only [exec_bind, exec_load, Outcome.andThen, hinfo, if_neg hscore, exec_store]

/-- **When the validation of a block is recorded.** -/
lemma recordBlockValidation_returns_iff (id : String) (isValid : Bool) (now : ℤ) (s : Objects) :
    (recordBlockValidation id isValid now).Returns s ↔ RecordUnblocked id isValid s := by
  cases hinfo : s.peerManager.peers.lookup id with
  | none =>
    refine iff_of_true ⟨(), s, exec_withLock_returned rfl ?_⟩ (by simp [RecordUnblocked, hinfo])
    simp only [exec_bind, exec_load, Outcome.andThen, hinfo, exec_pure]
  | some info =>
    by_cases hscore : (judge info isValid).score < peerScoreMin
    · have hrun := exec_recordBlockValidation_of_lt now hinfo hscore
      simp [Prog.Returns, RecordUnblocked, hrun, hinfo, ← le_judge_score, hscore]
    · refine iff_of_true (returns_recordBlockValidation_of_le now hinfo hscore) ?_
      simpa [RecordUnblocked, hinfo, ← le_judge_score] using hscore

end PeerManager

/-! ## All four calls -/

inductive LockedCall where
  | selectValidator (order : List String) (blockHeight : UInt64) (previousHash : String) (now : ℤ)
  | submitVote (validatorAddr blockHash : String) (vote : Bool)
  | handleReorg (oldChain newChain : List ℕ) (now : ℤ)
  | recordBlockValidation (id : String) (isValid : Bool) (now : ℤ)

namespace LockedCall

variable (C : Crypto)

/-- The call returns from all mutexes free, and leaves them free. -/
def Returns (s : Objects) : LockedCall → Prop
  | .selectValidator order blockHeight previousHash now =>
    (Locked.selectValidator C order blockHeight previousHash now).Returns s
  | .submitVote validatorAddr blockHash vote =>
    (Locked.submitVote validatorAddr blockHash vote).Returns s
  | .handleReorg oldChain newChain now => (Locked.handleReorg C oldChain newChain now).Returns s
  | .recordBlockValidation id isValid now =>
    (PeerManager.recordBlockValidation id isValid now).Returns s

/-- What a call must find to return. -/
def Unblocked (s : Objects) : LockedCall → Prop
  | .selectValidator .. => False
  | .submitVote .. => False
  | .handleReorg oldChain newChain _ => Locked.ReorgUnblocked C oldChain newChain s
  | .recordBlockValidation id isValid _ => PeerManager.RecordUnblocked id isValid s

/-- **Which calls return.** `SelectValidator` and `SubmitVote` never do, `HandleReorg` returns if
it finds no snapshot or no transactions to apply, and `RecordBlockValidation` if it does not have to
blacklist the peer. -/
theorem returns_iff (s : Objects) (call : LockedCall) : call.Returns C s ↔ call.Unblocked C s := by
  cases call with
  | selectValidator order blockHeight previousHash now =>
    simp [Returns, Unblocked, Prog.Returns, Locked.exec_selectValidator]
  | submitVote validatorAddr blockHash vote =>
    simp [Returns, Unblocked, Prog.Returns, Locked.exec_submitVote]
  | handleReorg oldChain newChain now =>
    exact Locked.handleReorg_returns_iff oldChain newChain now s
  | recordBlockValidation id isValid now =>
    exact PeerManager.recordBlockValidation_returns_iff id isValid now s

def paymentAfterSnapshot : Objects where
  pool := { snapshots := [{ height := 0, utxoStates := ∅ }] }
  blocks pointer := if pointer = 1 then Node.paymentBlock else genesisBlock 0
  peerManager := { peers := (∅ : Store String PeerInfo).insert "peer" { score := -95 } }

/-- Each of the calls waits for the mutex that it holds: a selection, a vote, a reorganisation with
one new payment, and an invalid block of a peer with a low score. -/
theorem calls_wait_for_themselves :
    (Locked.selectValidator sample [] 1 "" 0).exec (fun _ => .free) paymentAfterSnapshot =
        .blocked .selector .read ∧
      (Locked.submitVote "validator" "hash" true).exec (fun _ => .free) paymentAfterSnapshot =
        .blocked .engine .read ∧
      (Locked.handleReorg sample [0] [0, 1] 0).exec (fun _ => .free) paymentAfterSnapshot =
        .blocked .utxoPool .write ∧
      (PeerManager.recordBlockValidation "peer" false 0).exec (fun _ => .free)
        paymentAfterSnapshot = .blocked .peerManager .write := by
  refine ⟨Locked.exec_selectValidator .., Locked.exec_submitVote .., ?_,
    PeerManager.exec_recordBlockValidation_of_lt 0 (Finmap.lookup_insert _) (by decide)⟩
  obtain ⟨t, hst, hrun⟩ := Locked.exec_handleReorg (C := sample) [0] [0, 1] 0 paymentAfterSnapshot
  have hpool : t.pool = paymentAfterSnapshot.pool := by rw [hst.rest]
  have hsome : ∃ pointer ∈ [1], (t.blocks pointer).transactions ≠ [] := by
    refine ⟨1, mem_singleton_self 1, ?_⟩
    rw [hst.transactions]
    exact Node.transactions_paymentBlock ▸ cons_ne_nil _ _
  have hcommon : UTXOPool.findLastCommonBlock sample
      ([0].map paymentAfterSnapshot.blocks) ([0, 1].map paymentAfterSnapshot.blocks) = 0 := by
    simp [UTXOPool.findLastCommonBlock, UTXOPool.lastCommon]
  have hrestore : t.pool.restoreSnapshot 0 = some (0, { height := 0, utxoStates := ∅ }) := by
    rw [hpool]
    rfl
  have hblocked : (Locked.reorgFrom sample [0, 1] 0 0).exec
      (Function.update (fun _ => .free) .utxoPool .writer) t = .blocked .utxoPool .write :=
    Locked.exec_reorgFrom_of_exists hrestore (by decide) rfl hsome
  rw [hrun, hcommon, hblocked]
  rfl

end LockedCall

end HybridChain
