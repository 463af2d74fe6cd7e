import HybridChain.ForkChoice
import HybridChain.MinerReceiver
import HybridChain.Mining
import HybridChain.StateRoot

/-!
# Validators

`validateBlock` of `validator.go`, and what it makes of mined blocks. A miner writes `GetRootHash`
into the header, a validator expects `CalculateMerkleRoot`; a miner takes transactions checked
against unspent outputs, a validator checks them against balances and a count of outputs.

The transactions of a block are listed twice, in orders that may differ, so `validateBlock` has both
lists as arguments. A validator without a pool crashes where it reads it; here it returns an error.

## Main definitions

* `Validator.validateBlock`
* `RootIsLine`: the accident by which the roots agree

## Main results

* `not_rootIsLine`: it does not occur with a reward
* `Validator.accepts_mined_iff`, `Validator.rejects_honest_block`
-/

namespace HybridChain

open List
open KeyedLog (Store)
open PatriciaTrie (Enumerates path new)

/-! ## The checks of a validator -/

/-- What a validator reads of its blockchain. -/
structure Validator where
  utxoPool : Option UTXOPool := none
  balances : Store String ℚ := ∅
  host : Host := {}

/-- The checks of a reward: its sender, and a single positive output. The common part of the two
branches for system transactions. -/
def validateReward (sender name : String) (tx : Transaction) : Except String Unit :=
  if tx.sender ≠ sender then .error s!"invalid {sender} sender: {tx.sender}"
  else
    match tx.outputs with
    | [output] =>
      if output.amount ≤ 0 then .error s!"{name} amount must be positive" else .ok ()
    | _ => .error s!"{name} must have exactly one output"

/-- `GetNonce`: the number of outputs of an address, spent or not. -/
def UTXOPool.getNonce (pool : UTXOPool) (address : String) : UInt64 :=
  UInt64.ofNat (KeyedLog.filterValues (fun utxo : UTXO => utxo.owner == address)
    pool.utxos).keys.card

variable {applied : List Transaction} {block : Block} {txs : List Transaction}

namespace Validator

variable (C : Crypto) (v : Validator)

def verifyBalance (address : String) (amount : ℚ) : Bool :=
  (v.balances.lookup address).getD 0 ≥ amount

def validateTransaction (tx : Transaction) : Except String Unit :=
  if tx.isCoinbase then validateReward "coinbase" "coinbase" tx
  else if tx.isValidatorReward then validateReward "system" "validator reward" tx
  else if ¬ tx.verifySignature C then
    .error s!"invalid transaction signature in tx {tx.transactionID}"
  else if ¬ v.verifyBalance tx.sender (tx.amount + tx.gasFee) then
    .error s!"insufficient balance for tx {tx.transactionID}"
  else
    match v.utxoPool with
    | none => .error "invalid memory address or nil pointer dereference"
    | some pool =>
      let expectedNonce := pool.getNonce tx.sender
      if tx.nonce ≠ expectedNonce then
        .error ("invalid nonce in tx " ++ tx.transactionID ++ ": expected " ++
          toString expectedNonce.toNat ++ ", got " ++ toString tx.nonce.toNat)
      else .ok ()

def validateTransactions : List Transaction → Except String Unit
  | [] => .ok ()
  | tx :: txs =>
    match v.validateTransaction C tx with
    | .error err => .error s!"transaction validation failed: {err}"
    | .ok _ => validateTransactions txs

/-- `validateStateTransitions`, with the transactions in the order in which they are applied to the
clone of the pool. -/
def validateStateTransitions (block : Block) (applied : List Transaction) (now : ℤ) :
    Except String Unit :=
  match v.utxoPool with
  | none => .error "invalid memory address or nil pointer dereference"
  | some pool =>
    let (tempPool, _) := UTXOPool.addUTXOs C (pool, v.host) applied block.header.blockNumber now
    if tempPool.merkleRoot ≠ block.header.stateRoot then .error "invalid state root" else .ok ()

/-- `Validator.validateBlock` at the time `now`. `checked` and `applied` are the transactions of
the block as they are listed for the two loops. -/
def validateBlock (block : Block) (checked applied : List Transaction) (now : ℤ) :
    Except String Unit :=
  if calculateHash C block.header ≠ block.getHash C then .error "invalid block hash"
  else if block.header.timestamp > now then .error "block timestamp is in the future"
  else
    match v.validateTransactions C checked with
    | .error err => .error err
    | .ok _ =>
      match v.validateStateTransitions C block applied now with
      | .error err => .error s!"state transition validation failed: {err}"
      | .ok _ => .ok ()

variable {C v}

lemma validateTransactions_iff :
    v.validateTransactions C txs = .ok () ↔ ∀ tx ∈ txs, v.validateTransaction C tx = .ok () := by
  induction txs with
  | nil => simp [validateTransactions]
  | cons tx txs ih =>
    rw [validateTransactions, forall_mem_cons]
    cases htx : v.validateTransaction C tx with
    | error err => simp
    | ok u => simpa using ih

lemma validateStateTransitions_iff {now : ℤ} :
    v.validateStateTransitions C block applied now = .ok () ↔ ∃ pool, v.utxoPool = some pool ∧
        (UTXOPool.addUTXOs C (pool, v.host) applied block.header.blockNumber now).1.merkleRoot =
          block.header.stateRoot := by
  unfold validateStateTransitions
  cases v.utxoPool with
  | none | some pool => simp

/-- **What an accepted block has passed.** -/
theorem validateBlock_iff {checked : List Transaction} {now : ℤ} :
    v.validateBlock C block checked applied now = .ok () ↔
      calculateHash C block.header = block.getHash C ∧ block.header.timestamp ≤ now ∧
        (∀ tx ∈ checked, v.validateTransaction C tx = .ok ()) ∧
        v.validateStateTransitions C block applied now = .ok () := by
  unfold validateBlock
  by_cases hhash : calculateHash C block.header = block.getHash C
  swap
  · simp [hhash]
  by_cases htime : block.header.timestamp ≤ now
  swap
  · simp [hhash, htime, not_le.mp htime]
  rw [if_neg (not_not_intro hhash), if_neg (not_lt.mpr htime), ← validateTransactions_iff]
  cases v.validateTransactions C checked with
  | error err => simp
  | ok u =>
    cases v.validateStateTransitions C block applied now with
    | error err => simp
    | ok u => simp [hhash, htime]

end Validator

/-! ## What is left in the pools -/

variable {output : TransactionOutput} {c : Transaction}

namespace UTXOPool

/-- The outputs that transactions leave in a pool. -/
def outputsAfter (pool : UTXOPool) (blockHeight : UInt64) (txs : List Transaction) :
    Store String UTXO :=
  KeyedLog.run UTXO.markSpent pool.utxos (txs.flatMap (Transaction.events blockHeight))

variable {key : String} (C : Crypto)

lemma addUTXOs_eq_addEach (state : UTXOPool × Host) (txs : List Transaction)
    (blockHeight : UInt64) (now : ℤ) : addUTXOs C state txs blockHeight now =
      addEach C state (txs.map fun tx => (tx, now)) blockHeight := by
  rw [addUTXOs, addEach, foldl_map]

lemma utxos_addUTXOs (pool : UTXOPool) (host : Host) (txs : List Transaction)
    (blockHeight : UInt64) (now : ℤ) :
    (addUTXOs C (pool, host) txs blockHeight now).1.utxos = pool.outputsAfter blockHeight txs := by
  have hsame := sameOutputs_addEach C (txs.map fun tx => (tx, now)) blockHeight host
    (p := pool) (q := pool) ⟨rfl, rfl⟩
  rw [addUTXOs_eq_addEach, hsame.1, utxos_foldl, map_map]
  simp [outputsAfter, Function.comp_def]

lemma merkleRoot_addUTXOs (pool : UTXOPool) (host : Host) {txs : List Transaction}
    (blockHeight : UInt64) (now : ℤ) (hne : txs ≠ []) :
    (addUTXOs C (pool, host) txs blockHeight now).1.merkleRoot =
      calculateMerkleRoot C (pool.outputsAfter blockHeight txs) := by
  rw [← utxos_addUTXOs C pool host txs blockHeight now, addUTXOs_eq_addEach]
  exact merkleRoot_addEach C _ blockHeight (by simpa using hne)

variable {pool : UTXOPool} {blockHeight : UInt64} {txs : List Transaction}

lemma put_mem_flatMap_events {utxo : UTXO} :
    .put key utxo ∈ txs.flatMap (Transaction.events blockHeight) ↔
      ∃ tx ∈ txs, (key, utxo) ∈ tx.created blockHeight := by
  simp only [mem_flatMap, Transaction.put_mem_events]

lemma mem_outputsAfter : key ∈ pool.outputsAfter blockHeight txs ↔
      key ∈ pool.utxos ∨ ∃ tx ∈ txs, key ∈ tx.outputKeys := by
  rw [outputsAfter, KeyedLog.mem_run]
  refine or_congr_right ⟨?_, ?_⟩
  · rintro ⟨utxo, hput⟩
    obtain ⟨tx, htx, hput⟩ := mem_flatMap.mp hput
    exact ⟨tx, htx, Transaction.exists_put_mem_events.mp ⟨utxo, hput⟩⟩
  · rintro ⟨tx, htx, hkey⟩
    obtain ⟨utxo, hput⟩ := Transaction.exists_put_mem_events.mpr hkey
    exact ⟨utxo, mem_flatMap.mpr ⟨tx, htx, hput⟩⟩

/-- The output of a reward is left as it was created, up to the mark of a spent output, if no other
transaction has its identifier. -/
lemma exists_lookup_outputsAfter (pool : UTXOPool) (blockHeight : UInt64)
    (hc : c ∈ txs) (houtputs : c.outputs = [output])
    (hids : ∀ tx ∈ txs, tx.transactionID = c.transactionID → tx = c) :
    ∃ utxo, (pool.outputsAfter blockHeight txs).lookup (utxoKey c.transactionID 0) = some utxo ∧
      utxo.transactionID = c.transactionID ∧ utxo.outputIndex = 0 ∧
      utxo.owner = output.receiver ∧ utxo.amount = output.amount := by
  have hcreated : c.created blockHeight =
      [(utxoKey c.transactionID 0, c.newUTXO blockHeight output 0)] := by
    simp [Transaction.created, houtputs]
  have hkey : utxoKey c.transactionID 0 ∈ c.outputKeys := by
    simp [Transaction.outputKeys, houtputs]
  rw [outputsAfter, KeyedLog.lookup_run]
  refine KeyedLog.exists_foldl_cell_of_put UTXO.markSpent (P := fun utxo : UTXO =>
    utxo.transactionID = c.transactionID ∧ utxo.outputIndex = 0 ∧
      utxo.owner = output.receiver ∧ utxo.amount = output.amount)
    (fun utxo h => h) (fun utxo hput => ?_) ?_ _
  · obtain ⟨tx, htx, hput⟩ := put_mem_flatMap_events.mp hput
    have hout : utxoKey c.transactionID 0 ∈ tx.outputKeys :=
      Transaction.exists_put_mem_events.mp ⟨utxo, Transaction.put_mem_events.mpr hput⟩
    obtain rfl := hids tx htx (Transaction.transactionID_eq_of_mem_outputKeys hout hkey)
    rw [hcreated, mem_singleton] at hput
    obtain rfl : utxo = tx.newUTXO blockHeight output 0 := congrArg Prod.snd hput
    exact ⟨rfl, rfl, rfl, rfl⟩
  · exact ⟨_, put_mem_flatMap_events.mpr ⟨c, hc, hcreated ▸ mem_singleton_self _⟩⟩

end UTXOPool

/-- The accident by which the root of the validator is that of the miner: one output is left, and
its line in the Merkle tree is, byte for byte, what `GetRootHash` hashes of the miner's pool. -/
def RootIsLine (float : FloatBytes) (order : KeyOrder) (mined validated : Store String UTXO) :
    Prop :=
  ∃ key utxo, validated = Finmap.singleton key utxo ∧
    Text.bytes utxo.merkleText = rootText float order mined

lemma UTXO.lt_length_merkleText (utxo : UTXO) :
    (Text.bytes (utxoKey utxo.transactionID utxo.outputIndex)).length +
      (Text.bytes utxo.owner).length + 8 < (Text.bytes utxo.merkleText).length := by
  have hfixed := Text.lt_length_bytes_fixed 8 utxo.amount
  change _ < (Text.bytes (utxoKey utxo.transactionID utxo.outputIndex ++ "-" ++ utxo.owner ++ "-" ++
    Text.fixed 8 utxo.amount)).length
  simp only [Text.bytes_append, length_append]
  omega

/-- **The accident does not occur** if the output of a reward is left on both sides.

**Proof sketch.** If the validator's pool holds one output, it is that of the reward, and so is the
only one of the miner's; line and text begin with the same key and owner, and the line is longer. -/
theorem not_rootIsLine (float : FloatBytes) (order : KeyOrder) (pool : UTXOPool)
    (blockHeight : UInt64) (hc : c ∈ txs)
    (houtputs : c.outputs = [output])
    (hids : ∀ tx ∈ txs, tx.transactionID = c.transactionID → tx = c)
    (happlied : ∀ tx, tx ∈ applied ↔ tx ∈ txs) :
    ¬ RootIsLine float order (pool.outputsAfter blockHeight txs)
      (pool.outputsAfter blockHeight applied) := by
  rintro ⟨key, utxo, hone, htext⟩
  obtain ⟨validated, hvalidated, hid, hindex, howner, -⟩ :=
    UTXOPool.exists_lookup_outputsAfter pool blockHeight ((happlied c).mpr hc) houtputs
      fun tx htx => hids tx ((happlied tx).mp htx)
  obtain ⟨mined, hmined, -, -, howner', -⟩ :=
    UTXOPool.exists_lookup_outputsAfter pool blockHeight hc houtputs hids
  rw [hone] at hvalidated
  obtain rfl : utxoKey c.transactionID 0 = key :=
    Finmap.mem_singleton _ _ _ |>.mp (Finmap.mem_of_lookup_eq_some hvalidated)
  obtain rfl : utxo = validated := by simpa using hvalidated
  have hkeys : ∀ k, k ∈ pool.outputsAfter blockHeight txs ↔ k = utxoKey c.transactionID 0 := by
    intro k
    have hsame : k ∈ pool.outputsAfter blockHeight txs ↔
        k ∈ pool.outputsAfter blockHeight applied := by
      simp only [UTXOPool.mem_outputsAfter, happlied]
    rw [hsame, hone]
    exact Finmap.mem_singleton _ _ _
  rw [rootText_of_forall_mem float order hkeys hmined] at htext
  have hlen := congrArg List.length htext
  have hlt := utxo.lt_length_merkleText
  rw [hid, hindex, howner] at hlt
  rw [length_append, length_append, float.length_bytes, howner'] at hlen
  omega

/-! ## Mined blocks -/

variable {previousBlock : Block} {minerAddress : String} {env : MiningEnv}

lemma Node.mineBlock_read {C : Crypto} {n n' : Node}
    (h : n.mineBlock C env minerAddress = some (n', .ok block))
    (hprev : n.blockchain.getLatestBlock C = some previousBlock) :
    calculateHash C block.header = block.getHash C ∧ block.header.timestamp = env.headerTime ∧
      block.header.blockNumber = previousBlock.header.blockNumber + 1 ∧
      block.transactions = (new.insertBatch C
        (assembled C env n previousBlock minerAddress)).getAllTransactions ∧
      ∀ pool, n.blockchain.utxoPool = some pool → block.header.stateRoot = env.getRootHash
          (pool.outputsAfter (previousBlock.header.blockNumber + 1)
            (assembled C env n previousBlock minerAddress)) := by
  obtain ⟨mined, nonce, who, sig, rfl, hfields⟩ := exists_newBlock h hprev
  have horiginal : mined.originalHash = "" := by rw [hfields]; rfl
  refine ⟨?_, ?_, ?_, ?_, fun pool hpool => ?_⟩
  · rw [Block.header_rememberHash, Block.getHash_rememberHash, Block.getHash, horiginal]
    rfl
  · rw [Block.header_rememberHash, hfields]
    rfl
  · rw [Block.header_rememberHash, hfields]
    rfl
  · exact transactions_mineBlock h hprev
  · rw [Block.header_rememberHash, hfields]
    simp only [newBlock, hpool, Option.map_some]
    rw [UTXOPool.utxos_addUTXOs]

section Assembled

variable (C : Crypto) (env : MiningEnv) (n : Node) (previousBlock : Block) (minerAddress : String)

lemma insertBatch_assembled_ne_nil : (new.insertBatch C
      (assembled C env n previousBlock minerAddress)).getAllTransactions ≠ [] := by
  intro hnil
  have hpath : path C (rewardTransactions C env previousBlock minerAddress).1 ∈ (new.insertBatch C
        (assembled C env n previousBlock minerAddress)).getAllTransactions.map (path C) :=
    PatriciaTrie.mem_map_path_insertBatch.mpr ⟨_, mem_cons_self, rfl⟩
  simp [hnil] at hpath

lemma outputs_rewardTransactions :
    ∃ output, (rewardTransactions C env previousBlock minerAddress).1.outputs = [output] :=
  ⟨_, rfl⟩

variable (float : FloatBytes) (order : KeyOrder) (pool : UTXOPool) (blockHeight : UInt64)

lemma dash_mem_rootText_assembled : 45 ∈ rootText float order
      (pool.outputsAfter blockHeight (assembled C env n previousBlock minerAddress)) := by
  obtain ⟨output, houtputs⟩ := outputs_rewardTransactions C env previousBlock minerAddress
  have hkey : utxoKey (rewardTransactions C env previousBlock minerAddress).1.transactionID 0 ∈
      (rewardTransactions C env previousBlock minerAddress).1.outputKeys := by
    simp [Transaction.outputKeys, houtputs]
  exact dash_mem_rootText float order
    (UTXOPool.mem_outputsAfter.mpr (.inr ⟨_, mem_cons_self, hkey⟩))

variable {C env n previousBlock minerAddress}

lemma not_rootIsLine_assembled
    (hnd : ((assembled C env n previousBlock minerAddress).map (path C)).Nodup)
    (happlied : applied.Perm (new.insertBatch C
      (assembled C env n previousBlock minerAddress)).getAllTransactions) : ¬ RootIsLine float order
      (pool.outputsAfter blockHeight (assembled C env n previousBlock minerAddress))
      (pool.outputsAfter blockHeight applied) := by
  obtain ⟨output, houtputs⟩ := outputs_rewardTransactions C env previousBlock minerAddress
  have hc : (rewardTransactions C env previousBlock minerAddress).1 ∈
      assembled C env n previousBlock minerAddress := mem_cons_self
  refine not_rootIsLine float order pool blockHeight hc houtputs (fun tx htx hid => ?_) fun tx => ?_
  · exact inj_on_of_nodup_map hnd htx hc (by rw [path, path, hid])
  · rw [happlied.mem_iff, (PatriciaTrie.perm_insertBatch hnd).mem_iff]

end Assembled

lemma Validator.validateStateTransitions_mined_iff {C : Crypto}
    {float : FloatBytes} {order : KeyOrder} {n n' : Node} {v : Validator} (now : ℤ)
    (hroot : env.getRootHash = getRootHash C float order)
    (hmined : n.mineBlock C env minerAddress = some (n', .ok block))
    (hprev : n.blockchain.getLatestBlock C = some previousBlock)
    (hpool : v.utxoPool = n.blockchain.utxoPool) (happlied : applied ≠ [])
    (hinj : ∀ pool, n.blockchain.utxoPool = some pool → Set.InjOn C.sha256 {data | data ∈
        rootText float order (pool.outputsAfter (previousBlock.header.blockNumber + 1)
          (assembled C env n previousBlock minerAddress)) :: UTXOPool.merkleTexts C
          (pool.outputsAfter (previousBlock.header.blockNumber + 1) applied)}) :
    v.validateStateTransitions C block applied now = .ok () ↔
      ∃ pool, n.blockchain.utxoPool = some pool ∧ RootIsLine float order
          (pool.outputsAfter (previousBlock.header.blockNumber + 1)
            (assembled C env n previousBlock minerAddress))
          (pool.outputsAfter (previousBlock.header.blockNumber + 1) applied) := by
  obtain ⟨-, -, hnumber, -, hstate⟩ := Node.mineBlock_read hmined hprev
  rw [validateStateTransitions_iff, hpool, hnumber]
  refine exists_congr fun pool => and_congr_right fun hsome => ?_
  have hdash := dash_mem_rootText_assembled C env n previousBlock minerAddress float order pool
    (previousBlock.header.blockNumber + 1)
  rw [UTXOPool.merkleRoot_addUTXOs C pool v.host _ now happlied, hstate pool hsome, hroot,
    getRootHash, UTXOPool.calculateMerkleRoot_eq_hashHex_iff C hdash (hinj pool hsome)]
  rfl

/-- **When a validator accepts a mined block** that it reads with the pool of the miner and not
before its time: all transactions pass its own checks, and the accident occurs by which its root is
that of the miner, which it never does if the transactions have different paths in the trie.

**Proof sketch.** Hash and time pass. The validator's root is the Merkle root of what the
transactions leave, and the text behind the miner's root has the dash of a key. -/
theorem Validator.accepts_mined_iff {C : Crypto} {env : MiningEnv} {float : FloatBytes}
    {order : KeyOrder} {n n' : Node} {minerAddress : String} {block previousBlock : Block}
    {v : Validator} {now : ℤ} {t₁ t₂ : PatriciaTrie}
    (hroot : env.getRootHash = getRootHash C float order)
    (hmined : n.mineBlock C env minerAddress = some (n', .ok block))
    (hprev : n.blockchain.getLatestBlock C = some previousBlock)
    (hpool : v.utxoPool = n.blockchain.utxoPool) (htime : env.headerTime ≤ now)
    (ht₁ : Enumerates block.body.transactions t₁) (ht₂ : Enumerates block.body.transactions t₂)
    (hinj : ∀ pool, n.blockchain.utxoPool = some pool → Set.InjOn C.sha256 {data | data ∈
        rootText float order (pool.outputsAfter (previousBlock.header.blockNumber + 1)
          (assembled C env n previousBlock minerAddress)) ::
        UTXOPool.merkleTexts C (pool.outputsAfter (previousBlock.header.blockNumber + 1)
          t₂.getAllTransactions)}) :
    (v.validateBlock C block t₁.getAllTransactions t₂.getAllTransactions now = .ok () ↔
      (∀ tx ∈ (new.insertBatch C (assembled C env n previousBlock minerAddress)).getAllTransactions,
        v.validateTransaction C tx = .ok ()) ∧ ∃ pool, n.blockchain.utxoPool = some pool ∧
        RootIsLine float order (pool.outputsAfter (previousBlock.header.blockNumber + 1)
            (assembled C env n previousBlock minerAddress))
          (pool.outputsAfter (previousBlock.header.blockNumber + 1) t₂.getAllTransactions)) ∧
    (((assembled C env n previousBlock minerAddress).map (path C)).Nodup →
      v.validateBlock C block t₁.getAllTransactions t₂.getAllTransactions now ≠ .ok ()) := by
  obtain ⟨hhash, htimestamp, -, hlist, -⟩ := Node.mineBlock_read hmined hprev
  have hperm : ∀ {t}, Enumerates block.body.transactions t →
      t.getAllTransactions.Perm (new.insertBatch C
        (assembled C env n previousBlock minerAddress)).getAllTransactions := by
    intro t ht
    rw [← hlist]
    exact ht.perm.symm
  have hne : t₂.getAllTransactions ≠ [] := by
    intro hnil
    have hempty := hperm ht₂
    rw [hnil] at hempty
    exact insertBatch_assembled_ne_nil C env n previousBlock minerAddress hempty.symm.eq_nil
  have hstate := validateStateTransitions_mined_iff now hroot hmined hprev hpool hne hinj
  rw [ne_eq, validateBlock_iff, hstate]
  simp only [hhash, htimestamp, htime, true_and, (hperm ht₁).mem_iff]
  rintro hnd ⟨-, pool, -, hline⟩
  exact not_rootIsLine_assembled float order pool _ hnd (hperm ht₂) hline

/-! ### A miner alone -/

/-- Primitives whose hash is the length of the data. -/
def Crypto.byLength : Crypto :=
  { Crypto.sample with sha256 := fun data => .tagged [UInt8.ofNat data.length] 0 }

def zeroBytes : FloatBytes where
  bytes _ := List.replicate 8 0
  length_bytes _ := length_replicate

def soloMiner : Node where
  blockchain :=
    { chain := [{}]
      utxoPool := some {}
      mempool := some {}
      stakePool := agreeingPool }

def soloEnv : MiningEnv :=
  { agreeingEnv with getRootHash := getRootHash Crypto.byLength zeroBytes sortedKeys }

def soloBlock : Option Block :=
  (soloMiner.mineBlock Crypto.byLength soloEnv "miner").bind fun r => r.2.toOption

def soloValidator : Validator := { utxoPool := some {} }

def soloTransactions : List Transaction := assembled Crypto.byLength soloEnv soloMiner {} "miner"

def soloTexts : List (List UInt8) :=
  rootText zeroBytes sortedKeys (UTXOPool.outputsAfter {} 1 soloTransactions) ::
    UTXOPool.merkleTexts Crypto.byLength (UTXOPool.outputsAfter {} 1
      (new.insertBatch Crypto.byLength soloTransactions).getAllTransactions)

theorem Validator.accepts_mined_solo : ∃ block, soloBlock = some block ∧
      soloValidator.validateBlock Crypto.byLength block block.transactions block.transactions 0 ≠
        .ok () := by
  obtain ⟨block, hblock⟩ := Option.isSome_iff_exists.mp
    (by decide +kernel : soloBlock.isSome = true)
  obtain ⟨n', hmined⟩ := Node.exists_of_bind_toOption hblock
  have hprev : soloMiner.blockchain.getLatestBlock Crypto.byLength = some {} := rfl
  have hself : Enumerates block.body.transactions block.body.transactions := .refl _
  have hlist : block.body.transactions.getAllTransactions = _ :=
    (Node.mineBlock_read hmined hprev).2.2.2.1
  have hfree : ∀ a ∈ soloTexts, ∀ b ∈ soloTexts,
      Crypto.byLength.sha256 a = Crypto.byLength.sha256 b → a = b := by
    decide +kernel
  have hone : (soloTransactions.map (path Crypto.byLength)).Nodup := nodup_singleton _
  refine ⟨block, hblock, (accepts_mined_iff (v := soloValidator) rfl hmined hprev rfl le_rfl hself
    hself ?_).2 hone⟩
  intro pool hpool a ha b hb
  obtain rfl := Option.some.inj hpool
  rw [hlist] at ha hb
  exact hfree a ha b hb

/-- The miner's block fails at the state root: the two sides hash the same pool differently. -/
theorem Validator.rejects_honest_block :
    soloBlock.map (fun block => soloValidator.validateBlock Crypto.byLength block
      block.transactions block.transactions 0) =
      some (.error "state transition validation failed: invalid state root") ∧
    soloValidator.utxoPool = soloMiner.blockchain.utxoPool ∧
    soloBlock.map (fun block => block.header.timestamp) = some 0 := by
  refine ⟨by decide +kernel, rfl, by decide +kernel⟩

end HybridChain
