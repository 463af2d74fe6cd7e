import HybridChain.Account
import Mathlib.Data.Finset.Sort
import Mathlib.Data.String.Basic

/-!
# The pool of transaction outputs

`utxo.go`: the pool maps keys to outputs, keeps spent outputs with their flag set, and mirrors every
change in the account states. `AddUTXO` and `ProcessBlockTransactions` mark inputs and create
outputs by the same loops; they differ in how accounts are credited.

`Clone` keeps the pointers of a pool to the node and to the database, so these live in a `Host`
beside the pool. `time.Now()` is an argument of each call.

## Main definitions

* `UTXOPool`, `Host`, `calculateMerkleRoot`, `addUTXO`
* `events`: the log of a transaction

## Main results

* `utxos_addUTXO`, `utxos_applyTransactions`: applying transactions runs their logs
* `total_run_events`: the exact change of a total
-/

namespace HybridChain

open List
open KeyedLog (Store Event apply run run_append total weight)

structure UTXO where
  transactionID : String := ""
  outputIndex : ℤ := 0
  amount : ℚ := 0
  owner : String := ""
  spent : Bool := false
  blockHeight : UInt64 := 0
  timestamp : ℤ := 0
  scriptPubKey : String := ""
  deriving DecidableEq

/-- A snapshot of the unspent outputs, as it is stored. -/
structure UtxoSnapshot where
  blockHeight : UInt64
  blockHash : String
  utxos : Store String UTXO
  merkleRoot : String
  timestamp : ℤ

/-- The outputs at a height, as they are kept for reorganisations. -/
structure StateSnapshot where
  height : UInt64
  utxoStates : Store String UTXO
  blockHash : String := ""
  timestamp : ℤ := 0

/-- The pool. `node` says whether the pool points to a node. -/
structure UTXOPool where
  utxos : Store String UTXO := ∅
  merkleRoot : String := ""
  lastUpdateTime : ℤ := 0
  /-- Changes since the last synchronisation. -/
  updates : Store String UTXO := ∅
  /-- The keys of removed outputs, since the last synchronisation. -/
  deletions : List String := []
  snapshots : List StateSnapshot := []
  node : Bool := false

structure PoolDB where
  utxoState : Option (Store String UTXO) := none
  utxoSnapshots : Store String UtxoSnapshot := ∅
  /-- A closed database fails every call. -/
  closed : Bool := false

/-- What a pool shares with its clones: the node's account manager and the database. -/
structure Host where
  accountManager : Option AccountManager := none
  db : PoolDB := {}

/-- `sort.Strings`, for the keys of a map. -/
def sortStrings (keys : Finset String) : List String := keys.sort (· ≤ ·)

/-! ## Changes of one output -/

/-- The line of an output in a Merkle tree, for a given text of its amount. -/
def UTXO.merkleLine (utxo : UTXO) (amount : String) : String :=
  utxo.transactionID ++ "-" ++ toString utxo.outputIndex ++ "-" ++ utxo.owner ++ "-" ++ amount

def UTXO.merkleText (utxo : UTXO) : String := utxo.merkleLine (Text.fixed 8 utxo.amount)

def UTXO.markSpent (utxo : UTXO) : UTXO := { utxo with spent := true }

@[simp] lemma UTXO.spent_markSpent (utxo : UTXO) : utxo.markSpent.spent = true := rfl

@[simp] lemma UTXO.markSpent_markSpent (utxo : UTXO) : utxo.markSpent.markSpent = utxo.markSpent :=
  rfl

namespace Transaction

/-- The unspent output a transaction creates at an index. -/
def newUTXO (tx : Transaction) (blockHeight : UInt64) (output : TransactionOutput) (i : ℕ) : UTXO
    where
  transactionID := tx.transactionID
  outputIndex := i
  amount := output.amount
  owner := output.receiver
  spent := false
  blockHeight := blockHeight
  timestamp := tx.timestamp
  scriptPubKey := output.scriptPubKey

/-- The outputs a transaction creates, under their keys. -/
def created (tx : Transaction) (blockHeight : UInt64) : List (String × UTXO) :=
  tx.outputs.zipIdx.map fun (output, i) =>
    (utxoKey tx.transactionID i, tx.newUTXO blockHeight output i)

/-- `ownerUTXOs`: the owner and key of each output created, in order. The source groups the
keys by owner. -/
def ownerUTXOs (tx : Transaction) : List (String × String) :=
  tx.outputs.zipIdx.map fun (output, i) => (output.receiver, utxoKey tx.transactionID i)

/-- The log of a transaction: inputs are marked before outputs are put. -/
def events (blockHeight : UInt64) (tx : Transaction) : List (Event String UTXO) :=
  tx.spentKeys.map .mark ++ (tx.created blockHeight).map fun e => .put e.1 e.2

@[simp] lemma map_fst_created (tx : Transaction) (h : UInt64) :
    (tx.created h).map Prod.fst = tx.outputKeys := by
  rw [created, outputKeys, map_map, range_eq_range', ← zipIdx_map_snd 0 tx.outputs, map_map]
  rfl

variable {tx : Transaction} {k : String} {h : UInt64}

lemma spent_of_mem_created {e : String × UTXO}
    (he : e ∈ tx.created h) : e.2.spent = false := by
  obtain ⟨x, -, rfl⟩ := mem_map.mp he
  rfl

lemma mark_mem_events : .mark k ∈ tx.events h ↔ k ∈ tx.spentKeys := by simp [events]

lemma put_mem_events {utxo : UTXO} :
    .put k utxo ∈ tx.events h ↔ (k, utxo) ∈ tx.created h := by simp [events]

lemma exists_put_mem_events :
    (∃ utxo, .put k utxo ∈ tx.events h) ↔ k ∈ tx.outputKeys := by
  rw [← tx.map_fst_created h]
  simp only [put_mem_events, mem_map, Prod.exists, exists_and_right, exists_eq_right]

lemma forall_mem_events_key_ne :
    (∀ e ∈ tx.events h, e.key ≠ k) ↔ k ∉ tx.spentKeys ∧ k ∉ tx.outputKeys := by
  rw [← mark_mem_events (h := h), ← exists_put_mem_events (h := h)]
  constructor
  · exact fun hk => ⟨fun hm => hk _ hm rfl, fun ⟨_, hp⟩ => hk _ hp rfl⟩
  · rintro ⟨hm, hp⟩ (j | ⟨j, utxo⟩) he rfl
    · exact hm he
    · exact hp ⟨utxo, he⟩

/-- The weights that a transaction takes out of a total: those of the distinct outputs it spends,
and those of the other outputs whose keys it writes. -/
def replaced (f : String → UTXO → ℚ) (utxos : Store String UTXO) (tx : Transaction) : ℚ :=
  ∑ key ∈ tx.spentKeys.toFinset, weight f utxos key +
    ∑ key ∈ tx.outputKeys.toFinset with key ∉ tx.spentKeys, weight f utxos key

/-- **The exact change of a total by one transaction.**

**Proof sketch.** The marks take the weights of the distinct inputs out; the puts add the new
outputs and take out what is left under their keys. -/
theorem total_run_events {f : String → UTXO → ℚ} (hf : ∀ k utxo, f k (UTXO.markSpent utxo) = 0)
    (utxos : Store String UTXO) (tx : Transaction) (h : UInt64) :
    total f (run UTXO.markSpent utxos (tx.events h)) = total f utxos - tx.replaced f utxos +
        ((tx.created h).map fun e => f e.1 e.2).sum := by
  have hover : ((tx.created h).map fun e => weight f
      (run UTXO.markSpent utxos (tx.spentKeys.map .mark)) e.1).sum =
      ∑ key ∈ tx.outputKeys.toFinset with key ∉ tx.spentKeys, weight f utxos key := by
    rw [Finset.sum_filter, sum_toFinset _ tx.nodup_outputKeys, ← tx.map_fst_created h, map_map]
    congr 1
    apply map_congr_left
    intro e _
    rw [KeyedLog.weight_run_marks hf]
    simp
  rw [events, run_append,
    KeyedLog.total_run_puts UTXO.markSpent _ _ (by simpa using tx.nodup_outputKeys),
    KeyedLog.total_run_marks hf, hover, replaced]
  ring

end Transaction

namespace UTXOPool

/-- Mark one input: a key that is not in the pool is skipped with a warning. -/
def markInput (pool : UTXOPool) (key : String) : UTXOPool :=
  match pool.utxos.lookup key with
  | some utxo =>
    { pool with
      utxos := pool.utxos.insert key utxo.markSpent
      updates := pool.updates.insert key utxo.markSpent }
  | none => pool

/-- The loop over the inputs, entered for transactions that are not system transactions. -/
def markInputs (pool : UTXOPool) (tx : Transaction) : UTXOPool := tx.spentKeys.foldl markInput pool

/-- The loop over the outputs: whatever stood under the key is replaced. -/
def createOutputs (pool : UTXOPool) (tx : Transaction) (blockHeight : UInt64) : UTXOPool :=
  (tx.created blockHeight).foldl (fun pool (key, utxo) =>
      { pool with utxos := pool.utxos.insert key utxo, updates := pool.updates.insert key utxo })
    pool

/-- One level of the hash tree of `CalculateMerkleRoot`; an odd last hash is paired with
itself. -/
def merkleLevel (C : Crypto) : List String → List String
  | [] => []
  | [h] => [C.hashHex (Text.bytes (h ++ h))]
  | h₁ :: h₂ :: hs => C.hashHex (Text.bytes (h₁ ++ h₂)) :: merkleLevel C hs

lemma length_merkleLevel (C : Crypto) :
    ∀ hs : List String, 2 * (merkleLevel C hs).length ≤ hs.length + 1
  | [] | [_] => by simp [merkleLevel]
  | _ :: _ :: hs => by
    have ih := length_merkleLevel C hs
    simp only [merkleLevel, length_cons]
    omega

def merkleLevels (C : Crypto) (hashes : List String) : String :=
  if _h : hashes.length > 1 then merkleLevels C (merkleLevel C hashes) else hashes.headD ""
  termination_by hashes.length
  decreasing_by
    have := length_merkleLevel C hashes
    omega

/-- The keys of a pool, sorted. -/
def sortKeys (utxos : Store String UTXO) : List String := sortStrings utxos.keys

/-- `CalculateMerkleRoot`: the hash tree over the outputs in the order of their keys, for a given
text of each output. -/
def calculateMerkleRootBy (C : Crypto) (text : UTXO → String) (utxos : Store String UTXO) :
    String :=
  if utxos = ∅ then ""
  else
    merkleLevels C ((sortKeys utxos).map fun key =>
      C.hashHex (Text.bytes (text ((utxos.lookup key).getD {}))))

def calculateMerkleRoot (C : Crypto) (utxos : Store String UTXO) : String :=
  calculateMerkleRootBy C UTXO.merkleText utxos

@[simp] lemma mem_sortKeys {utxos : Store String UTXO} {key : String} :
    key ∈ sortKeys utxos ↔ key ∈ utxos := by
  rw [sortKeys, sortStrings, Finset.mem_sort, Finmap.mem_keys]

variable (utxos : Store String UTXO)

lemma nodup_sortKeys : (sortKeys utxos).Nodup := Finset.sort_nodup _ _

@[simp] lemma length_sortKeys :
    (sortKeys utxos).length = utxos.keys.card := Finset.length_sort _

/-- `GetBalance`: the sum of the unspent outputs of an address. -/
def getBalance (pool : UTXOPool) (address : String) : ℚ :=
  total (fun _ utxo => if utxo.owner = address ∧ ¬ utxo.spent then utxo.amount else 0) pool.utxos

/-- The account manager a pool reaches through its node. -/
def linkedManager (pool : UTXOPool) (host : Host) : Option AccountManager :=
  if pool.node then host.accountManager else none

end UTXOPool

/-- Store a changed account manager where the pool reached it. -/
def Host.setManager (host : Host) (node : Bool) (am : Option AccountManager) : Host :=
  if node then { host with accountManager := am } else host

/-- `saveState`: persist the outputs. -/
def Host.saveState (host : Host) (utxos : Store String UTXO) : Host × Except String Unit :=
  if host.db.closed then (host, .error "database closed")
  else ({ host with db := { host.db with utxoState := some utxos } }, .ok ())

/-- `CreateSnapshot`: store the unspent outputs under the height of the block. Its errors are
only logged. -/
def Host.createSnapshot (host : Host) (pool : UTXOPool) (blockHeight : UInt64)
    (blockHash : String) (now : ℤ) : Host :=
  if host.db.closed then host
  else
    let snapshot : UtxoSnapshot :=
      { blockHeight := blockHeight
        blockHash := blockHash
        utxos := KeyedLog.filterValues (fun utxo => !utxo.spent) pool.utxos
        merkleRoot := pool.merkleRoot
        timestamp := now }
    let snapshotKey := "utxo_snapshot_" ++ toString blockHeight.toNat
    let utxoSnapshots := host.db.utxoSnapshots.insert snapshotKey snapshot
    { host with db := { host.db with utxoSnapshots := utxoSnapshots } }

/-! ## Accounts -/

namespace AccountState

/-- The debit of a sender: amount and fee are taken off the balance, the inputs off the outputs of
the account. -/
def debit (now : ℤ) (state : AccountState) (tx : Transaction) : AccountState :=
  { state with
    balance := state.balance - (tx.amount + tx.gasFee)
    lastActivity := now
    utxos := tx.inputKeys.foldl (fun utxos key => utxos.erase key) state.utxos }

/-- One turn of the loop of `AddUTXO` over the keys of an owner: the amount is added up and the key
recorded. -/
def creditKey (utxos : Store String UTXO) (received : ℚ × Store String String) (key : String) :
    ℚ × Store String String :=
  match utxos.lookup key with
  | some utxo => (received.1 + utxo.amount, received.2.insert key utxo.transactionID)
  | none => received

/-- The credit of an owner in `AddUTXO`. -/
def credit (utxos : Store String UTXO) (now : ℤ) (utxoKeys : List String) (state : AccountState) :
    AccountState :=
  let (totalReceived, keys) := utxoKeys.foldl (creditKey utxos) (0, state.utxos)
  { state with
    balance := state.balance + totalReceived
    lastActivity := now
    utxos := keys }

/-- The credit of an owner in `ProcessBlockTransactions`: an account whose balance is zero is
replaced by a new one first. -/
def creditBlock (utxos : Store String UTXO) (now : ℤ) (owner : String) (utxoKeys : List String)
    (state : AccountState) : AccountState :=
  let state := if state.balance = 0 then { address := owner, lastActivity := now } else state
  let state := utxoKeys.foldl (fun (state : AccountState) key =>
      let utxo := (utxos.lookup key).getD {}
      { state with
        utxos := state.utxos.insert key utxo.transactionID
        balance := state.balance + utxo.amount })
    state
  { state with lastActivity := now }

end AccountState

namespace AccountManager

variable (am : AccountManager)

/-- Debit the sender of a transaction. A transaction without a sender debits nobody. -/
def debitSender (now : ℤ) (tx : Transaction) : AccountManager :=
  if tx.isSystem ∨ tx.sender = "" then am
  else am.update tx.sender fun state => state.debit now tx

def keysOf (ownerUTXOs : List (String × String)) (owner : String) : List String :=
  (ownerUTXOs.filter fun e => e.1 = owner).map Prod.snd

def ownersOf (ownerUTXOs : List (String × String)) : List String := (ownerUTXOs.map Prod.fst).dedup

/-- The account part of `AddUTXO`: every owner is credited, then the sender is debited. -/
def recordTransaction (utxos : Store String UTXO) (now : ℤ) (tx : Transaction) : AccountManager :=
  let owners := ownersOf tx.ownerUTXOs
  let am := owners.foldl (fun am owner =>
      am.update owner (AccountState.credit utxos now (keysOf tx.ownerUTXOs owner))) am
  let am := am.debitSender now tx
  am.batchUpdateAccounts (owners ++ [tx.sender].filter fun s => !tx.isSystem && s ≠ "")

/-- The account part of `ProcessBlockTransactions` after the loop over the transactions: every
owner is credited. -/
def recordBlock (utxos : Store String UTXO) (now : ℤ) (txs : List Transaction) : AccountManager :=
  let ownerUTXOs := txs.flatMap Transaction.ownerUTXOs
  let owners := ownersOf ownerUTXOs
  let senders := (txs.filter fun tx => !tx.isSystem && tx.sender ≠ "").map Transaction.sender
  let am := owners.foldl (fun am owner =>
      am.update owner (AccountState.creditBlock utxos now owner (keysOf ownerUTXOs owner))) am
  am.batchUpdateAccounts (senders ++ owners)

end AccountManager

/-! ## Applying transactions -/

namespace UTXOPool

/-- `AddUTXO`: mark the inputs, create the outputs, credit the owners, debit the sender. -/
def addUTXO (C : Crypto) (pool : UTXOPool) (host : Host) (tx : Transaction)
    (blockHeight : UInt64) (now : ℤ) : UTXOPool × Host :=
  let pool := (pool.markInputs tx).createOutputs tx blockHeight
  let pool := { pool with
    merkleRoot := calculateMerkleRoot C pool.utxos
    lastUpdateTime := now }
  let am := (pool.linkedManager host).map fun am => am.recordTransaction pool.utxos now tx
  (pool, ((host.setManager pool.node am).saveState pool.utxos).1)

/-- One turn of the loop of `ProcessBlockTransactions` over the transactions of a block. -/
def applyTransaction (blockHeight : UInt64) (now : ℤ)
    (state : UTXOPool × Option AccountManager) (tx : Transaction) :
    UTXOPool × Option AccountManager :=
  let (pool, am) := state
  ((pool.markInputs tx).createOutputs tx blockHeight, am.map fun am => am.debitSender now tx)

/-- `ProcessBlockTransactions` up to the new hash tree root: all transactions are applied and
senders debited, then every owner is credited once. -/
def applyTransactions (C : Crypto) (pool : UTXOPool) (host : Host) (txs : List Transaction)
    (blockHeight : UInt64) (now : ℤ) : UTXOPool × Host :=
  let (pool, am) := txs.foldl (applyTransaction blockHeight now) (pool, pool.linkedManager host)
  let am := am.map fun am => am.recordBlock pool.utxos now txs
  let pool := { pool with
    merkleRoot := calculateMerkleRoot C pool.utxos
    lastUpdateTime := now }
  (pool, host.setManager pool.node am)

/-! ## The log of a call -/

variable (C : Crypto) (pool : UTXOPool) (txs : List Transaction) (tx : Transaction) (host : Host)

lemma utxos_markInput (key : String) :
    (pool.markInput key).utxos = apply UTXO.markSpent pool.utxos (.mark key) := by
  cases hk : pool.utxos.lookup key <;> simp [markInput, apply, hk]

@[simp] lemma node_markInput (key : String) :
    (pool.markInput key).node = pool.node := by
  unfold markInput
  cases pool.utxos.lookup key <;> rfl

lemma utxos_markInputs : (pool.markInputs tx).utxos =
      run UTXO.markSpent pool.utxos (tx.spentKeys.map .mark) := by
  unfold markInputs
  induction tx.spentKeys generalizing pool with
  | nil => rfl
  | cons key keys ih =>
    rw [foldl_cons, ih, utxos_markInput, map_cons, KeyedLog.run_cons]

@[simp] lemma node_markInputs :
    (pool.markInputs tx).node = pool.node := by
  unfold markInputs
  induction tx.spentKeys generalizing pool with
  | nil => rfl
  | cons key keys ih => rw [foldl_cons, ih, node_markInput]

variable (h : UInt64)

lemma utxos_createOutputs : (pool.createOutputs tx h).utxos =
      run UTXO.markSpent pool.utxos ((tx.created h).map fun e => .put e.1 e.2) := by
  unfold createOutputs
  induction tx.created h generalizing pool with
  | nil => rfl
  | cons e es ih => rw [foldl_cons, ih]; rfl

@[simp] lemma node_createOutputs :
    (pool.createOutputs tx h).node = pool.node := by
  unfold createOutputs
  induction tx.created h generalizing pool with
  | nil => rfl
  | cons e es ih => rw [foldl_cons, ih]

lemma utxos_createOutputs_markInputs :
    ((pool.markInputs tx).createOutputs tx h).utxos =
      run UTXO.markSpent pool.utxos (tx.events h) := by
  rw [utxos_createOutputs, utxos_markInputs, Transaction.events, run_append]

/-- **`AddUTXO` runs the log of its transaction.** -/
theorem utxos_addUTXO (tx : Transaction) (h : UInt64) (now : ℤ) :
    (pool.addUTXO C host tx h now).1.utxos = run UTXO.markSpent pool.utxos (tx.events h) :=
  utxos_createOutputs_markInputs pool tx h

@[simp] lemma node_addUTXO (tx : Transaction)
    (h : UInt64) (now : ℤ) : (pool.addUTXO C host tx h now).1.node = pool.node := by
  simp [addUTXO]

lemma foldl_applyTransaction (now : ℤ) (pool : UTXOPool) (am : Option AccountManager) :
    txs.foldl (applyTransaction h now) (pool, am) =
      (txs.foldl (fun pool tx => (pool.markInputs tx).createOutputs tx h) pool,
        am.map fun am => txs.foldl (fun am tx => am.debitSender now tx) am) := by
  induction txs generalizing pool am with
  | nil => simp
  | cons tx txs ih =>
    rw [foldl_cons, applyTransaction, ih]
    simp [Function.comp_def]

lemma utxos_foldl (pool : UTXOPool) :
    (txs.foldl (fun pool tx => (pool.markInputs tx).createOutputs tx h) pool).utxos =
      run UTXO.markSpent pool.utxos (txs.flatMap (Transaction.events h)) := by
  induction txs generalizing pool with
  | nil => rfl
  | cons tx txs ih =>
    rw [foldl_cons, ih, utxos_createOutputs_markInputs, flatMap_cons, run_append]

@[simp] lemma node_foldl (pool : UTXOPool) :
    (txs.foldl (fun pool tx => (pool.markInputs tx).createOutputs tx h) pool).node = pool.node := by
  induction txs generalizing pool with
  | nil => rfl
  | cons tx txs ih => rw [foldl_cons, ih, node_createOutputs, node_markInputs]

/-- **The transactions of a block run their logs one after another.** -/
theorem utxos_applyTransactions (txs : List Transaction) (h : UInt64) (now : ℤ) :
    (pool.applyTransactions C host txs h now).1.utxos =
      run UTXO.markSpent pool.utxos (txs.flatMap (Transaction.events h)) := by
  rw [← utxos_foldl, applyTransactions, foldl_applyTransaction]

@[simp] lemma node_applyTransactions (txs : List Transaction) (h : UInt64) (now : ℤ) :
    (pool.applyTransactions C host txs h now).1.node = pool.node := by
  simp [applyTransactions, foldl_applyTransaction]

end UTXOPool

end HybridChain
