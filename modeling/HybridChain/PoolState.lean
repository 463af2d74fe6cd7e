import HybridChain.Block
import HybridChain.Lib.Run
import HybridChain.StateRoot

/-!
# The stored root of a pool

A pool keeps the Merkle root of its outputs in a field, which every procedure that changes the
outputs sets anew.

Loops that write every entry of one map into another are unions. `lastVerifiedState` is read by none
of the procedures and left out.

## Main definitions

* `removeUTXO`, `applyStateChunk`, `applyDeltaUpdate`, `clone`, `loadSnapshotAtHeight`
* `Pools`, `step`: a pool and its clones
* `Coherent`: the stored root is right

## Main results

* `coherent_iff`: when it is throughout
-/

namespace HybridChain

open KeyedLog (Store)

/-! ## The procedures -/

/-- A portion of the outputs, with a Merkle proof. -/
structure StateChunk where
  chunkID : ℤ
  utxos : Store String UTXO
  merkleProof : List String := []
  total : ℤ := 0

/-- The changes since a synchronisation. -/
structure DeltaUpdate where
  lastSyncTime : ℤ
  utxoUpdates : Store String UTXO
  utxoDeletions : List String
  stateRoot : String
  updateTimestamp : ℤ

namespace DeltaUpdate

/-- The outputs after an update: updates are written first, then deletions are made. -/
def patch (delta : DeltaUpdate) (utxos : Store String UTXO) : Store String UTXO :=
  delta.utxoDeletions.foldl (fun utxos key => utxos.erase key) (delta.utxoUpdates ∪ utxos)

end DeltaUpdate

namespace UTXOPool

variable (C : Crypto)

/-- `RemoveUTXO`: delete an output and record its key. -/
def removeUTXO (pool : UTXOPool) (host : Host) (txID : String) (outputIndex : ℤ) (now : ℤ) :
    UTXOPool × Host :=
  let key := utxoKey txID outputIndex
  let utxos := pool.utxos.erase key
  let pool := { pool with
    utxos := utxos
    deletions := pool.deletions ++ [key]
    lastUpdateTime := now
    merkleRoot := calculateMerkleRoot C utxos }
  (pool, (host.saveState pool.utxos).1)

/-- `ApplyStateChunk`: write the outputs of a chunk. -/
def applyStateChunk (pool : UTXOPool) (chunk : StateChunk) : UTXOPool :=
  let utxos := chunk.utxos ∪ pool.utxos
  { pool with
    utxos := utxos
    merkleRoot := calculateMerkleRoot C utxos }

def verifyUTXO (utxo : UTXO) : Except String Unit :=
  if utxo.transactionID = "" ∨ utxo.amount ≤ 0 then .error "invalid UTXO data" else .ok ()

/-- `VerifyDeltaUpdate`: every update is well formed, and the outputs after the update have the
root the sender states. -/
def verifyDeltaUpdate (pool : UTXOPool) (delta : DeltaUpdate) : Except String Unit :=
  if ¬ ∀ e ∈ delta.utxoUpdates.entries, (verifyUTXO e.2).isOk then
    .error "invalid UTXO in delta: invalid UTXO data"
  else if calculateMerkleRoot C (delta.patch pool.utxos) ≠ delta.stateRoot then
    .error "state root mismatch after delta application"
  else .ok ()

/-- `GetDeltaUpdates`: the updates are sent if anything has changed since, the deletions always. -/
def getDeltaUpdates (pool : UTXOPool) (lastSyncTime now : ℤ) : DeltaUpdate where
  lastSyncTime := lastSyncTime
  utxoUpdates := if pool.lastUpdateTime > lastSyncTime then pool.updates else ∅
  utxoDeletions := pool.deletions
  stateRoot := calculateMerkleRoot C pool.utxos
  updateTimestamp := now

/-- `ApplyDeltaUpdate`: nothing changes unless the update is verified. -/
def applyDeltaUpdate (pool : UTXOPool) (host : Host) (delta : DeltaUpdate) :
    (UTXOPool × Host) × Except String Unit :=
  match pool.verifyDeltaUpdate C delta with
  | .error err => ((pool, host), .error ("delta verification failed: " ++ err))
  | .ok () =>
    let utxos := delta.patch pool.utxos
    let pool := { pool with
      utxos := utxos
      lastUpdateTime := delta.updateTimestamp
      merkleRoot := calculateMerkleRoot C utxos }
    ((pool, (host.saveState pool.utxos).1), .ok ())

/-- `Clone`: every map and slice is copied, the pointers to the node and the database are kept. -/
def clone (pool : UTXOPool) : UTXOPool := pool

/-- `LoadSnapshotAtHeight`: take outputs and root from the database. -/
def loadSnapshotAtHeight (pool : UTXOPool) (host : Host) (blockHeight : UInt64) :
    UTXOPool × Except String Unit :=
  if host.db.closed then (pool, .error "failed to retrieve UTXO snapshot: database closed")
  else
    match host.db.utxoSnapshots.lookup ("utxo_snapshot_" ++ toString blockHeight.toNat) with
    | none => (pool, .error "failed to retrieve UTXO snapshot: key not found")
    | some snapshot =>
      ({ pool with
          utxos := snapshot.utxos
          merkleRoot := snapshot.merkleRoot
          lastUpdateTime := snapshot.timestamp }, .ok ())

end UTXOPool

/-! ## Histories of a pool and its clones -/

/-- A pool with its clones, and what they share. -/
structure Pools where
  pools : List UTXOPool
  host : Host

inductive PoolCall where
  | addUTXO (tx : Transaction) (blockHeight : UInt64)
  | removeUTXO (txID : String) (outputIndex : ℤ)
  | applyStateChunk (chunk : StateChunk)
  | applyDeltaUpdate (delta : DeltaUpdate)
  | processBlockTransactions (block : Block)
  | clone
  | createSnapshot (blockHeight : UInt64) (blockHash : String)
  | loadSnapshotAtHeight (blockHeight : UInt64)

def UTXOPool.call (C : Crypto) (pool : UTXOPool) (host : Host) (now : ℤ) :
    PoolCall → UTXOPool × Host
  | .addUTXO tx blockHeight => pool.addUTXO C host tx blockHeight now
  | .removeUTXO txID outputIndex => pool.removeUTXO C host txID outputIndex now
  | .applyStateChunk chunk => (pool.applyStateChunk C chunk, host)
  | .applyDeltaUpdate delta => (pool.applyDeltaUpdate C host delta).1
  | .processBlockTransactions block => (pool.processBlockTransactions C host block now).1
  | .clone => (pool, host)
  | .createSnapshot blockHeight blockHash =>
    (pool, host.createSnapshot pool blockHeight blockHash now)
  | .loadSnapshotAtHeight blockHeight => ((pool.loadSnapshotAtHeight host blockHeight).1, host)

namespace Pools

variable (C : Crypto)

/-- `NewUTXOPool` over a database. The node sets its pointer later. -/
def new (host : Host) (node : Bool) : Pools where
  pools := [{ node := node }]
  host := host

/-- A call on the pool with an index, at a time. A clone is added at the end. -/
def step (s : Pools) (a : ℕ × ℤ × PoolCall) : Pools :=
  match s.pools[a.1]? with
  | none => s
  | some pool =>
    let (pool', host) := pool.call C s.host a.2.1 a.2.2
    let pools := s.pools.set a.1 pool'
    { pools := if a.2.2 matches .clone then pools ++ [pool.clone] else pools
      host := host }

end Pools

/-! ## The stored root -/

/-- The stored root is the root of the stored outputs. -/
def UTXOPool.Coherent (C : Crypto) (pool : UTXOPool) : Prop :=
  pool.merkleRoot = UTXOPool.calculateMerkleRoot C pool.utxos

instance (C : Crypto) (pool : UTXOPool) : Decidable (pool.Coherent C) :=
  inferInstanceAs (Decidable (_ = _))

/-- The root of a snapshot is the root of its outputs. -/
def UtxoSnapshot.Coherent (C : Crypto) (snapshot : UtxoSnapshot) : Prop :=
  snapshot.merkleRoot = UTXOPool.calculateMerkleRoot C snapshot.utxos

/-- The snapshot that `LoadSnapshotAtHeight` finds. -/
def Host.snapshotAt (host : Host) (blockHeight : UInt64) : Option UtxoSnapshot :=
  if host.db.closed then none
  else host.db.utxoSnapshots.lookup ("utxo_snapshot_" ++ toString blockHeight.toNat)

/-- A pool that loads a snapshot finds none, or one with the root of its own outputs. -/
def PoolCall.LoadsCoherent (C : Crypto) (host : Host) : PoolCall → Prop
  | .loadSnapshotAtHeight blockHeight =>
    ∀ snapshot, host.snapshotAt blockHeight = some snapshot → snapshot.Coherent C
  | _ => True

namespace UTXOPool

variable {C : Crypto} {pool : UTXOPool} {host : Host}

lemma coherent_applyDeltaUpdate (h : pool.Coherent C) (delta : DeltaUpdate) :
    (pool.applyDeltaUpdate C host delta).1.1.Coherent C := by
  unfold applyDeltaUpdate
  split
  · exact h
  · rfl

lemma coherent_loadSnapshotAtHeight_iff (h : pool.Coherent C) (blockHeight : UInt64) :
    (pool.loadSnapshotAtHeight host blockHeight).1.Coherent C ↔
      ∀ snapshot, host.snapshotAt blockHeight = some snapshot → snapshot.Coherent C := by
  rw [loadSnapshotAtHeight, Host.snapshotAt]
  by_cases hclosed : host.db.closed
  · simpa [hclosed] using h
  · rw [if_neg hclosed, if_neg hclosed]
    cases hlookup : host.db.utxoSnapshots.lookup ("utxo_snapshot_" ++ toString blockHeight.toNat)
    · simpa using h
    · simp [Coherent, UtxoSnapshot.Coherent]

/-- **One call**: all procedures but the loading of a snapshot compute the root anew or leave the
outputs alone. -/
lemma coherent_call_iff (h : pool.Coherent C) (now : ℤ) (call : PoolCall) :
    (pool.call C host now call).1.Coherent C ↔ call.LoadsCoherent C host := by
  cases call with
  | loadSnapshotAtHeight blockHeight => exact coherent_loadSnapshotAtHeight_iff h blockHeight
  | applyDeltaUpdate delta => exact iff_of_true (coherent_applyDeltaUpdate h delta) trivial
  | clone | createSnapshot => exact iff_of_true h trivial
  | addUTXO | removeUTXO | applyStateChunk | processBlockTransactions =>
    exact iff_of_true rfl trivial

end UTXOPool

namespace Pools

variable (C : Crypto)

/-- Every pool stores the root of its outputs. -/
def Coherent (s : Pools) : Prop := ∀ pool ∈ s.pools, pool.Coherent C

instance (s : Pools) : Decidable (s.Coherent C) :=
  inferInstanceAs (Decidable (∀ _ ∈ _, _))

/-- A call on a pool that exists loads no snapshot with a wrong root. -/
def LoadsCoherent (s : Pools) (a : ℕ × ℤ × PoolCall) : Prop :=
  a.1 < s.pools.length → a.2.2.LoadsCoherent C s.host

variable {C}

/-- **One call on one of several pools.** -/
lemma coherent_step_iff {s : Pools} (h : s.Coherent C) (a : ℕ × ℤ × PoolCall) :
    (s.step C a).Coherent C ↔ s.LoadsCoherent C a := by
  obtain ⟨i, now, call⟩ := a
  by_cases hi : i < s.pools.length
  · have hget : s.pools[i]? = some s.pools[i] := List.getElem?_eq_getElem hi
    have hpool : s.pools[i].Coherent C := h _ (List.getElem_mem hi)
    have hset : (∀ pool ∈ s.pools.set i (s.pools[i].call C s.host now call).1, pool.Coherent C) ↔
        call.LoadsCoherent C s.host := by
      rw [← UTXOPool.coherent_call_iff hpool now call]
      constructor
      · exact fun hall => hall _ (List.mem_set hi _)
      · intro hcall pool hmem
        rcases List.mem_or_eq_of_mem_set hmem with hmem | rfl
        · exact h pool hmem
        · exact hcall
    simp only [Coherent, step, hget, LoadsCoherent, hi, forall_true_left]
    rw [← hset]
    split_ifs with hclone
    · rw [List.forall_mem_append, List.forall_mem_singleton]
      exact and_iff_left hpool
    · rfl
  · have hget : s.pools[i]? = none := List.getElem?_eq_none (by omega)
    simp only [Coherent, step, hget, LoadsCoherent, hi, false_imp_iff, iff_true]
    exact h

/-- **When the stored root is right throughout**: in a history of a new pool and its clones every
pool stores the root of its outputs exactly if every snapshot that is loaded carries the root of the
outputs stored in it.

**Proof sketch.** One call keeps the stored roots right exactly if it loads no wrong one. -/
theorem coherent_iff (host : Host) (node : Bool) (calls : List (ℕ × ℤ × PoolCall)) :
    (∀ s ∈ List.scanl (step C) (new host node) calls, s.Coherent C) ↔
      Run.Along (step C) (LoadsCoherent C) (new host node) calls := by
  have hnew : (new host node).Coherent C := by
    intro pool hpool
    obtain rfl : pool = { node := node } := by simpa [new] using hpool
    rfl
  exact Run.forall_mem_scanl_iff (fun s a hs _ => coherent_step_iff hs a) hnew (Run.along_true _ _)

def tenTokenReward : Transaction where
  transactionID := "p"
  txType := TX_COINBASE
  outputs := [{ receiver := "a", amount := 10 }]

def spendReward : Transaction where
  transactionID := "q"
  sender := "a"
  inputs := [{ transactionID := "p", outputIndex := 0 }]

def spentThenLoaded : List (ℕ × ℤ × PoolCall) :=
  [(0, 1, .addUTXO tenTokenReward 1), (0, 2, .addUTXO spendReward 2),
    (0, 3, .createSnapshot 2 ""), (0, 4, .loadSnapshotAtHeight 2)]

/-- The snapshot leaves the spent output out and keeps the root of the pool that held it. -/
theorem not_coherent_spentThenLoaded :
    ¬ ∀ s ∈ List.scanl (step Crypto.sample) (new {} false) spentThenLoaded,
      s.Coherent Crypto.sample := by
  decide +kernel

end Pools

/-- **Snapshots of pools without spent outputs are coherent**: no output is left out, so that the
root fits. -/
theorem UtxoSnapshot.coherent_of_unspent {C : Crypto} {pool : UTXOPool} (h : pool.Coherent C)
    (hunspent : ∀ key utxo, pool.utxos.lookup key = some utxo → utxo.spent = false) {host : Host}
    {blockHeight : UInt64} {blockHash : String} {now : ℤ} {snapshot : UtxoSnapshot}
    (hopen : host.db.closed = false)
    (hsnapshot : (host.createSnapshot pool blockHeight blockHash now).snapshotAt blockHeight =
      some snapshot) : snapshot.Coherent C := by
  have hall : KeyedLog.filterValues (fun utxo => !utxo.spent) pool.utxos = pool.utxos := by
    apply Finmap.ext_lookup
    intro key
    rw [KeyedLog.lookup_filterValues]
    cases hkey : pool.utxos.lookup key with
    | none => rfl
    | some utxo => simp [hunspent key utxo hkey]
  simp only [Host.createSnapshot, Host.snapshotAt, hopen, Bool.false_eq_true, if_false,
    Finmap.lookup_insert, Option.some.injEq] at hsnapshot
  rw [← hsnapshot, Coherent, hall]
  exact h

end HybridChain
