import HybridChain.ReplayedOutputs

/-!
# Reorganisation of a pool

`HandleReorg` of `utxo.go`: the pool goes back to the last snapshot that is not above the last
common block, and the blocks of the new chain after the common block are applied; those between are
not.

The lock that `HandleReorg` and `AddUTXO` both take is left out. A run-time panic is `none`. The
restored map is the one of the snapshot itself, so `AddUTXO` changes the snapshot as well.

## Main definitions

* `handleReorg`, `findLastCommonBlock`, `restoreSnapshot`
* `AgreeBefore`: what the skipped blocks must not change

## Main results

* `handleReorg_iff`: when the pool has the outputs of the new chain
-/

namespace HybridChain

open List
open KeyedLog (Store Event run run_append)
open Crypto (sample)

namespace UTXOPool

variable (C : Crypto)

/-! ## The procedures -/

/-- The loop of `findLastCommonBlock` over the indices below a bound, from the last one down. -/
def lastCommon (oldChain newChain : List Block) : ℕ → ℕ
  | 0 => 0
  | i + 1 =>
    if oldChain[i]?.map (Block.getHash C) = newChain[i]?.map (Block.getHash C) then i
    else lastCommon oldChain newChain i

/-- `findLastCommonBlock`: zero also stands for no common block. -/
def findLastCommonBlock (oldChain newChain : List Block) : ℕ :=
  lastCommon C oldChain newChain (min oldChain.length newChain.length)

/-- The loop of `restoreSnapshot` over the indices below a bound, from the last one down. -/
def lastSnapshot (snapshots : List StateSnapshot) (height : ℕ) : ℕ → Option (ℕ × StateSnapshot)
  | 0 => none
  | i + 1 =>
    match snapshots[i]? with
    | none => lastSnapshot snapshots height i
    | some snapshot =>
      if snapshot.height.toNat ≤ height then some (i, snapshot)
      else lastSnapshot snapshots height i

/-- The snapshot that `restoreSnapshot` finds, with its index. -/
def restoreSnapshot (pool : UTXOPool) (height : ℕ) : Option (ℕ × StateSnapshot) :=
  lastSnapshot pool.snapshots height pool.snapshots.length

/-- `AddUTXO` for all transactions of some blocks. -/
def addBlocks (now : ℤ) (s : UTXOPool × Host) (blocks : List Block) : UTXOPool × Host :=
  blocks.foldl (fun s block => block.transactions.foldl
    (fun s tx => s.1.addUTXO C s.2 tx block.header.blockNumber now) s) s

/-- `HandleReorg`. A new chain without blocks makes it panic, unless there is no snapshot. -/
def handleReorg (pool : UTXOPool) (host : Host) (oldChain newChain : List Block) (now : ℤ) :
    Option ((UTXOPool × Host) × Except String Unit) :=
  let commonHeight := findLastCommonBlock C oldChain newChain
  match pool.restoreSnapshot commonHeight with
  | none =>
    some ((pool, host), .error s!"no snapshot found for height {commonHeight}")
  | some (i, snapshot) =>
    if newChain.length < commonHeight + 1 then none
    else
      let s := addBlocks C now ({ pool with utxos := snapshot.utxoStates }, host)
        (newChain.drop (commonHeight + 1))
      let restored := { snapshot with utxoStates := s.1.utxos }
      some (({ s.1 with snapshots := s.1.snapshots.set i restored }, s.2), .ok ())

end UTXOPool

/-! ## What blocks create and spend -/

def createdBy (blocks : List Block) (key : String) : Prop :=
  ∃ block ∈ blocks, ∃ tx ∈ block.transactions, key ∈ tx.outputKeys

def spentBy (blocks : List Block) (key : String) : Prop :=
  ∃ block ∈ blocks, ∃ tx ∈ block.transactions, key ∈ tx.spentKeys

/-- Two maps hold the same output under every key that the blocks do not create, up to its flag if
the blocks spend it. -/
def AgreeBefore (blocks : List Block) (s t : Store String UTXO) : Prop :=
  ∀ key, ¬ createdBy blocks key →
    (spentBy blocks key → (s.lookup key).map UTXO.markSpent = (t.lookup key).map UTXO.markSpent) ∧
      (¬ spentBy blocks key → s.lookup key = t.lookup key)

variable {blocks : List Block} {key : String}

lemma exists_put_mem_flatMap_events :
    (∃ utxo, .put key utxo ∈ blocks.flatMap Block.events) ↔ createdBy blocks key := by
  simp only [createdBy, mem_flatMap, Block.events]
  constructor
  · rintro ⟨utxo, block, hblock, tx, htx, hput⟩
    exact ⟨block, hblock, tx, htx, Transaction.exists_put_mem_events.mp ⟨utxo, hput⟩⟩
  · rintro ⟨block, hblock, tx, htx, hkey⟩
    obtain ⟨utxo, hput⟩ := Transaction.exists_put_mem_events.mpr hkey
    exact ⟨utxo, block, hblock, tx, htx, hput⟩

lemma mark_mem_flatMap_events : .mark key ∈ blocks.flatMap Block.events ↔ spentBy blocks key := by
  simp only [spentBy, mem_flatMap, Block.events, Transaction.mark_mem_events]

lemma run_eq_run_iff_agreeBefore {s t : Store String UTXO} :
    run UTXO.markSpent s (blocks.flatMap Block.events) =
        run UTXO.markSpent t (blocks.flatMap Block.events) ↔ AgreeBefore blocks s t := by
  rw [KeyedLog.run_eq_run_iff _ UTXO.markSpent_markSpent]
  simp only [← not_exists, exists_put_mem_flatMap_events, mark_mem_flatMap_events]
  rfl

namespace UTXOPool

variable (C : Crypto)

/-! ## The outputs after a reorganisation -/

lemma utxos_addBlocks (now : ℤ) (s : UTXOPool × Host) (blocks : List Block) :
    (addBlocks C now s blocks).1.utxos =
      run UTXO.markSpent s.1.utxos (blocks.flatMap Block.events) := by
  have hblock : ∀ (block : Block) (s : UTXOPool × Host), (block.transactions.foldl
        (fun s tx => s.1.addUTXO C s.2 tx block.header.blockNumber now) s).1.utxos =
      run UTXO.markSpent s.1.utxos block.events := by
    intro block
    rw [Block.events]
    induction block.transactions with
    | nil => exact fun s => rfl
    | cons tx txs ih =>
      intro s
      rw [foldl_cons, ih, utxos_addUTXO, flatMap_cons, run_append]
  unfold addBlocks
  induction blocks generalizing s with
  | nil => rfl
  | cons block blocks ih =>
    rw [foldl_cons, ih, hblock, flatMap_cons, run_append]

/-- The outputs that `AddUTXO` gives for all transactions of a chain, from its first block. The
time of the calls does not enter them. -/
def chainOutputs (chain : List Block) : Store String UTXO := (addBlocks C 0 ({}, {}) chain).1.utxos

lemma chainOutputs_append (chain blocks : List Block) : chainOutputs C (chain ++ blocks) =
      run UTXO.markSpent (chainOutputs C chain) (blocks.flatMap Block.events) := by
  rw [chainOutputs, utxos_addBlocks, chainOutputs, utxos_addBlocks, flatMap_append, run_append]

/-- The blocks of the new chain after the common one. -/
def laterBlocks (oldChain newChain : List Block) : List Block :=
  newChain.drop (findLastCommonBlock C oldChain newChain + 1)

variable {C} {pool : UTXOPool}

/-- **The outputs after a reorganisation**: a snapshot, and the logs of the later blocks. -/
lemma utxos_handleReorg {host : Host} {oldChain newChain : List Block} {now : ℤ}
    {s : UTXOPool × Host} (h : pool.handleReorg C host oldChain newChain now = some (s, .ok ())) :
    ∃ i snapshot,
      pool.restoreSnapshot (findLastCommonBlock C oldChain newChain) = some (i, snapshot) ∧
        s.1.utxos = run UTXO.markSpent snapshot.utxoStates
          ((laterBlocks C oldChain newChain).flatMap Block.events) := by
  rw [handleReorg] at h
  cases hrestore : pool.restoreSnapshot (findLastCommonBlock C oldChain newChain) with
  | none =>
    simp only [hrestore] at h
    cases h
  | some found =>
    obtain ⟨i, snapshot⟩ := found
    simp only [hrestore] at h
    split_ifs at h
    simp only [Option.some.injEq, Prod.mk.injEq, and_true] at h
    refine ⟨i, snapshot, rfl, ?_⟩
    rw [← h, laterBlocks]
    exact utxos_addBlocks C now _ _

lemma mem_of_restoreSnapshot {height i : ℕ} {snapshot : StateSnapshot}
    (h : pool.restoreSnapshot height = some (i, snapshot)) :
    snapshot ∈ pool.snapshots ∧ snapshot.height.toNat ≤ height := by
  have hloop : ∀ n, lastSnapshot pool.snapshots height n = some (i, snapshot) →
      snapshot ∈ pool.snapshots ∧ snapshot.height.toNat ≤ height := by
    intro n
    induction n with
    | zero => exact fun h => nomatch h
    | succ n ih =>
      rw [lastSnapshot]
      cases hn : pool.snapshots[n]? with
      | none => exact ih
      | some found =>
        dsimp only
        split_ifs with hle
        · intro hfound
          obtain ⟨rfl, rfl⟩ := Prod.mk.inj (Option.some.inj hfound)
          exact ⟨mem_of_getElem? hn, hle⟩
        · exact ih
  exact hloop _ h

/-- **When a reorganisation gives the outputs of the new chain**, if the snapshots hold those of the
old one: exactly if the old chain up to the restored snapshot and the new chain up to the common
block leave the same output under every key that later blocks do not create, up to its flag if later
blocks spend it.

**Proof sketch.** Both sides run the logs of the later blocks: the pool from the snapshot, the
reference from the common part. -/
theorem handleReorg_iff {pool : UTXOPool} {host : Host} {oldChain newChain : List Block} {now : ℤ}
    {s : UTXOPool × Host} (hsnapshots : ∀ snapshot ∈ pool.snapshots, snapshot.utxoStates =
      chainOutputs C (oldChain.take (snapshot.height.toNat + 1)))
    (h : pool.handleReorg C host oldChain newChain now = some (s, .ok ())) :
    s.1.utxos = chainOutputs C newChain ↔ ∀ i snapshot,
        pool.restoreSnapshot (findLastCommonBlock C oldChain newChain) = some (i, snapshot) →
        AgreeBefore (laterBlocks C oldChain newChain)
          (chainOutputs C (oldChain.take (snapshot.height.toNat + 1)))
          (chainOutputs C (newChain.take (findLastCommonBlock C oldChain newChain + 1))) := by
  obtain ⟨i, snapshot, hrestore, hutxos⟩ := utxos_handleReorg h
  have hsplit : chainOutputs C newChain = run UTXO.markSpent
      (chainOutputs C (newChain.take (findLastCommonBlock C oldChain newChain + 1)))
      ((laterBlocks C oldChain newChain).flatMap Block.events) := by
    rw [← chainOutputs_append, laterBlocks, take_append_drop]
  rw [hutxos, hsplit, hsnapshots snapshot (mem_of_restoreSnapshot hrestore).1,
    run_eq_run_iff_agreeBefore, hrestore]
  constructor
  · intro hagree j found hfound
    obtain ⟨-, rfl⟩ := Prod.mk.inj (Option.some.inj hfound)
    exact hagree
  · exact fun hagree => hagree i snapshot rfl

def twoBlocks : List Block := [genesisBlock 0, Node.paymentBlock]

lemma chainOutputs_genesisBlock (C : Crypto) : chainOutputs C [genesisBlock 0] = ∅ := by
  rw [chainOutputs, utxos_addBlocks, flatMap_singleton, Node.events_genesisBlock]
  rfl

/-- The only snapshot is below the common block, whose payment is lost. -/
theorem payment_lost_in_reorg :
    ∃ s, handleReorg sample { snapshots := [{ height := 0, utxoStates := ∅ }] } {} twoBlocks
        twoBlocks 0 = some (s, .ok ()) ∧
      chainOutputs sample (twoBlocks.take 1) = ∅ ∧ s.1.utxos.lookup "p-0" = none ∧
        ((chainOutputs sample twoBlocks).lookup "p-0").isSome := by
  refine ⟨_, rfl, chainOutputs_genesisBlock _, rfl, ?_⟩
  rw [twoBlocks, chainOutputs, utxos_addBlocks, flatMap_cons, flatMap_singleton,
    Node.events_genesisBlock, Block.events, Node.transactions_paymentBlock,
    KeyedLog.lookup_run]
  decide +kernel

def snapshotAtTip : UTXOPool where
  snapshots := [{ height := 1, utxoStates := chainOutputs sample twoBlocks }]

theorem handleReorg_iff_snapshotAtTip :
    ∃ s, snapshotAtTip.handleReorg sample {} twoBlocks twoBlocks 0 = some (s, .ok ()) ∧
      s.1.utxos = chainOutputs sample twoBlocks := by
  obtain ⟨s, hs⟩ : ∃ s, snapshotAtTip.handleReorg sample {} twoBlocks twoBlocks 0 =
      some (s, .ok ()) := ⟨_, rfl⟩
  refine ⟨s, hs, (handleReorg_iff ?_ hs).mpr ?_⟩
  · rintro snapshot hsnapshot
    obtain rfl := mem_singleton.mp hsnapshot
    rfl
  · rintro i snapshot hfound
    obtain ⟨-, rfl⟩ := Prod.mk.inj (Option.some.inj hfound)
    exact fun key _ => ⟨fun _ => rfl, fun _ => rfl⟩

end UTXOPool

end HybridChain
