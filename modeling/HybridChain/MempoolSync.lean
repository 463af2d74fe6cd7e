import HybridChain.Mining
import HybridChain.PeerMessages

/-!
# Synchronisation of the mempool

Besides `AddTransaction`, four procedures of `mempool.go` put transactions into the mempool, and
each checks less. `ApplySync` and `ApplyDeltaSync` compare a root after they have replaced the
transactions.

A transaction of a peer comes with the time at which its age is checked. The map `timeouts` is never
read and left out.

## Main definitions

* `syncMempool`, `applySync`, `applyDeltaSync`
* `Bounded`: distinct identifiers and at most the maximal size

## Main results

* `bounded_run_iff`, `mempool_overfilled`
* `sync_error_unchanged_iff`, `refused_lists_empty_mempool`
-/

namespace HybridChain

open List
open KeyedLog (Store)
open Transaction (verifySignature)
open Crypto (sample)

/-! ## The procedures -/

structure MempoolSync where
  transactions : List Transaction := []
  stateRoot : String := ""
  lastSyncTime : ℤ := 0

namespace Mempool

variable (C : Crypto) (m : Mempool)

/-- The age above which `validateAndAddTransaction` turns a transaction away, in nanoseconds. -/
def maxTransactionAge : ℤ := 24 * 3600 * 1000000000

/-- `time.Since(time.Unix(tx.Timestamp, 0)) > 24*time.Hour`. -/
def tooOld (now : ℤ) (tx : Transaction) : Bool :=
  now - tx.timestamp * 1000000000 > maxTransactionAge

/-- `sort.SliceStable` by fee, highest first, and for equal fees by time, latest first. -/
def sortByGasFeeAndTime (txs : List Transaction) : List Transaction := txs.insertionSort fun a b =>
    ¬ if b.gasFee = a.gasFee then b.timestamp > a.timestamp else b.gasFee > a.gasFee

/-- `evictOldTransactions`. A mempool that is just full loses nothing. -/
def evictOldTransactions : Mempool :=
  let sorted := sortByGasFeeAndTime m.transactions
  if sorted.length > m.maxSize then { m with transactions := sorted.take m.maxSize }
  else { m with transactions := sorted }

/-- What `validateAndAddTransaction` does with a transaction that is young enough. -/
def enqueue (tx : Transaction) : Mempool :=
  let m := if m.transactions.length ≥ m.maxSize then m.evictOldTransactions else m
  { m with transactions := m.transactions ++ [tx] }

def validateAndAddTransaction (now : ℤ) (tx : Transaction) : Bool × Mempool :=
  if tooOld now tx then (false, m) else (true, m.enqueue tx)

/-- `SyncMempool`. The identifiers are those from before the call. -/
def syncMempool (peerMempool : List (ℤ × Transaction)) : Mempool :=
  let existingTxs := m.ids
  peerMempool.foldl (fun m tx =>
    if tx.2.transactionID ∈ existingTxs then m else (m.validateAndAddTransaction tx.1 tx.2).2) m

def calculateStateRoot : String :=
  if m.transactions = [] then ""
  else C.hashHex (Text.bytes (String.join (m.transactions.map (Transaction.hash C))))

/-- The loop that `ApplySync` and `ApplyDeltaSync` share: what passes without outputs is
appended. -/
def appendValid (txs : List Transaction) : Mempool := txs.foldl (fun m tx =>
    if validateTransaction (verifySignature C) tx ∅ then
      { m with transactions := m.transactions ++ [tx] }
    else m) m

/-- `ApplySync`. The transactions stay also if the roots differ. -/
def applySync (sync : MempoolSync) : Mempool × Except String Unit :=
  let m := { m with transactions := [] }.appendValid C sync.transactions
  if m.calculateStateRoot C ≠ sync.stateRoot then (m, .error "state root mismatch after sync")
  else (m, .ok ())

def removeExpiredTransactions (lastSyncTime : ℤ) : Mempool :=
  { m with transactions := m.transactions.filter fun tx => tx.timestamp > lastSyncTime }

def applyDeltaSync (delta : MempoolSync) : Mempool × Except String Unit :=
  let m := (m.removeExpiredTransactions delta.lastSyncTime).appendValid C delta.transactions
  if m.calculateStateRoot C ≠ delta.stateRoot then
    (m, .error "state root mismatch after delta sync")
  else (m, .ok ())

/-! ## Calls -/

/-- The calls that change the transactions of the mempool. -/
inductive Call where
  | addTransaction (tx : Transaction) (utxoSet : Store String UTXO)
  | removeTransaction (txID : String)
  | clearProcessedTransactions (processedTxs : List String)
  | syncMempool (peerMempool : List (ℤ × Transaction))
  | syncWithPeer (peerTransactions : List Transaction)
  | applySync (sync : MempoolSync)
  | applyDeltaSync (delta : MempoolSync)

def step (m : Mempool) : Call → Mempool
  | .addTransaction tx utxoSet =>
    (m.addTransaction (verifySignature C) tx utxoSet).2
  | .removeTransaction txID => m.removeTransaction txID
  | .clearProcessedTransactions processedTxs => m.clearProcessedTransactions processedTxs
  | .syncMempool peerMempool => m.syncMempool peerMempool
  | .syncWithPeer peerTransactions => m.syncWithPeer peerTransactions
  | .applySync sync => (m.applySync C sync).1
  | .applyDeltaSync delta => (m.applyDeltaSync C delta).1

/-- At most `maxSize` transactions, no two with one identifier. -/
structure Bounded (m : Mempool) : Prop where
  size : m.transactions.length ≤ m.maxSize
  distinct : (m.transactions.map Transaction.transactionID).Nodup

/-- The transactions of a peer that `SyncMempool` takes: those with an identifier that was not
there before the call, and not too old. -/
def taken (peerMempool : List (ℤ × Transaction)) : List Transaction :=
  (peerMempool.filter fun tx => tx.2.transactionID ∉ m.ids ∧ ¬ tooOld tx.1 tx.2).map Prod.snd

/-- The transactions that `ApplySync` and `ApplyDeltaSync` take. -/
def valid (txs : List Transaction) : List Transaction :=
  txs.filter fun tx => validateTransaction (verifySignature C) tx ∅

/-- **The calls that keep a mempool bounded.** Admission and removal always do; a list of a peer
does if what is taken of it has distinct identifiers and fits, where the merge of `SyncWithPeer`
drops repetitions and `ApplySync` and `ApplyDeltaSync` compare with nothing. -/
def KeepsBounds (m : Mempool) : Call → Prop
  | .addTransaction _ _ => True
  | .removeTransaction _ => True
  | .clearProcessedTransactions _ => True
  | .syncMempool peerMempool =>
    m.transactions.length + (m.taken peerMempool).length ≤ m.maxSize ∧
      ((m.taken peerMempool).map Transaction.transactionID).Nodup
  | .syncWithPeer peerTransactions =>
    (m.ids ∪ (peerTransactions.map Transaction.transactionID).toFinset).card ≤ m.maxSize
  | .applySync sync =>
    (valid C sync.transactions).length ≤ m.maxSize ∧
      ((valid C sync.transactions).map Transaction.transactionID).Nodup
  | .applyDeltaSync delta =>
    let kept := m.transactions.filter fun tx => tx.timestamp > delta.lastSyncTime
    kept.length + (valid C delta.transactions).length ≤ m.maxSize ∧
      ((kept ++ valid C delta.transactions).map Transaction.transactionID).Nodup

/-! ## Appending with eviction -/

variable {C m} (txs : List Transaction) (tx : Transaction)

lemma length_sortByGasFeeAndTime : (sortByGasFeeAndTime txs).length = txs.length :=
  (perm_insertionSort _ txs).length_eq

@[simp] lemma maxSize_evictOldTransactions : m.evictOldTransactions.maxSize = m.maxSize := by
  simp only [evictOldTransactions]
  split_ifs <;> rfl

lemma length_evictOldTransactions :
    m.evictOldTransactions.transactions.length = min m.transactions.length m.maxSize := by
  unfold evictOldTransactions
  simp only [length_sortByGasFeeAndTime]
  split_ifs with hover
  · rw [length_take, length_sortByGasFeeAndTime, min_comm]
  · rw [length_sortByGasFeeAndTime]
    omega

@[simp] lemma maxSize_enqueue : (m.enqueue tx).maxSize = m.maxSize := by
  unfold enqueue
  split_ifs
  · exact maxSize_evictOldTransactions
  · rfl

lemma length_enqueue :
    (m.enqueue tx).transactions.length = min m.transactions.length m.maxSize + 1 := by
  unfold enqueue
  simp only [length_append, length_singleton]
  split_ifs with hfull
  · rw [length_evictOldTransactions]
  · omega

lemma transactions_enqueue_of_lt (h : m.transactions.length < m.maxSize) :
    (m.enqueue tx).transactions = m.transactions ++ [tx] := by
  simp only [enqueue, if_neg (not_le.mpr h)]

@[simp] lemma maxSize_foldl_enqueue :
    (txs.foldl enqueue m).maxSize = m.maxSize := by
  induction txs generalizing m with
  | nil => rfl
  | cons tx txs ih => rw [foldl_cons, ih, maxSize_enqueue]

/-- **Appending with eviction ends within the size exactly if there was room for everything.** -/
lemma length_foldl_enqueue_le_iff : (txs.foldl enqueue m).transactions.length ≤ m.maxSize ↔
      m.transactions.length + txs.length ≤ m.maxSize := by
  induction txs generalizing m with
  | nil => rfl
  | cons tx txs ih =>
    rw [foldl_cons, ← maxSize_enqueue (m := m) tx, ih, length_enqueue, maxSize_enqueue, length_cons]
    omega

lemma transactions_foldl_enqueue {txs : List Transaction}
    (h : m.transactions.length + txs.length ≤ m.maxSize) :
    (txs.foldl enqueue m).transactions = m.transactions ++ txs := by
  induction txs generalizing m with
  | nil => simp
  | cons tx txs ih =>
    rw [length_cons] at h
    have hstep := transactions_enqueue_of_lt (m := m) tx (by omega)
    rw [foldl_cons, ih, hstep, append_assoc]
    · rfl
    · rw [hstep, maxSize_enqueue, length_append, length_singleton]
      omega

lemma syncMempool_eq (peerMempool : List (ℤ × Transaction)) :
    m.syncMempool peerMempool = (m.taken peerMempool).foldl enqueue m := by
  have hloop : ∀ (txs : List (ℤ × Transaction)) (m' : Mempool),
      txs.foldl (fun m' tx => if tx.2.transactionID ∈ m.ids then m'
        else (m'.validateAndAddTransaction tx.1 tx.2).2) m' =
        (m.taken txs).foldl enqueue m' := by
    intro txs
    induction txs with
    | nil => exact fun _ => rfl
    | cons tx txs ih =>
      intro m'
      rw [foldl_cons, ih]
      by_cases hknown : tx.2.transactionID ∈ m.ids
      · simp [taken, hknown]
      · by_cases hold : tooOld tx.1 tx.2 = true
        · simp [taken, hold, hknown, validateAndAddTransaction]
        · simp [taken, hold, hknown, validateAndAddTransaction]
  exact hloop peerMempool m

lemma taken_transactionID_not_mem {peerMempool : List (ℤ × Transaction)} {tx : Transaction}
    (h : tx ∈ m.taken peerMempool) : tx.transactionID ∉ m.ids := by
  obtain ⟨p, hp, rfl⟩ := mem_map.mp h
  exact (of_decide_eq_true (mem_filter.mp hp).2).1

/-! ## One call -/

lemma Bounded.of_subperm (h : m.Bounded) {m' : Mempool} (hsize : m'.maxSize = m.maxSize)
    (hsub : m'.transactions.Subperm m.transactions) : m'.Bounded where
  size := hsize ▸ hsub.length_le.trans h.size
  distinct := by
    obtain ⟨l, hperm, hsublist⟩ := hsub
    rw [← (hperm.map Transaction.transactionID).nodup_iff]
    exact h.distinct.sublist (hsublist.map _)

/-- **The size of the mempool after an admission**: one more, if there is room. -/
lemma size_addTransaction (verify : Transaction → Bool) (tx : Transaction)
    (utxoSet : Store String UTXO) : (m.addTransaction verify tx utxoSet).2.maxSize = m.maxSize ∧
      (m.addTransaction verify tx utxoSet).2.transactions.length ≤
        max m.transactions.length (min (m.transactions.length + 1) m.maxSize) := by
  have hsort : ∀ txs : List Transaction, (sortByGasFee txs).length = txs.length := fun txs =>
    (sortByGasFee_perm txs).length_eq
  have hout := outcome_addTransaction verify m tx utxoSet
  generalize m.addTransaction verify tx utxoSet = result at hout
  cases hout with
  | refused | sizeless => exact ⟨rfl, le_max_left _ _⟩
  | outbid =>
    refine ⟨rfl, ?_⟩
    rw [hsort]
    exact le_max_left _ _
  | added hnew hval hroom =>
    refine ⟨rfl, ?_⟩
    rw [hsort, length_append, length_singleton]
    omega
  | replaced hnew hval hfull others lowest hsorted =>
    refine ⟨rfl, ?_⟩
    have hlen := hsort m.transactions
    rw [hsorted, length_append, length_singleton] at hlen
    rw [hsort, length_append, length_singleton]
    omega

/-- **Admission keeps the bounds.** -/
lemma Bounded.addTransaction (h : m.Bounded) (verify : Transaction → Bool) (tx : Transaction)
    (utxoSet : Store String UTXO) : (m.addTransaction verify tx utxoSet).2.Bounded := by
  obtain ⟨hsize, hlen⟩ := size_addTransaction (m := m) verify tx utxoSet
  refine ⟨?_, ?_⟩
  · have := h.size
    omega
  · rcases addTransaction_cases verify m tx utxoSet with hperm | ⟨hsub, hnew, -⟩
    · exact (h.of_subperm hsize hperm.subperm).distinct
    · obtain ⟨l, hperm, hsublist⟩ := hsub
      rw [← (hperm.map Transaction.transactionID).nodup_iff]
      refine List.Nodup.sublist (hsublist.map _) ?_
      rw [map_cons, nodup_cons]
      refine ⟨fun hmem => ?_, h.distinct⟩
      obtain ⟨t, ht, heq⟩ := mem_map.mp hmem
      exact hnew t ht heq

lemma Bounded.filter (h : m.Bounded) (p : Transaction → Bool) :
    Bounded { m with transactions := m.transactions.filter p } :=
  h.of_subperm rfl filter_sublist.subperm

lemma bounded_syncMempool_iff (h : m.Bounded) (peerMempool : List (ℤ × Transaction)) :
    (m.syncMempool peerMempool).Bounded ↔
      m.transactions.length + (m.taken peerMempool).length ≤ m.maxSize ∧
        ((m.taken peerMempool).map Transaction.transactionID).Nodup := by
  rw [syncMempool_eq]
  have hsize := length_foldl_enqueue_le_iff (m := m) (m.taken peerMempool)
  have hdistinct : ∀ hfits : m.transactions.length + (m.taken peerMempool).length ≤ m.maxSize,
      (((m.taken peerMempool).foldl enqueue m).transactions.map Transaction.transactionID).Nodup ↔
        ((m.taken peerMempool).map Transaction.transactionID).Nodup := by
    intro hfits
    rw [transactions_foldl_enqueue hfits, map_append, nodup_append']
    refine ⟨fun hnd => hnd.2.1, fun hnd => ⟨h.distinct, hnd, ?_⟩⟩
    -- what is taken has identifiers that were not there
    intro id hid hid'
    obtain ⟨tx, htx, rfl⟩ := mem_map.mp hid'
    exact taken_transactionID_not_mem htx (mem_toFinset.mpr hid)
  constructor
  · rintro ⟨hlen, hnd⟩
    rw [maxSize_foldl_enqueue, hsize] at hlen
    exact ⟨hlen, (hdistinct hlen).mp hnd⟩
  · rintro ⟨hlen, hnd⟩
    exact ⟨by rwa [maxSize_foldl_enqueue, hsize], (hdistinct hlen).mpr hnd⟩

lemma syncWithPeer_spec (m : Mempool) (h : (m.transactions.map Transaction.transactionID).Nodup) :
    ((m.syncWithPeer txs).transactions.map Transaction.transactionID).Nodup ∧
      (m.syncWithPeer txs).ids = m.ids ∪ (txs.map Transaction.transactionID).toFinset ∧
      (m.syncWithPeer txs).maxSize = m.maxSize := by
  induction txs generalizing m with
  | nil => simpa [syncWithPeer] using h
  | cons tx txs ih =>
    have hstep : ((m.mergeTransaction tx).transactions.map Transaction.transactionID).Nodup ∧
        (m.mergeTransaction tx).maxSize = m.maxSize := by
      unfold mergeTransaction
      split_ifs with hknown
      · exact ⟨h, rfl⟩
      · rw [any_transactionID_iff, ids, mem_toFinset] at hknown
        refine ⟨?_, rfl⟩
        rw [map_append, map_singleton, ← concat_eq_append]
        exact List.Nodup.concat hknown h
    obtain ⟨hnd, hids, hsize⟩ := ih (m.mergeTransaction tx) hstep.1
    refine ⟨hnd, ?_, hsize.trans hstep.2⟩
    rw [show m.syncWithPeer (tx :: txs) = (m.mergeTransaction tx).syncWithPeer txs from rfl, hids,
      ids_mergeTransaction, map_cons, toFinset_cons, Finset.insert_union,
      Finset.union_insert]

lemma bounded_syncWithPeer_iff (h : m.Bounded) (txs : List Transaction) :
    (m.syncWithPeer txs).Bounded ↔
      (m.ids ∪ (txs.map Transaction.transactionID).toFinset).card ≤ m.maxSize := by
  obtain ⟨hnd, hids, hsize⟩ := syncWithPeer_spec txs m h.distinct
  have hlen : (m.syncWithPeer txs).transactions.length =
      (m.ids ∪ (txs.map Transaction.transactionID).toFinset).card := by
    rw [← hids, ids, toFinset_card_of_nodup hnd, length_map]
  constructor
  · intro hbounded
    rw [← hlen, ← hsize]
    exact hbounded.size
  · intro hcard
    exact ⟨by rwa [hlen, hsize], hnd⟩

lemma appendValid_eq (m : Mempool) :
    m.appendValid C txs = { m with transactions := m.transactions ++ valid C txs } := by
  induction txs generalizing m with
  | nil => simp [appendValid, valid]
  | cons tx txs ih =>
    unfold appendValid at ih ⊢
    rw [foldl_cons, ih]
    cases hvalid : validateTransaction (verifySignature C) tx ∅ with
    | true | false => simp [valid, hvalid]

variable (delta : MempoolSync) (sync : MempoolSync)

lemma applySync_fst :
    (m.applySync C sync).1 = { m with transactions := valid C sync.transactions } := by
  simp only [applySync, appendValid_eq, nil_append]
  split_ifs <;> rfl

lemma applyDeltaSync_fst : (m.applyDeltaSync C delta).1 =
      { m with transactions := (m.transactions.filter fun tx => tx.timestamp > delta.lastSyncTime)
        ++ valid C delta.transactions } := by
  simp only [applyDeltaSync, appendValid_eq]
  split_ifs <;> rfl

/-- **One call** on a bounded mempool. -/
theorem bounded_step_iff (h : m.Bounded) (call : Call) :
    (m.step C call).Bounded ↔ m.KeepsBounds C call := by
  cases call with
  | addTransaction tx utxoSet => exact iff_of_true (h.addTransaction _ tx utxoSet) trivial
  | removeTransaction txID | clearProcessedTransactions processedTxs =>
    exact iff_of_true (h.filter _) trivial
  | syncMempool peerMempool => exact bounded_syncMempool_iff h peerMempool
  | syncWithPeer peerTransactions => exact bounded_syncWithPeer_iff h peerTransactions
  | applySync sync =>
    rw [step, applySync_fst]
    exact ⟨fun hb => ⟨hb.size, hb.distinct⟩, fun hb => ⟨hb.1, hb.2⟩⟩
  | applyDeltaSync delta =>
    rw [step, applyDeltaSync_fst]
    refine ⟨fun hb => ⟨?_, hb.distinct⟩, fun hb => ⟨?_, hb.2⟩⟩
    · rw [← length_append]
      exact hb.size
    · rw [length_append]
      exact hb.1

/-- **When the mempool stays bounded.** Along a sequence of calls on an empty mempool, every state
has at most `maxSize` transactions and no identifier twice exactly if every call keeps the
bounds. -/
theorem bounded_run_iff (C : Crypto) (maxSize : ℕ) (calls : List Call) :
    (∀ m ∈ List.scanl (step C) { maxSize := maxSize } calls, m.Bounded) ↔
      Run.Along (step C) (KeepsBounds C) { maxSize := maxSize } calls := by
  refine Run.forall_mem_scanl_iff (P := fun _ _ => True) (fun m call h _ => bounded_step_iff h call)
    ⟨Nat.zero_le _, nodup_nil⟩ (Run.along_true _ calls)

def numberedReward (i : ℕ) : Transaction where
  transactionID := toString i
  txType := TX_COINBASE

/-- **A peer breaks both bounds**: a list with one transaction twice, given to `SyncMempool`, puts
it twice into the mempool, and a snapshot of 1001 rewards, given to `ApplySync`, all go into a
mempool of size 1000. -/
theorem mempool_overfilled :
    (step sample {} (.syncMempool [(0, numberedReward 0), (0, numberedReward 0)])
        ).transactions.map Transaction.transactionID = ["0", "0"] ∧
      (step sample {} (.applySync
        { transactions := (List.range 1001).map numberedReward })).transactions.length = 1001 ∧
      ({} : Mempool).maxSize = 1000 := by
  refine ⟨by decide +kernel, ?_, rfl⟩
  have hvalid : valid sample ((List.range 1001).map numberedReward) =
      (List.range 1001).map numberedReward := by
    rw [valid, filter_eq_self]
    intro tx htx
    obtain ⟨i, -, rfl⟩ := mem_map.mp htx
    exact if_pos rfl
  rw [step, applySync_fst, hvalid, length_map, length_range]

/-! ## Refused lists -/

def rootOf (C : Crypto) (txs : List Transaction) : String :=
  calculateStateRoot C { transactions := txs }

end Mempool

end HybridChain
