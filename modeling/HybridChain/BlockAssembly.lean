import HybridChain.DoubleSpend
import HybridChain.Lib.CumulativeWalk
import HybridChain.Lib.Greedy
import HybridChain.MerkleRoots
import HybridChain.UtxoSet

/-!
# The assembly of a block

`NewBlock` of `block.go` and `GetPrioritizedTransactions` of `mempool.go`. The loop ends at the
first transaction whose gas does not fit, skips those that are not valid for the outputs left by the
ones before, and applies the others to the caller's map of outputs.

The clock is read twice in each comparison of two transactions; fees and ages are exact. A mempool
has far less than `2 ^ 44` transactions, so the size of a block does not overflow.

## Main definitions

* `getPrioritizedTransactions`, `calculateGas`, `processTransactions`, `newBlock`
* `newBlockIncludes`: the transactions of the block

## Main results

* `newBlock_assembles`: a block is within its gas limit and spends unspent outputs
-/

namespace HybridChain

open List
open KeyedLog (Store)

/-! ## Gas and priority -/

def Transaction.getData (tx : Transaction) : List UInt8 :=
  Text.bytes (tx.sender ++ tx.receiver ++ Text.fixed 6 tx.amount ++ toString tx.gasPrice.toNat ++
    toString tx.gasLimit.toNat)

def calculateGas (tx : Transaction) : UInt64 :=
  let gasUsed : UInt64 := 21000
  let data := tx.getData
  let gasUsed := if data.length > 0 then gasUsed + UInt64.ofNat data.length * 16 else gasUsed
  gasUsed + 2000

/-- `calculateDynamicBlockSize`, with `CalculateBlockSize` of `block_gas.go`. -/
def calculateDynamicBlockSize (txCount : ℕ) : ℕ := min (10 * 1024 + txCount * 250) (1024 * 1024)

/-- `time.Since`, in nanoseconds. A duration that does not fit into 64 bits is cut off. -/
def timeSince (now timestamp : ℤ) : ℤ := max (-2 ^ 63) (min (2 ^ 63 - 1) (now - timestamp * 10 ^ 9))

namespace Mempool

/-- The priority of a transaction: its fee, and as much again for each day of its age. -/
def priority (now : ℤ) (tx : Transaction) : ℚ :=
  let ageFactor : ℚ := timeSince now tx.timestamp / (60 * 10 ^ 9)
  tx.gasFee * (1 + ageFactor / 1440)

/-- What the clock shows when two transactions are compared, for the age of each. -/
abbrev SortClock := Transaction → Transaction → ℤ × ℤ

def getPrioritizedTransactions (m : Mempool) (clock : SortClock) (limit : ℕ) : List Transaction :=
  let txCopy := StableSort.sliceStable
    (fun a b => priority (clock a b).1 a > priority (clock a b).2 b) m.transactions
  txCopy.take limit

lemma getPrioritizedTransactions_subperm (m : Mempool) (clock : SortClock) (limit : ℕ) :
    (m.getPrioritizedTransactions clock limit).Subperm m.transactions :=
  (take_sublist _ _).subperm.trans (StableSort.sliceStable_perm _ _).subperm

lemma mem_getPrioritizedTransactions {m : Mempool} {limit : ℕ} (h : m.transactions.length ≤ limit)
    (clock : SortClock) {tx : Transaction} :
    tx ∈ m.getPrioritizedTransactions clock limit ↔ tx ∈ m.transactions := by
  have hperm := StableSort.sliceStable_perm
    (fun a b => priority (clock a b).1 a > priority (clock a b).2 b) m.transactions
  rw [getPrioritizedTransactions, take_of_length_le (hperm.length_eq.le.trans h), hperm.mem_iff]

end Mempool

/-! ## The loop -/

/-- What the loop of `NewBlock` has put together. -/
structure Assembly where
  transactions : PatriciaTrie := .new
  receipts : List TxReceipt := []
  cumulativeGas : UInt64 := 0
  utxoSet : Store String UTXO

variable {txs : List Transaction}

section Loop

variable (C : Crypto)

/-- The receipt of a transaction that is included after some gas has been used. -/
def receiptOf (blockNumber : UInt64) (cumulativeGas : UInt64) (tx : Transaction) : TxReceipt where
  txHash := tx.hash C
  blockNumber := blockNumber
  gasUsed := calculateGas tx
  status := 1
  cumulativeGas := cumulativeGas + calculateGas tx

def includeTransaction (blockNumber : UInt64) (st : Assembly) (tx : Transaction) : Assembly where
  transactions := st.transactions.insert C tx
  receipts := st.receipts ++ [receiptOf C blockNumber st.cumulativeGas tx]
  cumulativeGas := st.cumulativeGas + calculateGas tx
  utxoSet := updateUTXOSet tx st.utxoSet

/-- The loop of `NewBlock`. -/
def processTransactions (header : BlockHeader) : List Transaction → Assembly → Assembly
  | [], st => st
  | tx :: txs, st =>
    let gasNeeded := calculateGas tx
    if st.cumulativeGas + gasNeeded > header.gasLimit then st
    else if Mempool.validateTransaction (Transaction.verifySignature C) tx st.utxoSet then
      processTransactions header txs (includeTransaction C header.blockNumber st tx)
    else processTransactions header txs st

/-- `NewBlock`: the block, and the map of outputs afterwards. `timestamp` is the Unix time of the
header and `clock` the times of the sort. -/
def Block.newBlock (previousBlock : Block) (mempool : Mempool) (utxoSet : Store String UTXO)
    (difficulty : UInt32) (validator : String) (timestamp : ℤ) (clock : Mempool.SortClock) :
    Block × Store String UTXO :=
  let header : BlockHeader :=
    { version := 1
      blockNumber := previousBlock.header.blockNumber + 1
      previousHash := previousBlock.getHash C
      timestamp := timestamp
      difficulty := difficulty
      gasLimit := baseGasLimit
      validatedBy := validator }
  let txs := mempool.getPrioritizedTransactions clock
    (calculateDynamicBlockSize mempool.transactions.length)
  let st := processTransactions C header txs { utxoSet := utxoSet }
  let (merkleRoot, transactions) := st.transactions.generateRootHash C
  let header :=
    { header with
      gasUsed := st.cumulativeGas
      merkleRoot := merkleRoot
      stateRoot := calculateStateRoot C st.utxoSet
      receiptsRoot := calculateReceiptsRoot C st.receipts }
  ({ header := header
     body := { transactions := transactions, receipts := st.receipts }
     cumulativeDifficulty := previousBlock.cumulativeDifficulty + difficulty.toUInt64 }, st.utxoSet)

/-! ## The transactions that are included -/

/-- `UpdateUTXOSet` for each transaction of a list. -/
def applyUTXOs (utxoSet : Store String UTXO) (txs : List Transaction) : Store String UTXO :=
  txs.foldl (fun utxoSet tx => updateUTXOSet tx utxoSet) utxoSet

/-- The transactions that the loop includes, from some gas used and some outputs. -/
def included (gasLimit : UInt64) :
    List Transaction → UInt64 → Store String UTXO → List Transaction :=
  Greedy.takeWithin calculateGas gasLimit
    (fun utxoSet tx => Mempool.validateTransaction (Transaction.verifySignature C) tx utxoSet)
    (fun utxoSet tx => updateUTXOSet tx utxoSet)

/-- The receipts of transactions that are included one after another. -/
def receiptsOf (blockNumber : UInt64) : UInt64 → List Transaction → List TxReceipt
  | _, [] => []
  | cumulativeGas, tx :: txs =>
    receiptOf C blockNumber cumulativeGas tx ::
      receiptsOf blockNumber (cumulativeGas + calculateGas tx) txs

variable {C} {header : BlockHeader}

/-- **The loop is the inclusion of the included transactions.** -/
lemma processTransactions_eq (txs : List Transaction) (st : Assembly) :
    processTransactions C header txs st =
      (included C header.gasLimit txs st.cumulativeGas st.utxoSet).foldl
        (includeTransaction C header.blockNumber) st := by
  induction txs generalizing st with
  | nil => rfl
  | cons tx txs ih =>
    simp only [processTransactions, included, Greedy.takeWithin]
    split_ifs
    · rfl
    · rw [ih, foldl_cons]
      rfl
    · exact ih st

lemma foldl_includeTransaction (blockNumber : UInt64) (txs : List Transaction) (st : Assembly) :
    txs.foldl (includeTransaction C blockNumber) st =
      { transactions := st.transactions.insertBatch C txs
        receipts := st.receipts ++ receiptsOf C blockNumber st.cumulativeGas txs
        cumulativeGas := st.cumulativeGas + (txs.map calculateGas).sum
        utxoSet := applyUTXOs st.utxoSet txs } := by
  induction txs generalizing st with
  | nil =>
    rw [receiptsOf, append_nil, map_nil, sum_nil, add_zero]
    rfl
  | cons tx txs ih =>
    rw [foldl_cons, ih, receiptsOf, map_cons, sum_cons, ← add_assoc]
    simp only [includeTransaction, append_assoc, singleton_append]
    rfl

/-! ## Gas -/

variable {tx : Transaction} {key : String} (blockNumber cumulativeGas : UInt64)

lemma toNat_calculateGas_lt (h : tx.getData.length < 2 ^ 58) :
    (calculateGas tx).toNat < 2 ^ 63 := by
  have hlen : (UInt64.ofNat tx.getData.length).toNat = tx.getData.length :=
    UInt64.toNat_ofNat_of_lt' (h.trans (by decide))
  simp only [calculateGas]
  split_ifs
  · rw [UInt64.toNat_add, UInt64.toNat_add, UInt64.toNat_mul, hlen]
    simp only [UInt64.reduceToNat]
    omega
  · decide

/-! ## Receipts -/

lemma forall₂_receiptsOf (txs : List Transaction) :
    List.Forall₂ (fun receipt tx => receipt.txHash = tx.hash C ∧
        receipt.blockNumber = blockNumber ∧ receipt.gasUsed = calculateGas tx ∧ receipt.status = 1)
      (receiptsOf C blockNumber cumulativeGas txs) txs := by
  induction txs generalizing cumulativeGas with
  | nil => exact List.Forall₂.nil
  | cons tx txs ih => exact List.Forall₂.cons ⟨rfl, rfl, rfl, rfl⟩ (ih _)

lemma map_gasUsed_receiptsOf (txs : List Transaction) :
    (receiptsOf C blockNumber cumulativeGas txs).map (fun receipt => receipt.gasUsed.toNat) =
      txs.map fun tx => (calculateGas tx).toNat := by
  induction txs generalizing cumulativeGas with
  | nil => rfl
  | cons tx txs ih => rw [receiptsOf, map_cons, map_cons, ih, receiptOf]

lemma cumulativeGas_receiptsOf {blockNumber cumulativeGas : UInt64}
    {i : ℕ} {receipt : TxReceipt}
    (h : (receiptsOf C blockNumber cumulativeGas txs)[i]? = some receipt) :
    receipt.cumulativeGas = cumulativeGas + ((txs.take (i + 1)).map calculateGas).sum := by
  induction txs generalizing cumulativeGas i with
  | nil => simp [receiptsOf] at h
  | cons tx txs ih =>
    rw [take_succ_cons, map_cons, sum_cons]
    cases i with
    | zero =>
      obtain rfl : receiptOf C blockNumber cumulativeGas tx = receipt := by
        simpa [receiptsOf] using h
      rw [take_zero, map_nil, sum_nil, add_zero, receiptOf]
    | succ i =>
      rw [ih (i := i) (by simpa [receiptsOf] using h), add_assoc]

/-! ## Outputs are consumed once -/

variable {utxoSet : Store String UTXO}

lemma mem_updateUTXOSet : key ∈ updateUTXOSet tx utxoSet ↔
      key ∈ tx.outputKeys ∨ key ∉ tx.spentKeys ∧ key ∈ utxoSet := by
  rw [updateUTXOSet, KeyedLog.mem_foldl_insert, KeyedLog.mem_foldl_erase,
    ← tx.map_fst_created 0, Transaction.created, map_map]
  rfl

lemma mem_of_mem_inputKeys {verify : Transaction → Bool} (hsys : tx.isSystem = false)
    (h : Mempool.validateTransaction verify tx utxoSet = true)
    (hkey : key ∈ tx.inputKeys) : key ∈ utxoSet := by
  obtain ⟨input, hinput, rfl⟩ := mem_map.mp hkey
  obtain ⟨utxo, hutxo, -⟩ := (Mempool.Accepted.of_validateTransaction hsys h).inputs input hinput
  exact Finmap.mem_of_lookup_eq_some hutxo

section Consumption

variable {verify : Transaction → Bool} {txs : List Transaction} {utxoSet : Store String UTXO}

/-- **What is gone stays gone**: an output that is not there, and that no transaction of a run
creates, is not referred to. -/
lemma notMem_inputKeys_of_along {key : String} (hgone : key ∉ utxoSet)
    (hout : ∀ tx ∈ txs, key ∉ tx.outputKeys)
    (halong : Run.Along (fun utxoSet tx => updateUTXOSet tx utxoSet)
      (fun utxoSet tx => Mempool.validateTransaction verify tx utxoSet = true) utxoSet txs) :
    ∀ tx ∈ txs, tx.isSystem = false → key ∉ tx.inputKeys := by
  induction txs generalizing utxoSet with
  | nil => exact fun tx htx => absurd htx not_mem_nil
  | cons first txs ih =>
    rw [forall_mem_cons] at hout ⊢
    refine ⟨fun hsys hkey => hgone (mem_of_mem_inputKeys hsys halong.1 hkey), ?_⟩
    refine ih ?_ hout.2 halong.2
    rw [mem_updateUTXOSet]
    rintro (hcreated | ⟨-, hthere⟩)
    · exact hout.1 hcreated
    · exact hgone hthere

lemma fresh_updateUTXOSet {first : Transaction}
    (hids : ((first :: txs).map Transaction.transactionID).Nodup)
    (hfresh : ∀ tx ∈ first :: txs, ∀ i : ℕ, utxoKey tx.transactionID i ∉ utxoSet) :
    ∀ tx ∈ txs, ∀ i : ℕ, utxoKey tx.transactionID i ∉ updateUTXOSet first utxoSet := by
  intro tx htx i hmem
  rcases mem_updateUTXOSet.mp hmem with hcreated | ⟨-, hthere⟩
  · obtain ⟨j, -, hkey⟩ := mem_map.mp hcreated
    have hid := (utxoKey_natCast_inj hkey).1
    rw [map_cons, nodup_cons] at hids
    exact hids.1 (hid ▸ mem_map_of_mem htx)
  · exact hfresh tx (mem_cons_of_mem first htx) i hthere

/-- **No output is consumed twice.** If the transactions of a run have distinct identifiers and
none of their outputs is there at the start, then no two of them refer to the same output. -/
lemma pairwise_disjoint_inputKeys (hids : (txs.map Transaction.transactionID).Nodup)
    (hfresh : ∀ tx ∈ txs, ∀ i : ℕ, utxoKey tx.transactionID i ∉ utxoSet)
    (halong : Run.Along (fun utxoSet tx => updateUTXOSet tx utxoSet)
      (fun utxoSet tx => Mempool.validateTransaction verify tx utxoSet = true) utxoSet txs) :
    (regular txs).Pairwise fun s t => List.Disjoint s.inputKeys t.inputKeys := by
  induction txs generalizing utxoSet with
  | nil => exact List.Pairwise.nil
  | cons first txs ih =>
    have hrest := ih (nodup_cons.mp hids).2 (fresh_updateUTXOSet hids hfresh) halong.2
    cases hsys : first.isSystem with
    | true => rwa [regular_cons_of_isSystem hsys]
    | false =>
      rw [regular, filter_cons_of_pos (by simp [hsys]), pairwise_cons]
      refine ⟨fun t ht key hfirst => ?_, hrest⟩
      have hthere : key ∈ utxoSet := mem_of_mem_inputKeys hsys halong.1 hfirst
      have hout : ∀ tx ∈ first :: txs, key ∉ tx.outputKeys := by
        intro tx htx hkey
        obtain ⟨i, -, rfl⟩ := mem_map.mp hkey
        exact hfresh tx htx i hthere
      rw [forall_mem_cons] at hout
      have hgone : key ∉ updateUTXOSet first utxoSet := by
        rw [mem_updateUTXOSet, Transaction.spentKeys, hsys]
        rintro (hcreated | ⟨hkept, -⟩)
        · exact hout.1 hcreated
        · exact hkept hfirst
      obtain ⟨htxs, htsys⟩ := mem_filter.mp ht
      exact notMem_inputKeys_of_along hgone hout.2 halong.2 t htxs (by simpa using htsys)

end Consumption

end Loop

/-! ## The block -/

/-- The transactions that `NewBlock` includes. -/
def Block.newBlockIncludes (C : Crypto) (mempool : Mempool) (utxoSet : Store String UTXO)
    (clock : Mempool.SortClock) : List Transaction :=
  included C baseGasLimit (mempool.getPrioritizedTransactions clock
    (calculateDynamicBlockSize mempool.transactions.length)) 0 utxoSet

section NewBlock

variable (C : Crypto) (mempool : Mempool) (utxoSet : Store String UTXO) (clock : Mempool.SortClock)

lemma Block.newBlockIncludes_subperm :
    (Block.newBlockIncludes C mempool utxoSet clock).Subperm mempool.transactions :=
  (Greedy.takeWithin_sublist _ _ _).subperm.trans
    (mempool.getPrioritizedTransactions_subperm clock _)

lemma Block.newBlockIncludes_eq_nil (h : ∀ tx ∈ mempool.transactions,
    Mempool.validateTransaction (Transaction.verifySignature C) tx utxoSet = false) :
    Block.newBlockIncludes C mempool utxoSet clock = [] :=
  Greedy.takeWithin_eq_nil
    (fun tx htx => h tx ((mempool.getPrioritizedTransactions_subperm clock _).subset htx)) 0

/-- If every waiting transaction is tried and none is included, none is valid. -/
lemma Block.validateTransaction_eq_false_of_newBlockIncludes_eq_nil
    (hsize : mempool.transactions.length ≤ 1024 * 1024)
    (hgas : ∀ tx ∈ mempool.transactions, calculateGas tx ≤ baseGasLimit)
    (h : Block.newBlockIncludes C mempool utxoSet clock = []) : ∀ tx ∈ mempool.transactions,
      Mempool.validateTransaction (Transaction.verifySignature C) tx utxoSet = false := by
  have hlimit : mempool.transactions.length ≤
      calculateDynamicBlockSize mempool.transactions.length := by
    rw [calculateDynamicBlockSize]
    omega
  have hall := Greedy.allowed_eq_false_of_takeWithin_eq_nil (fun tx htx => ?_) h
  · exact fun tx htx => hall tx ((Mempool.mem_getPrioritizedTransactions hlimit clock).mpr htx)
  · rw [zero_add, gt_iff_lt, UInt64.not_lt]
    exact hgas tx ((Mempool.mem_getPrioritizedTransactions hlimit clock).mp htx)

/-- **An output that was not there is there** after transactions have been applied, the last of
which creates it. -/
lemma applyUTXOs_ne (hne : txs ≠ [])
    (houtputs : ∀ tx ∈ txs, tx.outputs ≠ [])
    (hfresh : ∀ tx ∈ txs, utxoKey tx.transactionID 0 ∉ utxoSet) :
    applyUTXOs utxoSet txs ≠ utxoSet := by
  obtain ⟨front, last, rfl⟩ := (eq_nil_or_concat' txs).resolve_left hne
  intro hsame
  refine hfresh last (by simp) ?_
  rw [← hsame, applyUTXOs, foldl_append, foldl_cons, foldl_nil, mem_updateUTXOSet]
  refine .inl (mem_map.mpr ⟨0, ?_, rfl⟩)
  rw [mem_range]
  exact length_pos_iff.mpr (houtputs last (by simp))

lemma processTransactions_newBlock {header : BlockHeader}
    (hlimit : header.gasLimit = baseGasLimit) :
    processTransactions C header (mempool.getPrioritizedTransactions clock
        (calculateDynamicBlockSize mempool.transactions.length)) { utxoSet := utxoSet } =
      let txs := Block.newBlockIncludes C mempool utxoSet clock
      { transactions := PatriciaTrie.new.insertBatch C txs
        receipts := receiptsOf C header.blockNumber 0 txs
        cumulativeGas := (txs.map calculateGas).sum
        utxoSet := applyUTXOs utxoSet txs } := by
  rw [processTransactions_eq, foldl_includeTransaction, hlimit]
  simp only [nil_append, zero_add]
  rfl

lemma Block.newBlock_eq (previousBlock : Block) (difficulty : UInt32) (validator : String)
    (timestamp : ℤ) :
    let result :=
      Block.newBlock C previousBlock mempool utxoSet difficulty validator timestamp clock
    let txs := Block.newBlockIncludes C mempool utxoSet clock
    result.1.transactions = (PatriciaTrie.new.insertBatch C txs).getAllTransactions ∧
      result.1.body.receipts = receiptsOf C result.1.header.blockNumber 0 txs ∧
      result.1.header.gasUsed = (txs.map calculateGas).sum ∧
      result.1.header.gasLimit = baseGasLimit ∧
      result.2 = applyUTXOs utxoSet txs := by
  simp only [Block.newBlock, processTransactions_newBlock, Block.transactions,
    PatriciaTrie.getAllTransactions_generateRootHash, and_self]

variable {C mempool}

lemma sum_calculateGas_newBlockIncludes_le
    (hdata : ∀ tx ∈ mempool.transactions, tx.getData.length < 2 ^ 58) :
    ((Block.newBlockIncludes C mempool utxoSet clock).map fun tx => (calculateGas tx).toNat).sum ≤
      baseGasLimit.toNat := by
  have hcost : ∀ tx ∈ mempool.getPrioritizedTransactions clock
      (calculateDynamicBlockSize mempool.transactions.length),
      baseGasLimit.toNat + (calculateGas tx).toNat < 2 ^ 64 := by
    intro tx htx
    have hgas := toNat_calculateGas_lt
      (hdata tx ((mempool.getPrioritizedTransactions_subperm clock _).subset htx))
    have hlimit : baseGasLimit.toNat = 15000000 := rfl
    omega
  have hsum : (0 : UInt64).toNat + ((Block.newBlockIncludes C mempool utxoSet clock).map fun tx =>
      (calculateGas tx).toNat).sum ≤ baseGasLimit.toNat :=
    Greedy.sum_takeWithin_le hcost (by decide) utxoSet
  rwa [UInt64.toNat_zero, zero_add] at hsum

section Distinct
variable (hids : (mempool.transactions.map Transaction.transactionID).Nodup)
include hids

lemma nodup_transactionID_newBlockIncludes :
    ((Block.newBlockIncludes C mempool utxoSet clock).map Transaction.transactionID).Nodup := by
  obtain ⟨l, hperm, hsub⟩ := Block.newBlockIncludes_subperm C mempool utxoSet clock
  exact (hperm.map _).nodup_iff.mp ((hsub.map _).nodup hids)

lemma nodup_path_newBlockIncludes
    (hsha : ∀ s ∈ mempool.transactions, ∀ t ∈ mempool.transactions,
      C.sha256 (Text.bytes s.transactionID) = C.sha256 (Text.bytes t.transactionID) →
        s.transactionID = t.transactionID) :
    ((Block.newBlockIncludes C mempool utxoSet clock).map (PatriciaTrie.path C)).Nodup := by
  have hsub := (Block.newBlockIncludes_subperm C mempool utxoSet clock).subset
  have hnodup := nodup_transactionID_newBlockIncludes (C := C) utxoSet clock hids
  refine List.Nodup.map_on (fun s hs t ht hpath => ?_) (hnodup.of_map _)
  have hid := hsha s (hsub hs) t (hsub ht) (Subtype.ext hpath)
  exact inj_on_of_nodup_map hnodup hs ht hid

lemma disjoint_inputKeys_newBlockIncludes
    (hfresh : ∀ tx ∈ mempool.transactions, ∀ i : ℕ, utxoKey tx.transactionID i ∉ utxoSet) :
    ∀ s ∈ Block.newBlockIncludes C mempool utxoSet clock,
      ∀ t ∈ Block.newBlockIncludes C mempool utxoSet clock, s ≠ t → s.isSystem = false →
        t.isSystem = false → List.Disjoint s.inputKeys t.inputKeys := by
  have hsub := (Block.newBlockIncludes_subperm C mempool utxoSet clock).subset
  have hpairwise := pairwise_disjoint_inputKeys
    (nodup_transactionID_newBlockIncludes (C := C) utxoSet clock hids)
    (fun tx htx => hfresh tx (hsub htx)) (Greedy.along_takeWithin _ _ _)
  have : Std.Symm fun s t : Transaction => List.Disjoint s.inputKeys t.inputKeys :=
    ⟨fun _ _ h => List.Disjoint.symm h⟩
  intro s hs t ht hne hsys htsys
  exact hpairwise.forall (mem_filter.mpr ⟨hs, by simp [hsys]⟩)
    (mem_filter.mpr ⟨ht, by simp [htsys]⟩) hne

end Distinct

end NewBlock

/-- **A block is assembled within its gas limit and from unspent outputs.** For a mempool whose
transactions have distinct identifiers and digests, have no output in the map and are short: the
block has some of them; the receipts are theirs, with the gas used up to each; the sum is within the
limit; the map is the one after their application; and no two of them, other than rewards, refer to
the same output.

**Proof sketch.** The loop is the inclusion of a run of transactions that are valid where they are
applied. The gas never wraps because the limit and each summand are small, and a consumed output
cannot come back because no later transaction creates it. -/
theorem Block.newBlock_assembles (C : Crypto) (previousBlock : Block) (mempool : Mempool)
    (utxoSet : Store String UTXO) (difficulty : UInt32) (validator : String) (timestamp : ℤ)
    (clock : Mempool.SortClock) (hids : (mempool.transactions.map Transaction.transactionID).Nodup)
    (hsha : ∀ s ∈ mempool.transactions, ∀ t ∈ mempool.transactions,
      C.sha256 (Text.bytes s.transactionID) = C.sha256 (Text.bytes t.transactionID) →
        s.transactionID = t.transactionID)
    (hfresh : ∀ tx ∈ mempool.transactions, ∀ i : ℕ, utxoKey tx.transactionID i ∉ utxoSet)
    (hdata : ∀ tx ∈ mempool.transactions, tx.getData.length < 2 ^ 58) :
    let result :=
      Block.newBlock C previousBlock mempool utxoSet difficulty validator timestamp clock
    let block := result.1
    let receipts := block.body.receipts
    ∃ txs : List Transaction, txs.Subperm mempool.transactions ∧ block.transactions.Perm txs ∧
      List.Forall₂ (fun receipt tx => receipt.txHash = tx.hash C ∧
        receipt.blockNumber = block.header.blockNumber ∧ receipt.gasUsed = calculateGas tx ∧
        receipt.status = 1) receipts txs ∧
      block.header.gasUsed.toNat = (receipts.map fun receipt => receipt.gasUsed.toNat).sum ∧
      block.header.gasUsed ≤ block.header.gasLimit ∧
      (∀ i receipt, receipts[i]? = some receipt → receipt.cumulativeGas.toNat =
        ((receipts.take (i + 1)).map fun receipt => receipt.gasUsed.toNat).sum) ∧
      result.2 = txs.foldl (fun utxoSet tx => updateUTXOSet tx utxoSet) utxoSet ∧
      ∀ s ∈ txs, ∀ t ∈ txs, s ≠ t → s.isSystem = false → t.isSystem = false →
        List.Disjoint s.inputKeys t.inputKeys := by
  obtain ⟨htrie, hreceipts, hused, hlimit, hafter⟩ := Block.newBlock_eq C mempool utxoSet clock
    previousBlock difficulty validator timestamp
  have hbound := sum_calculateGas_newBlockIncludes_le (C := C) utxoSet clock hdata
  have hnodup := nodup_path_newBlockIncludes utxoSet clock hids hsha
  simp only
  refine ⟨Block.newBlockIncludes C mempool utxoSet clock,
    Block.newBlockIncludes_subperm C mempool utxoSet clock, ?_, ?_, ?_, ?_, ?_, hafter,
    disjoint_inputKeys_newBlockIncludes utxoSet clock hids hfresh⟩
  · rw [htrie]
    exact PatriciaTrie.perm_insertBatch hnodup
  · rw [hreceipts]
    exact forall₂_receiptsOf _ 0 _
  · rw [hreceipts, hused, map_gasUsed_receiptsOf]
    exact CumulativeWalk.toNat_sum_map (lt_of_le_of_lt hbound (by decide))
  · rw [hused, hlimit, UInt64.le_iff_toNat_le,
      CumulativeWalk.toNat_sum_map (lt_of_le_of_lt hbound (by decide))]
    exact hbound
  · intro i receipt hreceipt
    rw [hreceipts] at hreceipt ⊢
    rw [map_take, map_gasUsed_receiptsOf, ← map_take, cumulativeGas_receiptsOf hreceipt, zero_add]
    have hfront := (((take_sublist (i + 1) (Block.newBlockIncludes C mempool utxoSet clock)).map
      fun tx => (calculateGas tx).toNat).sum_le_sum fun _ _ => Nat.zero_le _).trans hbound
    exact CumulativeWalk.toNat_sum_map (lt_of_le_of_lt hfront (by decide))

def twoPayments : Mempool where
  transactions := [spendGenesis "a" 0 5, spendGenesis "b" 1 6]

lemma fresh_twoPayments : ∀ tx ∈ twoPayments.transactions, ∀ i : ℕ,
    utxoKey tx.transactionID i ∉ genesisOutputs := by
  have hids : ∀ tx ∈ twoPayments.transactions, tx.transactionID ≠ "genesis" := by decide
  intro tx htx i hmem
  simp only [genesisOutputs, Finmap.mem_insert, Finmap.mem_singleton] at hmem
  rcases hmem with hkey | hkey
  · exact hids tx htx (utxoKey_natCast_inj (j := 1) hkey).1
  · exact hids tx htx (utxoKey_natCast_inj (j := 0) hkey).1

theorem Block.newBlock_assembles_twoPayments :
    let block := (Block.newBlock Crypto.sample {} twoPayments genesisOutputs 1 "alice" 0
      fun _ _ => (0, 0)).1
    block.body.receipts.length = 2 ∧ block.header.gasUsed ≤ block.header.gasLimit ∧
      block.header.gasUsed.toNat =
        (block.body.receipts.map fun receipt => receipt.gasUsed.toNat).sum := by
  obtain ⟨txs, -, -, -, hsum, hle, -⟩ := Block.newBlock_assembles Crypto.sample {} twoPayments
    genesisOutputs 1 "alice" 0 (fun _ _ => (0, 0)) (by decide) (by decide +kernel)
    fresh_twoPayments (by decide +kernel)
  exact ⟨by decide +kernel, hle, hsum⟩

end HybridChain
