import HybridChain.Lib.Run
import HybridChain.Node

/-!
# Transactions from peers

The three ways in which transactions of peers reach the mempool: `handleTransactionStream` and
`handleNewTransaction` of `p2p.go`, and the merge of `Mempool.SyncWithPeer`.

A node without mempool or pool crashes where it reads them; here it stays as it was. Decoding of the
binary form of a transaction is a parameter.

## Main definitions

* `handleTransactionStream`, `handleNewTransaction`, `Mempool.syncWithPeer`
* `SystemFree`: no coinbase or reward is waiting

## Main results

* `system_free_forever_iff`: when system transactions are kept out
-/

namespace HybridChain

open KeyedLog (Store)

/-! ## The checks -/

namespace UTXOPool

/-- The loop of `ValidateTransaction` over the inputs. Spent outputs count. -/
def sumInputs (utxos : Store String UTXO) (sender : String) : List TransactionInput → ℚ → Option ℚ
  | [], totalInput => some totalInput
  | input :: inputs, totalInput =>
    match utxos.lookup input.key with
    | none => none
    | some utxo =>
      if utxo.owner ≠ sender then none
      else sumInputs utxos sender inputs (totalInput + utxo.amount)

def validateTransaction (pool : UTXOPool) (tx : Transaction) : Bool :=
  match sumInputs pool.utxos tx.sender tx.inputs 0 with
  | none => false
  | some totalInput => totalInput ≥ tx.amount

end UTXOPool

namespace Node

def pool (n : Node) : Option UTXOPool :=
  match n.utxoPool with
  | .none => none
  | .shared => n.blockchain.utxoPool
  | .own pool => some pool

def withMempool (n : Node) (m : Mempool) : Node :=
  { n with blockchain := { n.blockchain with mempool := some m } }

/-- `Node.validateTransaction`, on the mempool and the pool of the node. -/
def validateTransaction (C : Crypto) (m : Mempool) (pool : UTXOPool) (tx : Transaction) : Bool :=
  if tx.isCoinbase || tx.isValidatorReward then true
  else if m.transactions.any fun memTx => memTx.transactionID == tx.transactionID then false
  else if ¬ tx.verifySignature C then false
  else pool.validateTransaction tx

/-- `processTransaction`. A refusal by the mempool costs the peer nothing. -/
def processTransaction (C : Crypto) (n : Node) (peer : String) (tx : Transaction) : Node :=
  match n.blockchain.mempool, n.pool with
  | some m, some pool =>
    if ¬ validateTransaction C m pool tx then n.updatePeerScore peer (-2)
    else
      let (added, m) := m.addTransaction (Transaction.verifySignature C) tx pool.utxos
      if added then (n.withMempool m).updatePeerScore peer 1 else n.withMempool m
  | _, _ => n

end Node

/-! ## The handlers -/

structure Message where
  type : String := ""
  payload : Json := .null

/-- The types of message that carry a transaction. -/
def Message.isNewTransaction (msg : Message) : Bool :=
  msg.type = "NewTransaction" ∨ msg.type = "NEW_TRANSACTION"

/-- The transaction of a payload: a string holds the binary form in base 64, which
`DeserializeTransaction` reads, any other value is read as a record. Line ends in the string are
skipped. -/
def decodePayload (deserializeTransaction : List UInt8 → Option Transaction) :
    Json → Option Transaction
  | .str encoded =>
    (Base64.decode (encoded.toList.filter fun c => c ≠ '\r' ∧ c ≠ '\n')).bind deserializeTransaction
  | payload => Transaction.codec.decode payload

/-- One turn of the merge in `SyncWithPeer`. -/
def Mempool.mergeTransaction (m : Mempool) (peerTx : Transaction) : Mempool :=
  if m.transactions.any fun localTx => localTx.transactionID == peerTx.transactionID then m
  else { m with transactions := m.transactions ++ [peerTx] }

/-- The merge in `SyncWithPeer`. Nothing is validated, and the size of the mempool is not
looked at. -/
def Mempool.syncWithPeer (m : Mempool) (peerTransactions : List Transaction) : Mempool :=
  peerTransactions.foldl mergeTransaction m

namespace Node

/-- `handleTransactionStream`. Text that is not a message gives no data. A request for the
transactions of the mempool changes nothing, nor does a message of an unknown type. -/
def handleTransactionStream (C : Crypto)
    (deserializeTransaction : List UInt8 → Option Transaction) (n : Node) (peer : String)
    (data : Option Message) : Node :=
  match data with
  | none => (n.handleStreamError peer "error decoding transaction message").1
  | some msg =>
    if msg.isNewTransaction then
      match decodePayload deserializeTransaction msg.payload with
      | none => n.updatePeerScore peer (-1)
      | some tx => n.processTransaction C peer tx
    else n

/-- `handleNewTransaction`. The broadcast to other peers does not change the node. -/
def handleNewTransaction (C : Crypto) (n : Node) (payload : Json) : Node :=
  match Transaction.codec.decode payload with
  | none => n
  | some tx =>
    if tx.isCoinbase || tx.isValidatorReward then n
    else
      match n.blockchain.mempool, n.pool with
      | some m, some pool =>
        if ¬ pool.validateTransaction tx then n
        else n.withMempool (m.addTransaction (Transaction.verifySignature C) tx pool.utxos).2
      | _, _ => n

end Node

/-- What a peer can send: a transaction on its own stream, one in a message of the general
protocol, and its mempool as the answer to a request, if the answer can be read. -/
inductive PeerMessage where
  | transactionStream (peer : String) (data : Option Message)
  | newTransaction (payload : Json)
  | mempoolSync (peerTransactions : Option (List Transaction))

def Node.receive (C : Crypto) (deserializeTransaction : List UInt8 → Option Transaction)
    (n : Node) : PeerMessage → Node
  | .transactionStream peer data =>
    n.handleTransactionStream C deserializeTransaction peer data
  | .newTransaction payload => n.handleNewTransaction C payload
  | .mempoolSync peerTransactions =>
    match n.blockchain.mempool, peerTransactions with
    | some m, some txs => n.withMempool (m.syncWithPeer txs)
    | _, _ => n

/-! ## When the mempool keeps system transactions out -/

namespace Mempool

variable {m : Mempool} {tx : Transaction}

/-- No coinbase and no validator reward is waiting. -/
def SystemFree (m : Mempool) : Prop := ∀ tx ∈ m.transactions, tx.isSystem = false

def ids (m : Mempool) : Finset String := (m.transactions.map Transaction.transactionID).toFinset

lemma mem_ids {id : String} : id ∈ m.ids ↔ ∃ t ∈ m.transactions, t.transactionID = id := by
  simp [ids]

lemma any_transactionID_iff :
    (m.transactions.any fun t => t.transactionID == tx.transactionID) = true ↔
      tx.transactionID ∈ m.ids := by
  simp [mem_ids]

/-- What turns away a transaction that is not validated: its identifier is known, or the mempool is
full and no waiting transaction has a lower fee. -/
def Refuses (m : Mempool) (tx : Transaction) : Prop := tx.transactionID ∈ m.ids ∨
    (m.maxSize ≤ m.transactions.length ∧ ∀ t ∈ m.transactions, tx.gasFee ≤ t.gasFee)

variable (verify : Transaction → Bool) (utxoSet : Store String UTXO)

lemma mem_addTransaction_of_isSystem (hsys : tx.isSystem = true) (hm : ¬ m.Refuses tx) :
    tx ∈ (m.addTransaction verify tx utxoSet).2.transactions := by
  obtain ⟨hnew, hroom⟩ := not_or.mp hm
  have hval : validateTransaction verify tx utxoSet = true := if_pos hsys
  have hout := outcome_addTransaction verify m tx utxoSet
  generalize m.addTransaction verify tx utxoSet = result at hout
  cases hout with
  | refused hno => exact absurd ⟨fun t ht heq => hnew (mem_ids.mpr ⟨t, ht, heq⟩), hval⟩ hno
  | sizeless hfull hnil => exact absurd ⟨hfull, by simp [hnil]⟩ hroom
  | outbid hfull others lowest hsorted hfee =>
    exact absurd ⟨hfull, fun t ht => hfee.trans (le_of_sortByGasFee_eq hsorted t ht)⟩ hroom
  | added | replaced => exact (sortByGasFee_perm _).mem_iff.mpr (by simp)

lemma addTransaction_perm_of_refuses (hm : m.Refuses tx) :
    (m.addTransaction verify tx utxoSet).2.transactions.Perm m.transactions := by
  have hout := outcome_addTransaction verify m tx utxoSet
  generalize m.addTransaction verify tx utxoSet = result at hout
  have hfull : (∀ t ∈ m.transactions, t.transactionID ≠ tx.transactionID) →
      m.maxSize ≤ m.transactions.length ∧ ∀ t ∈ m.transactions, tx.gasFee ≤ t.gasFee := by
    refine fun hnew => hm.resolve_left fun hknown => ?_
    obtain ⟨t, ht, heq⟩ := mem_ids.mp hknown
    exact hnew t ht heq
  cases hout with
  | refused | sizeless => exact .refl _
  | outbid => exact sortByGasFee_perm _
  | added hnew hval hroom => exact absurd hroom (not_lt.mpr (hfull hnew).1)
  | replaced hnew hval _ others lowest hsorted hfee =>
    have hmem : lowest ∈ m.transactions := (sortByGasFee_perm _).mem_iff.mp (by rw [hsorted]; simp)
    exact absurd hfee (not_lt.mpr ((hfull hnew).2 lowest hmem))

/-- **Admission** keeps system transactions out exactly when it is given none, or refuses it. -/
theorem systemFree_addTransaction_iff (tx : Transaction)
    (utxoSet : Store String UTXO) (hm : m.SystemFree) :
    (m.addTransaction verify tx utxoSet).2.SystemFree ↔ (tx.isSystem = true → m.Refuses tx) := by
  constructor
  · intro hfree hsys
    by_contra hno
    have hmem := mem_addTransaction_of_isSystem verify utxoSet hsys hno
    simp [hfree tx hmem] at hsys
  · intro h t ht
    cases hsys : tx.isSystem with
    | true => exact hm t ((addTransaction_perm_of_refuses verify utxoSet (h hsys)).mem_iff.mp ht)
    | false =>
      rcases addTransaction_cases verify m tx utxoSet with hperm | ⟨hsub, -, -⟩
      · exact hm t (hperm.mem_iff.mp ht)
      · rcases List.mem_cons.mp (hsub.subset ht) with rfl | ht
        · exact hsys
        · exact hm t ht

/-! ### The merge -/

/-- The system transactions of a list repeat an identifier that is known already, or that stands
earlier in the list. -/
def SystemRepeats : Finset String → List Transaction → Prop
  | _, [] => True
  | known, tx :: txs =>
    (tx.isSystem = true → tx.transactionID ∈ known) ∧
      SystemRepeats (insert tx.transactionID known) txs

lemma ids_mergeTransaction (m : Mempool) (tx : Transaction) :
    (m.mergeTransaction tx).ids = insert tx.transactionID m.ids := by
  unfold mergeTransaction
  by_cases hknown : tx.transactionID ∈ m.ids
  · rw [if_pos (any_transactionID_iff.mpr hknown), Finset.insert_eq_self.mpr hknown]
  · rw [if_neg (mt any_transactionID_iff.mp hknown)]
    ext id
    simp [ids]

lemma subset_mergeTransaction (m : Mempool) (tx : Transaction) :
    m.transactions ⊆ (m.mergeTransaction tx).transactions := by
  unfold mergeTransaction
  split_ifs
  · exact List.Subset.refl _
  · exact List.subset_append_left _ _

lemma subset_syncWithPeer (txs : List Transaction) (m : Mempool) :
    m.transactions ⊆ (m.syncWithPeer txs).transactions := by
  induction txs generalizing m with
  | nil => exact List.Subset.refl _
  | cons tx txs ih =>
    intro t ht
    exact ih (m.mergeTransaction tx) (subset_mergeTransaction m tx ht)

lemma systemFree_mergeTransaction_iff (tx : Transaction) (hm : m.SystemFree) :
    (m.mergeTransaction tx).SystemFree ↔ (tx.isSystem = true → tx.transactionID ∈ m.ids) := by
  unfold mergeTransaction
  by_cases hknown : tx.transactionID ∈ m.ids
  · rw [if_pos (any_transactionID_iff.mpr hknown)]
    exact iff_of_true hm fun _ => hknown
  · rw [if_neg (mt any_transactionID_iff.mp hknown)]
    have happend : SystemFree { m with transactions := m.transactions ++ [tx] } ↔
        tx.isSystem = false := by
      simp only [SystemFree, List.forall_mem_append, List.forall_mem_singleton]
      exact and_iff_right hm
    rw [happend, ← Bool.not_eq_true]
    exact ⟨fun hno hsys => absurd hsys hno, fun h hsys => hknown (h hsys)⟩

/-- **A merge** keeps system transactions out exactly when those of the peer repeat identifiers.

**Proof sketch.** Induction on the list. The first turn has to keep system transactions out; the
identifiers known to the rest are then those of the mempool and that of the first transaction. -/
theorem systemFree_syncWithPeer_iff {txs : List Transaction} (hm : m.SystemFree) :
    (m.syncWithPeer txs).SystemFree ↔ SystemRepeats m.ids txs := by
  induction txs generalizing m with
  | nil => exact iff_of_true hm trivial
  | cons tx txs ih =>
    have hstep := systemFree_mergeTransaction_iff tx hm
    change ((m.mergeTransaction tx).syncWithPeer txs).SystemFree ↔ _ ∧ _
    rw [← ids_mergeTransaction, ← hstep]
    constructor
    · intro h
      have hfirst : (m.mergeTransaction tx).SystemFree :=
        fun t ht => h t (subset_syncWithPeer txs _ ht)
      exact ⟨hfirst, (ih hfirst).mp h⟩
    · rintro ⟨hfirst, hrest⟩
      exact (ih hfirst).mpr hrest

end Mempool

/-! ## When a node keeps system transactions out -/

namespace Node

variable {n : Node}

/-- No coinbase and no validator reward waits in the mempool of the node. -/
def SystemFree (n : Node) : Prop := ∀ m ∈ n.blockchain.mempool, m.SystemFree

/-- What a message has to be for a node to keep system transactions out. Only
`handleNewTransaction` turns them away: those from a stream have to be refused by the mempool, and
those of a merge have to repeat identifiers. -/
def KeepsOut (deserializeTransaction : List UInt8 → Option Transaction) (n : Node) :
    PeerMessage → Prop
  | .transactionStream _ data =>
    ∀ msg ∈ data, msg.isNewTransaction →
      ∀ tx ∈ decodePayload deserializeTransaction msg.payload, tx.isSystem = true →
        n.pool.isSome → ∀ m ∈ n.blockchain.mempool, m.Refuses tx
  | .newTransaction _ => True
  | .mempoolSync peerTransactions =>
    ∀ txs ∈ peerTransactions, ∀ m ∈ n.blockchain.mempool, Mempool.SystemRepeats m.ids txs

variable (C : Crypto) (peer : String)

@[simp] lemma systemFree_updatePeerScore (delta : ℤ) :
    (n.updatePeerScore peer delta).SystemFree ↔ n.SystemFree := by
  rw [SystemFree, (n.updatePeerScore_fst peer delta).1, SystemFree]

@[simp] lemma systemFree_withMempool (m : Mempool) :
    (n.withMempool m).SystemFree ↔ m.SystemFree := by
  simp [SystemFree, withMempool]

lemma systemFree_processTransaction_iff {tx : Transaction} (hn : n.SystemFree) :
    (n.processTransaction C peer tx).SystemFree ↔
      (tx.isSystem = true → n.pool.isSome → ∀ m ∈ n.blockchain.mempool, m.Refuses tx) := by
  unfold processTransaction
  cases hm : n.blockchain.mempool with
  | none => simpa using hn
  | some m =>
    cases hpool : n.pool with
    | none => simpa using hn
    | some pool =>
      have hfree : m.SystemFree := hn m hm
      have hadd := Mempool.systemFree_addTransaction_iff (Transaction.verifySignature C) tx
        pool.utxos hfree
      by_cases hval : validateTransaction C m pool tx = true
      · simp only [hval, not_true_eq_false, if_false]
        cases hadded : (m.addTransaction (Transaction.verifySignature C) tx pool.utxos).1 <;>
          simpa [hadded] using hadd
      · -- a transaction that fails this check is no system transaction
        have hsys : ¬ tx.isSystem = true := fun h => hval (if_pos h)
        simpa [hval, hsys] using hn

lemma systemFree_handleNewTransaction (payload : Json) (hn : n.SystemFree) :
    (n.handleNewTransaction C payload).SystemFree := by
  unfold handleNewTransaction
  cases Transaction.codec.decode payload with
  | none => exact hn
  | some tx =>
    change (if tx.isSystem = true then _ else _ : Node).SystemFree
    by_cases hsys : tx.isSystem = true
    · rw [if_pos hsys]
      exact hn
    rw [if_neg hsys]
    cases hm : n.blockchain.mempool with
    | none => exact hn
    | some m =>
      cases n.pool with
      | none => exact hn
      | some pool =>
        have hadd := Mempool.systemFree_addTransaction_iff (Transaction.verifySignature C) tx
          pool.utxos (hn m hm)
        dsimp only
        split_ifs
        · exact (systemFree_withMempool _).mpr (hadd.mpr fun h => absurd h hsys)
        · exact hn

/-- **A message** leaves the mempool without system transactions exactly when the node keeps out
what it carries. -/
theorem systemFree_receive_iff
    (deserializeTransaction : List UInt8 → Option Transaction) (msg : PeerMessage)
    (hn : n.SystemFree) : (n.receive C deserializeTransaction msg).SystemFree ↔
      n.KeepsOut deserializeTransaction msg := by
  cases msg with
  | transactionStream peer data =>
    simp only [receive, handleTransactionStream, KeepsOut]
    cases data with
    | none => simpa [handleStreamError] using hn
    | some msg =>
      by_cases htype : msg.isNewTransaction = true
      · cases htx : decodePayload deserializeTransaction msg.payload with
        | none => simpa [htype, htx] using hn
        | some tx => simpa [htype, htx] using systemFree_processTransaction_iff C peer hn
      · simpa [htype] using hn
  | newTransaction payload =>
    exact iff_of_true (systemFree_handleNewTransaction C payload hn) trivial
  | mempoolSync peerTransactions =>
    simp only [receive, KeepsOut]
    cases hm : n.blockchain.mempool with
    | none => simpa using hn
    | some m =>
      cases peerTransactions with
      | none => simpa using hn
      | some txs => simpa using Mempool.systemFree_syncWithPeer_iff (hn m hm)

end Node

/-! ## Sequences of messages -/

/-- **System transactions stay out of the mempool** over a sequence of messages exactly when the
node keeps out what each message carries. -/
theorem system_free_forever_iff (C : Crypto)
    (deserializeTransaction : List UInt8 → Option Transaction) (n : Node)
    (msgs : List PeerMessage) (hn : n.SystemFree) :
    (∀ s ∈ List.scanl (Node.receive C deserializeTransaction) n msgs, s.SystemFree) ↔
      Run.Along (Node.receive C deserializeTransaction)
        (Node.KeepsOut deserializeTransaction) n msgs :=
  Run.forall_mem_scanl_iff
    (fun _ msg hs _ => Node.systemFree_receive_iff C deserializeTransaction msg hs) hn
    (Run.along_true n msgs)

def madeUpCoinbase : Transaction :=
  { transactionID := "made-up"
    sender := "coinbase"
    receiver := "peer"
    amount := 1000000
    outputs := [⟨"peer", 1000000, ""⟩]
    txType := TX_COINBASE }

def emptyNode : Node := { blockchain := { utxoPool := some {}, mempool := some {} } }

lemma systemFree_emptyNode : emptyNode.SystemFree := by
  simp [emptyNode, Node.SystemFree, Mempool.SystemFree]

theorem system_free_forever_harmless : emptyNode.SystemFree ∧
      ∀ s ∈ List.scanl (Node.receive Crypto.sample fun _ => none) emptyNode
        [.newTransaction (Transaction.codec.encode madeUpCoinbase), .transactionStream "peer" none,
          .mempoolSync (some [])], s.SystemFree := by
  refine ⟨systemFree_emptyNode,
    (system_free_forever_iff _ _ _ _ systemFree_emptyNode).mpr ⟨trivial, ?_, ?_, trivial⟩⟩
  · simp [Node.KeepsOut]
  · simp [Node.KeepsOut, Mempool.SystemRepeats]

lemma keepsOut_of_scanl {C : Crypto} {deserializeTransaction : List UInt8 → Option Transaction}
    {n : Node} {msg : PeerMessage} (hn : n.SystemFree)
    (h : ∀ s ∈ List.scanl (Node.receive C deserializeTransaction) n [msg], s.SystemFree) :
    n.KeepsOut deserializeTransaction msg :=
  (Node.systemFree_receive_iff C deserializeTransaction msg hn).mp
    (h _ (Run.foldl_mem_scanl n [msg]))

/-- A peer gets a coinbase transaction into the mempool, over a stream and by a merge. -/
theorem coinbase_from_peer : emptyNode.SystemFree ∧
      (¬ ∀ s ∈ List.scanl (Node.receive Crypto.sample fun _ => none) emptyNode
        [.transactionStream "peer"
          (some ⟨"NewTransaction", Transaction.codec.encode madeUpCoinbase⟩)], s.SystemFree) ∧
      ¬ ∀ s ∈ List.scanl (Node.receive Crypto.sample fun _ => none) emptyNode
        [.mempoolSync (some [madeUpCoinbase])], s.SystemFree := by
  refine ⟨systemFree_emptyNode, fun h => ?_, fun h => ?_⟩
  · have hkeeps := keepsOut_of_scanl systemFree_emptyNode h
    have hrefuses : Mempool.Refuses {} madeUpCoinbase :=
      hkeeps _ rfl rfl madeUpCoinbase (Transaction.codec.decode_encode madeUpCoinbase) rfl rfl _ rfl
    simp [Mempool.Refuses, Mempool.mem_ids] at hrefuses
  · have hkeeps := keepsOut_of_scanl systemFree_emptyNode h
    have hrepeats : Mempool.SystemRepeats (Mempool.ids {}) [madeUpCoinbase] := hkeeps _ rfl _ rfl
    have hknown := hrepeats.1 rfl
    simp [Mempool.mem_ids] at hknown

end HybridChain
