import HybridChain.SpentOutputs
import HybridChain.Mempool

/-!
# What a call does to one account

Both ways to apply transactions, followed through the account manager for one address at a time.

## Main definitions

* `afterTransaction`, `afterBlock`: the account after a transaction and after a block

## Main results

* `view_recordTransaction`, `view_recordBlock`: the account manager does just this
-/

namespace HybridChain

open List
open KeyedLog (Store)
open Mempool (amountAt)
open AccountManager (keysOf)
open Transaction (created events inputKeys put_mem_events)

namespace Transaction

/-- The transaction debits the account of the address. -/
def debits (address : String) (tx : Transaction) : Bool :=
  !tx.isSystem && tx.sender ≠ "" && tx.sender = address

/-- What the transaction takes off the balance of the address. -/
def debited (address : String) (tx : Transaction) : ℚ :=
  if tx.debits address then tx.amount + tx.gasFee else 0

/-- What the outputs of the transaction pay to the address. -/
def received (address : String) (tx : Transaction) : ℚ :=
  (tx.outputs.map fun output => if output.receiver = address then output.amount else 0).sum

end Transaction

/-! ## One account -/

namespace AccountState

open AccountManager (keysOf ownersOf)

/-- The account of an address after `AddUTXO`, which leaves the outputs `utxos`. -/
def afterTransaction (utxos : Store String UTXO) (now : ℤ) (tx : Transaction) (address : String)
    (state : AccountState) : AccountState :=
  let state :=
    if address ∈ ownersOf tx.ownerUTXOs then state.credit utxos now (keysOf tx.ownerUTXOs address)
    else state
  if tx.debits address then state.debit now tx else state

/-- The account of an address after the debits of a block. -/
def debitAll (now : ℤ) (txs : List Transaction) (address : String) (state : AccountState) :
    AccountState :=
  (txs.filter (Transaction.debits address)).foldl (debit now) state

/-- The account of an address after `ProcessBlockTransactions`, which leaves the outputs
`utxos`. -/
def afterBlock (utxos : Store String UTXO) (now : ℤ) (txs : List Transaction) (address : String)
    (state : AccountState) : AccountState :=
  let state := state.debitAll now txs address
  let ownerUTXOs := txs.flatMap Transaction.ownerUTXOs
  if address ∈ ownersOf ownerUTXOs then
    state.creditBlock utxos now address (keysOf ownerUTXOs address)
  else state

variable (utxos : Store String UTXO) (now : ℤ) (txs : List Transaction) (owner : String)
  (address : String) (keys : List String) (state : AccountState)

lemma balance_credit : (state.credit utxos now keys).balance =
      state.balance + (keys.map (amountAt utxos)).sum := by
  have hfold : ∀ received : ℚ × Store String String, (keys.foldl (creditKey utxos) received).1 =
        received.1 + (keys.map (amountAt utxos)).sum := by
    induction keys with
    | nil => simp
    | cons key keys ih =>
      intro received
      rw [foldl_cons, ih, map_cons, sum_cons]
      cases hk : utxos.lookup key with
      | none => simp [creditKey, amountAt, hk]
      | some utxo => simp [creditKey, amountAt, hk, add_assoc]
  have h := hfold (0, state.utxos)
  rw [zero_add] at h
  rw [← h]
  rfl

def insertKeys (utxos : Store String UTXO) (keys : List String) (m : Store String String) :
    Store String String :=
  keys.foldl (fun m key => m.insert key ((utxos.lookup key).getD {}).transactionID) m

/-- **The credit of a block**: an account with the balance zero is replaced by a new one, then the
keys are recorded and the amounts under them added. -/
lemma creditBlock_eq : state.creditBlock utxos now owner keys =
      let state := if state.balance = 0 then { address := owner, lastActivity := now } else state
      { state with
        balance := state.balance + (keys.map (amountAt utxos)).sum
        lastActivity := now
        utxos := insertKeys utxos keys state.utxos } := by
  have hfold : ∀ state : AccountState, keys.foldl (fun (state : AccountState) key =>
        { state with
          utxos := state.utxos.insert key ((utxos.lookup key).getD {}).transactionID
          balance := state.balance + ((utxos.lookup key).getD {}).amount }) state =
      { state with
        balance := state.balance + (keys.map (amountAt utxos)).sum
        utxos := insertKeys utxos keys state.utxos } := by
    unfold insertKeys
    induction keys with
    | nil => simp
    | cons key keys ih =>
      intro state
      rw [foldl_cons, ih]
      simp only [map_cons, sum_cons, foldl_cons, amountAt, add_assoc]
  simp only [creditBlock, hfold]

/-- The credit of a block adds the amounts under its keys as well: an account that is replaced
had the balance zero. -/
lemma balance_creditBlock : (state.creditBlock utxos now owner keys).balance =
      state.balance + (keys.map (amountAt utxos)).sum := by
  rw [creditBlock_eq]
  by_cases hzero : state.balance = 0
  · simp only [if_pos hzero]
    rw [hzero]
  · simp only [if_neg hzero]

lemma balance_debitAll : (state.debitAll now txs address).balance =
      state.balance - (txs.map (Transaction.debited address)).sum := by
  unfold debitAll
  induction txs generalizing state with
  | nil => simp
  | cons tx txs ih =>
    by_cases htx : tx.debits address
    · rw [filter_cons_of_pos htx, foldl_cons, ih]
      simp [debit, Transaction.debited, htx]
      ring
    · rw [filter_cons_of_neg htx, ih]
      simp [Transaction.debited, htx]

lemma keysOf_eq_nil {ownerUTXOs : List (String × String)} {address : String}
    (h : address ∉ ownersOf ownerUTXOs) : keysOf ownerUTXOs address = [] := by
  simp only [ownersOf, mem_dedup, mem_map, not_exists, not_and] at h
  simp only [keysOf, map_eq_nil_iff, filter_eq_nil_iff, decide_eq_true_eq]
  exact h

/-- **The balance after `AddUTXO`.** -/
lemma balance_afterTransaction (tx : Transaction) (address : String) (state : AccountState) :
    (state.afterTransaction utxos now tx address).balance =
      state.balance + ((keysOf tx.ownerUTXOs address).map (amountAt utxos)).sum -
        tx.debited address := by
  have hcredit : (if address ∈ ownersOf tx.ownerUTXOs then
      state.credit utxos now (keysOf tx.ownerUTXOs address) else state).balance =
      state.balance + ((keysOf tx.ownerUTXOs address).map (amountAt utxos)).sum := by
    by_cases hown : address ∈ ownersOf tx.ownerUTXOs
    · rw [if_pos hown, balance_credit]
    · rw [if_neg hown, keysOf_eq_nil hown]
      simp
  unfold afterTransaction Transaction.debited
  by_cases htx : tx.debits address
  · simp only [if_pos htx, debit, hcredit]
  · simp only [if_neg htx, hcredit, sub_zero]

/-- **The balance after `ProcessBlockTransactions`.** -/
lemma balance_afterBlock : (state.afterBlock utxos now txs address).balance =
      state.balance - (txs.map (Transaction.debited address)).sum +
        ((keysOf (txs.flatMap Transaction.ownerUTXOs) address).map (amountAt utxos)).sum := by
  unfold afterBlock
  by_cases hown : address ∈ ownersOf (txs.flatMap Transaction.ownerUTXOs)
  · simp only [if_pos hown, balance_creditBlock, balance_debitAll]
  · simp only [if_neg hown, balance_debitAll, keysOf_eq_nil hown]
    simp

/-! ### The outputs of an account -/

/-- Take the inputs of the transactions that debit an address off its outputs. -/
def eraseInputs (txs : List Transaction) (address : String) (m : Store String String) :
    Store String String :=
  ((txs.filter (Transaction.debits address)).flatMap inputKeys).foldl (fun m key => m.erase key) m

variable (m : Store String String)

lemma lookup_eraseInputs (k : String) :
    (eraseInputs txs address m).lookup k =
      if k ∈ (txs.filter (Transaction.debits address)).flatMap inputKeys then none
      else m.lookup k :=
  KeyedLog.lookup_foldl_erase _ m k

lemma lookup_insertKeys (k : String) :
    (insertKeys utxos keys m).lookup k =
      if k ∈ keys then some ((utxos.lookup k).getD {}).transactionID else m.lookup k := by
  unfold insertKeys
  induction keys generalizing m with
  | nil => simp
  | cons key keys ih =>
    rw [foldl_cons, ih, KeyedLog.lookup_insert_eq]
    by_cases hk : key = k
    · subst hk
      simp
    · simp [hk, Ne.symm hk]

lemma utxos_debitAll :
    (state.debitAll now txs address).utxos = eraseInputs txs address state.utxos := by
  unfold debitAll eraseInputs
  induction txs.filter (Transaction.debits address) generalizing state with
  | nil => rfl
  | cons tx txs ih => rw [foldl_cons, ih, flatMap_cons, foldl_append]; rfl

lemma utxos_creditBlock : (state.creditBlock utxos now owner keys).utxos =
      insertKeys utxos keys (if state.balance = 0 then ∅ else state.utxos) := by
  rw [creditBlock_eq]
  by_cases hzero : state.balance = 0
  · simp only [if_pos hzero]
  · simp only [if_neg hzero]

/-- **The outputs of an account after `ProcessBlockTransactions`.** -/
lemma utxos_afterBlock : (state.afterBlock utxos now txs address).utxos =
      if address ∈ ownersOf (txs.flatMap Transaction.ownerUTXOs) then
        insertKeys utxos (keysOf (txs.flatMap Transaction.ownerUTXOs) address)
          (if state.balance - (txs.map (Transaction.debited address)).sum = 0 then ∅
          else eraseInputs txs address state.utxos)
      else eraseInputs txs address state.utxos := by
  unfold afterBlock
  by_cases hown : address ∈ ownersOf (txs.flatMap Transaction.ownerUTXOs)
  · simp only [if_pos hown, utxos_creditBlock, balance_debitAll, utxos_debitAll]
  · simp only [if_neg hown, utxos_debitAll]

end AccountState

/-! ## Every account -/

namespace AccountManager

variable (am : AccountManager)

lemma nodup_ownersOf (ownerUTXOs : List (String × String)) : (ownersOf ownerUTXOs).Nodup :=
  nodup_dedup _

variable (now : ℤ)

lemma view_debitSender (tx : Transaction) (a : String) : (am.debitSender now tx).view a =
      if tx.debits a then (am.view a).debit now tx else am.view a := by
  unfold debitSender Transaction.debits
  by_cases hsys : tx.isSystem
  · simp [hsys]
  by_cases hsender : tx.sender = ""
  · simp [hsender]
  by_cases ha : tx.sender = a
  · subst ha
    simp [hsys, hsender]
  · simp [hsys, hsender, ha]

lemma view_foldl_debitSender (txs : List Transaction) (a : String) :
    (txs.foldl (fun am tx => am.debitSender now tx) am).view a =
      (am.view a).debitAll now txs a := by
  unfold AccountState.debitAll
  induction txs generalizing am with
  | nil => rfl
  | cons tx txs ih =>
    rw [foldl_cons, ih, view_debitSender]
    by_cases htx : tx.debits a
    · rw [if_pos htx, filter_cons_of_pos htx, foldl_cons]
    · rw [if_neg htx, filter_cons_of_neg htx]

variable (utxos : Store String UTXO)

/-- **Every account after `AddUTXO`.** -/
theorem view_recordTransaction (tx : Transaction)
    (a : String) :
    (am.recordTransaction utxos now tx).view a = (am.view a).afterTransaction utxos now tx a := by
  rw [recordTransaction, view_batchUpdateAccounts, view_debitSender,
    view_foldl_update _ (fun owner => AccountState.credit utxos now (keysOf tx.ownerUTXOs owner))
      (nodup_ownersOf _)]
  rfl

/-- **Every account after `ProcessBlockTransactions`.** -/
theorem view_recordBlock (txs : List Transaction)
    (a : String) :
    ((txs.foldl (fun am tx => am.debitSender now tx) am).recordBlock utxos now txs).view a =
      (am.view a).afterBlock utxos now txs a := by
  rw [recordBlock, view_batchUpdateAccounts,
    view_foldl_update _ (fun owner => AccountState.creditBlock utxos now owner
      (keysOf (txs.flatMap Transaction.ownerUTXOs) owner)) (nodup_ownersOf _),
    view_foldl_debitSender]
  rfl

end AccountManager

/-! ## The amounts credited -/

variable {tx : Transaction} {h : UInt64}

lemma Transaction.eq_of_mem_created {k : String} {u v : UTXO}
    (hu : (k, u) ∈ tx.created h) (hv : (k, v) ∈ tx.created h) : u = v := by
  have hnd : ((tx.created h).map Prod.fst).Nodup := by
    rw [tx.map_fst_created h]
    exact tx.nodup_outputKeys
  exact congrArg Prod.snd (inj_on_of_nodup_map hnd hu hv rfl)

variable {txs : List Transaction}

/-- After the transactions of a list, an output that one of them creates has the amount it was
created with, whether it has been spent since or not. -/
lemma amountAt_of_mem_created
    (huniq : ∀ c ∈ txs, ∀ s ∈ txs, c.transactionID = s.transactionID → c = s)
    (utxos : Store String UTXO) (htx : tx ∈ txs) {k : String} {u : UTXO}
    (hu : (k, u) ∈ tx.created h) :
    amountAt (KeyedLog.run UTXO.markSpent utxos (txs.flatMap (events h))) k =
      u.amount := by
  have hkeys : ∀ {t : Transaction} {w : UTXO}, (k, w) ∈ t.created h → k ∈ t.outputKeys :=
    fun hw => Transaction.exists_put_mem_events.mp ⟨_, put_mem_events.mpr hw⟩
  have hput : ∀ v, .put k v ∈ txs.flatMap (events h) → v.amount = u.amount := by
    intro v hv
    obtain ⟨c, hc, hv⟩ := mem_flatMap.mp hv
    have hv := put_mem_events.mp hv
    obtain rfl : c = tx := huniq c hc tx htx
      (Transaction.transactionID_eq_of_mem_outputKeys (hkeys hv) (hkeys hu))
    rw [Transaction.eq_of_mem_created hv hu]
  obtain ⟨v, hv, hamount⟩ := KeyedLog.exists_foldl_cell_of_put UTXO.markSpent
    (P := fun v => v.amount = u.amount) (fun _ hv => hv) hput
    ⟨u, mem_flatMap.mpr ⟨tx, htx, put_mem_events.mpr hu⟩⟩ (utxos.lookup k)
  simp [amountAt, KeyedLog.lookup_run, hv, hamount]

lemma sum_amountAt_ownerUTXOs {utxos : Store String UTXO}
    (hutxos : ∀ e ∈ tx.created h, amountAt utxos e.1 = e.2.amount) (a : String) :
    ((keysOf tx.ownerUTXOs a).map (amountAt utxos)).sum = tx.received a := by
  have hsum : ∀ l : List (String × UTXO),
      ((l.filter fun e => e.2.owner = a).map fun e => e.2.amount).sum =
        (l.map fun e => if e.2.owner = a then e.2.amount else 0).sum := by
    intro l
    induction l with
    | nil => rfl
    | cons e l ih => by_cases he : e.2.owner = a <;> simp [he, ih]
  have howners : tx.ownerUTXOs = (tx.created h).map fun e => (e.2.owner, e.1) := by
    simp [Transaction.ownerUTXOs, created, Transaction.newUTXO]
  have hkeys : (keysOf tx.ownerUTXOs a).map (amountAt utxos) =
      ((tx.created h).filter fun e => e.2.owner = a).map fun e => e.2.amount := by
    rw [keysOf, howners, filter_map, map_map, map_map]
    apply map_congr_left
    intro e he
    exact hutxos e (mem_of_mem_filter he)
  rw [hkeys, hsum, Transaction.received, created, map_map]
  conv_rhs => rw [← zipIdx_map_fst 0 tx.outputs, map_map]
  rfl

/-- **What an owner is credited** is what the outputs of the transactions pay. -/
theorem sum_amountAt_keysOf (h : UInt64)
    (huniq : ∀ c ∈ txs, ∀ s ∈ txs, c.transactionID = s.transactionID → c = s)
    (utxos : Store String UTXO) (a : String) :
    ((keysOf (txs.flatMap Transaction.ownerUTXOs) a).map (amountAt
      (KeyedLog.run UTXO.markSpent utxos (txs.flatMap (events h))))).sum =
      (txs.map (Transaction.received a)).sum := by
  have hkeys : keysOf (txs.flatMap Transaction.ownerUTXOs) a =
      txs.flatMap fun tx => keysOf tx.ownerUTXOs a := by
    simp [keysOf, filter_flatMap, map_flatMap]
  rw [hkeys, map_flatMap, List.flatMap, sum_flatten, map_map]
  congr 1
  apply map_congr_left
  intro tx htx
  exact sum_amountAt_ownerUTXOs (fun e he => amountAt_of_mem_created huniq utxos htx he) a

/-! ## The account manager behind a pool -/

namespace UTXOPool

variable (C : Crypto) (pool : UTXOPool) (host : Host) (now : ℤ)

lemma linkedManager_eq {pool pool' : UTXOPool} {host host' : Host} (hnode : pool'.node = pool.node)
    {f : AccountManager → AccountManager}
    (hhost : host'.accountManager =
      (host.setManager pool.node ((pool.linkedManager host).map f)).accountManager) :
    pool'.linkedManager host' = (pool.linkedManager host).map f := by
  cases hn : pool.node <;> simp [linkedManager, Host.setManager, hnode, hhost, hn]

/-- **The accounts after `AddUTXO`.** -/
lemma linkedManager_addUTXO (tx : Transaction) (h : UInt64) :
    (pool.addUTXO C host tx h now).1.linkedManager (pool.addUTXO C host tx h now).2 =
      (pool.linkedManager host).map fun am =>
        am.recordTransaction (pool.addUTXO C host tx h now).1.utxos now tx := by
  refine linkedManager_eq (node_addUTXO C pool host tx h now) ?_
  simp only [addUTXO, Host.accountManager_saveState, linkedManager, node_createOutputs,
    node_markInputs]

/-- **The account manager of the host after `ProcessBlockTransactions`**: unchanged if the pool has
no node. -/
lemma accountManager_afterBlock (block : Block) :
    (pool.processBlockTransactions C host block now).1.2.accountManager =
      if pool.node then host.accountManager.map fun am =>
        (block.transactions.foldl (fun am tx => am.debitSender now tx) am).recordBlock
          (pool.processBlockTransactions C host block now).1.1.utxos now block.transactions
      else host.accountManager := by
  rw [accountManager_processBlockTransactions, processBlockTransactions_pool, applyTransactions,
    foldl_applyTransaction]
  cases hn : pool.node <;> simp [Host.setManager, linkedManager, hn, Function.comp_def]

/-- **The accounts after `ProcessBlockTransactions`.** -/
lemma linkedManager_processBlockTransactions (block : Block) :
    (pool.processBlockTransactions C host block now).1.1.linkedManager
        (pool.processBlockTransactions C host block now).1.2 =
      (pool.linkedManager host).map fun am =>
        (block.transactions.foldl (fun am tx => am.debitSender now tx) am).recordBlock
          (pool.processBlockTransactions C host block now).1.1.utxos now block.transactions := by
  refine linkedManager_eq (node_processBlockTransactions C pool host block now) ?_
  rw [accountManager_afterBlock]
  cases hn : pool.node <;> simp [Host.setManager, linkedManager, hn]

end UTXOPool

end HybridChain
