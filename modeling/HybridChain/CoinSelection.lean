import HybridChain.Lib.Greedy
import HybridChain.Mempool

/-!
# Coin selection

`SelectUTXOs` of `transaction.go` funds a transaction with outputs of its sender, largest first, and
returns the rest to the sender.

`sort.Slice` is not stable, so outputs of equal amount are tried in an open order, which a
`CoinOrder` fixes. The transaction is changed through a pointer, also with an error.

## Main definitions

* `selectUTXOs`, `CoinOrder`
* `Funds`: what a funded transaction has to be

## Main results

* `selectUTXOs_correct`: coin selection does this, or leaves the transaction alone
-/

namespace HybridChain

open List
open KeyedLog (Store)

/-! ## The order in which outputs are tried -/

/-- `GetUTXOsForAddress`: the outputs of an address, also the spent ones. -/
def UTXOPool.getUTXOsForAddress (pool : UTXOPool) (address : String) : Multiset UTXO :=
  (pool.utxos.entries.map Sigma.snd).filter fun utxo => utxo.owner = address

/-- **The order in which `SelectUTXOs` tries the outputs of an address**: by descending amount. -/
structure CoinOrder where
  sorted : UTXOPool → String → List UTXO
  coe_sorted : ∀ pool address,
    (sorted pool address : Multiset UTXO) = pool.getUTXOsForAddress address
  pairwise_sorted : ∀ pool address, (sorted pool address).Pairwise fun a b => b.amount ≤ a.amount

/-- The outputs of a pool in the order of their keys. -/
def UTXOPool.values (pool : UTXOPool) : List UTXO :=
  (UTXOPool.sortKeys pool.utxos).filterMap fun key => pool.utxos.lookup key

lemma UTXOPool.coe_values (pool : UTXOPool) :
    (pool.values : Multiset UTXO) = pool.utxos.entries.map Sigma.snd := by
  obtain ⟨es, hes⟩ := KeyedLog.exists_enumerates pool.utxos
  have hkeys : (UTXOPool.sortKeys pool.utxos).Perm (es.map Prod.fst) := by
    rw [perm_ext_iff_of_nodup (UTXOPool.nodup_sortKeys _) hes.nodup_keys]
    intro key
    rw [UTXOPool.mem_sortKeys, Finmap.mem_iff, mem_map]
    constructor
    · rintro ⟨utxo, hutxo⟩
      exact ⟨(key, utxo), hes.mem_iff.mpr hutxo, rfl⟩
    · rintro ⟨e, he, rfl⟩
      exact ⟨e.2, hes.mem_iff.mp he⟩
  have hvalues : (es.map Prod.fst).filterMap (fun key => pool.utxos.lookup key) =
      es.map Prod.snd := by
    rw [filterMap_map, ← filterMap_eq_map]
    exact filterMap_congr fun e he => hes.mem_iff.mp he
  rw [← hes, Multiset.map_coe, map_map, Multiset.coe_eq_coe]
  exact (hkeys.filterMap _).trans (.of_eq hvalues)

/-- Outputs in the order of their keys, sorted by amount. -/
def CoinOrder.byKey : CoinOrder where
  sorted pool address := (pool.values.filter fun utxo => utxo.owner = address).insertionSort
      fun a b => b.amount ≤ a.amount
  coe_sorted pool address := by
    rw [Multiset.coe_eq_coe.mpr (perm_insertionSort _ _), ← Multiset.filter_coe, pool.coe_values]
    rfl
  pairwise_sorted pool address := by
    have : Std.Total fun a b : UTXO => b.amount ≤ a.amount := ⟨fun a b => le_total _ _⟩
    have : IsTrans UTXO fun a b => b.amount ≤ a.amount := ⟨fun a b c hab hbc => hbc.trans hab⟩
    exact pairwise_insertionSort _ _

namespace CoinOrder

variable (order : CoinOrder) (pool : UTXOPool) {address : String} {utxo : UTXO}

lemma mem_sorted : utxo ∈ order.sorted pool address ↔
      (∃ key, pool.utxos.lookup key = some utxo) ∧ utxo.owner = address := by
  rw [← Multiset.mem_coe, order.coe_sorted, UTXOPool.getUTXOsForAddress, Multiset.mem_filter,
    Multiset.mem_map]
  refine and_congr_left fun _ => ?_
  constructor
  · rintro ⟨e, he, rfl⟩
    exact ⟨e.1, Finmap.lookup_eq_some_iff.mpr he⟩
  · rintro ⟨key, hkey⟩
    exact ⟨⟨key, utxo⟩, Finmap.lookup_eq_some_iff.mp hkey, rfl⟩

/-- The unspent outputs of an address, in the order in which they are tried. -/
def unspent (address : String) : List UTXO :=
  (order.sorted pool address).filter fun utxo => !utxo.spent

lemma mem_unspent : utxo ∈ order.unspent pool address ↔
      (∃ key, pool.utxos.lookup key = some utxo) ∧ utxo.owner = address ∧ utxo.spent = false := by
  rw [unspent, mem_filter, mem_sorted, and_assoc, Bool.not_eq_true']

/-- **The unspent outputs of an address add up to its balance.** -/
lemma sum_unspent (address : String) :
    ((order.unspent pool address).map UTXO.amount).sum = pool.getBalance address := by
  have hfilter : ∀ (s : Multiset (Sigma fun _ : String => UTXO)),
      ((((s.map Sigma.snd).filter fun utxo => utxo.owner = address).filter
        fun utxo => !utxo.spent).map UTXO.amount).sum =
      (s.map fun e => if e.2.owner = address ∧ ¬ e.2.spent then e.2.amount else 0).sum := by
    intro s
    induction s using Multiset.induction_on with
    | empty => rfl
    | cons e s ih =>
      rw [Multiset.map_cons, Multiset.map_cons, Multiset.sum_cons, ← ih]
      by_cases howner : e.2.owner = address
      · cases hspent : e.2.spent with
        | true | false => simp [howner, hspent]
      · simp [howner]
  have hcoe : (order.unspent pool address : Multiset UTXO) =
      (order.sorted pool address : Multiset UTXO).filter fun utxo => !utxo.spent := by
    simp [unspent]
  rw [← Multiset.sum_coe, ← Multiset.map_coe, hcoe, order.coe_sorted, UTXOPool.getUTXOsForAddress,
    hfilter]
  rfl

end CoinOrder

/-! ## The procedure -/

namespace Transaction

def addInput (tx : Transaction) (txID : String) (outputIndex : ℤ) (signature : String) :
    Transaction :=
  { tx with inputs := tx.inputs ++
    [{ transactionID := txID, outputIndex := outputIndex, signature := signature }] }

def addChangeOutput (tx : Transaction) (changeAmount : ℚ) : Transaction :=
  if changeAmount > 0 then
    { tx with outputs := tx.outputs ++ [{ receiver := tx.sender, amount := changeAmount }] }
  else tx

/-- The loop of `SelectUTXOs`, which adds up what is selected. -/
def selectLoop (totalNeeded : ℚ) : List UTXO → List UTXO × ℚ → List UTXO × ℚ
  | [], state => state
  | utxo :: utxos, (selectedUTXOs, totalInput) =>
    if utxo.spent then selectLoop totalNeeded utxos (selectedUTXOs, totalInput)
    else
      let selectedUTXOs := selectedUTXOs ++ [utxo]
      let totalInput := totalInput + utxo.amount
      if totalInput ≥ totalNeeded then (selectedUTXOs, totalInput)
      else selectLoop totalNeeded utxos (selectedUTXOs, totalInput)

def selectUTXOs (order : CoinOrder) (tx : Transaction) (utxoPool : Option UTXOPool) :
    Transaction × Except String Unit :=
  match utxoPool with
  | none => (tx, .error "UTXO pool is nil")
  | some pool =>
    let totalNeeded := tx.amount + tx.gasFee
    let senderUTXOs := order.sorted pool tx.sender
    if senderUTXOs = [] then (tx, .error ("no UTXOs found for sender " ++ tx.sender))
    else
      let (selectedUTXOs, totalInput) := selectLoop totalNeeded senderUTXOs ([], 0)
      if totalInput < totalNeeded then
        (tx, .error ("insufficient funds: have " ++ Text.fixed 8 totalInput ++ ", need " ++
          Text.fixed 8 totalNeeded))
      else
        let tx := selectedUTXOs.foldl
          (fun tx utxo => tx.addInput utxo.transactionID utxo.outputIndex "") tx
        let changeAmount := totalInput - totalNeeded
        let tx := if changeAmount > 0 then tx.addChangeOutput changeAmount else tx
        (tx, .ok ())

/-! ## The selection -/

variable (order : CoinOrder) (pool : UTXOPool) (tx : Transaction)

def needed : ℚ := tx.amount + tx.gasFee

/-- The outputs that are selected for a transaction. -/
def selection : List UTXO := Greedy.takeUntil UTXO.amount tx.needed (order.unspent pool tx.sender) 0

def selectedAmount : ℚ := ((tx.selection order pool).map UTXO.amount).sum

end Transaction

/-- The input that spends an output, without a signature. -/
def UTXO.toInput (utxo : UTXO) : TransactionInput where
  transactionID := utxo.transactionID
  outputIndex := utxo.outputIndex

def changeOutputs (sender : String) (change : ℚ) : List TransactionOutput :=
  if 0 < change then [{ receiver := sender, amount := change }] else []

lemma sum_changeOutputs (sender : String) (change : ℚ) :
    ((changeOutputs sender change).map TransactionOutput.amount).sum = max change 0 := by
  unfold changeOutputs
  split_ifs with h
  · simp [max_eq_left h.le]
  · simp [max_eq_right (not_lt.mp h)]

variable {utxo : UTXO}

namespace Transaction

variable (order : CoinOrder) (pool : UTXOPool) (tx : Transaction)

/-- A transaction with outputs to spend, and with the change that this leaves. -/
def fund (selected : List UTXO) : Transaction :=
  { tx with
    inputs := tx.inputs ++ selected.map UTXO.toInput
    outputs := tx.outputs ++
      changeOutputs tx.sender ((selected.map UTXO.amount).sum - tx.needed) }

lemma selectLoop_eq (totalNeeded : ℚ) (utxos selected : List UTXO) (total : ℚ) :
    selectLoop totalNeeded utxos (selected, total) =
      (selected ++ Greedy.takeUntil UTXO.amount totalNeeded (utxos.filter fun u => !u.spent) total,
        total + ((Greedy.takeUntil UTXO.amount totalNeeded
          (utxos.filter fun u => !u.spent) total).map UTXO.amount).sum) := by
  induction utxos generalizing selected total with
  | nil => simp [selectLoop, Greedy.takeUntil]
  | cons utxo utxos ih =>
    cases hspent : utxo.spent with
    | true => simp [selectLoop, hspent, ih]
    | false =>
      by_cases hreach : totalNeeded ≤ total + utxo.amount
      · simp [selectLoop, hspent, hreach, Greedy.takeUntil]
      · simp [selectLoop, hspent, hreach, Greedy.takeUntil, ih, add_assoc]

lemma foldl_addInput (selected : List UTXO) :
    selected.foldl (fun tx utxo => tx.addInput utxo.transactionID utxo.outputIndex "") tx =
      { tx with inputs := tx.inputs ++ selected.map UTXO.toInput } := by
  induction selected generalizing tx with
  | nil => simp
  | cons utxo selected ih =>
    rw [foldl_cons, ih]
    simp [addInput, UTXO.toInput]

/-- **The procedure in terms of the selection.** -/
theorem selectUTXOs_eq : tx.selectUTXOs order (some pool) = if order.sorted pool tx.sender = [] then
        (tx, .error ("no UTXOs found for sender " ++ tx.sender))
      else if tx.selectedAmount order pool < tx.needed then
        (tx, .error ("insufficient funds: have " ++ Text.fixed 8 (tx.selectedAmount order pool) ++
          ", need " ++ Text.fixed 8 tx.needed))
      else (tx.fund (tx.selection order pool), .ok ()) := by
  have hloop : selectLoop (tx.amount + tx.gasFee) (order.sorted pool tx.sender) ([], 0) =
      (tx.selection order pool, tx.selectedAmount order pool) := by
    rw [selectLoop_eq, nil_append, zero_add]
    rfl
  have hchange : ∀ t : Transaction, ∀ change : ℚ,
      (if change > 0 then t.addChangeOutput change else t) =
        { t with outputs := t.outputs ++ changeOutputs t.sender change } := by
    intro t change
    unfold addChangeOutput changeOutputs
    by_cases hpos : change > 0
    · simp [hpos]
    · simp [hpos]
  simp only [selectUTXOs, hloop, foldl_addInput, hchange]
  rfl

/-- The procedure succeeds, and funds the transaction with the selection, exactly if the sender has
outputs and the selected ones are enough. -/
lemma selectUTXOs_eq_ok_iff {funded : Transaction} :
    tx.selectUTXOs order (some pool) = (funded, .ok ()) ↔
      order.sorted pool tx.sender ≠ [] ∧ tx.needed ≤ tx.selectedAmount order pool ∧
        funded = tx.fund (tx.selection order pool) := by
  rw [selectUTXOs_eq]
  split_ifs with hnil hshort
  · exact iff_of_false (by simp) fun h => h.1 hnil
  · exact iff_of_false (by simp) fun h => absurd h.2.1 (not_le.mpr hshort)
  · rw [Prod.mk.injEq, and_iff_left rfl, eq_comm]
    exact ⟨fun h => ⟨hnil, not_lt.mp hshort, h⟩, fun h => h.2.2⟩

variable (utxoPool : Option UTXOPool)

lemma selectUTXOs_error {err : String}
    (h : (tx.selectUTXOs order utxoPool).2 = .error err) :
    (tx.selectUTXOs order utxoPool).1 = tx := by
  cases utxoPool with
  | none => rfl
  | some pool =>
    rw [selectUTXOs_eq] at h ⊢
    split_ifs at h ⊢
    · rfl
    · rfl

lemma exists_selectUTXOs_eq :
    ∃ inputs outputs, (tx.selectUTXOs order utxoPool).1 =
      { tx with inputs := inputs, outputs := outputs } := by
  cases utxoPool with
  | none => exact ⟨_, _, rfl⟩
  | some pool =>
    rw [selectUTXOs_eq]
    split_ifs
    · exact ⟨_, _, rfl⟩
    · exact ⟨_, _, rfl⟩
    · exact ⟨_, _, rfl⟩

lemma mem_selection (h : utxo ∈ tx.selection order pool) :
    (∃ key, pool.utxos.lookup key = some utxo) ∧ utxo.owner = tx.sender ∧ utxo.spent = false :=
  (order.mem_unspent pool).mp ((Greedy.takeUntil_sublist _ _ _ _).subset h)

end Transaction

/-! ## Keyed pools -/

namespace UTXOPool

/-- Every output stands under the key of its own transaction and index. -/
def Keyed (pool : UTXOPool) : Prop := ∀ key utxo, pool.utxos.lookup key = some utxo →
    key = utxoKey utxo.transactionID utxo.outputIndex

variable {pool : UTXOPool} (h : pool.Keyed)

include h

lemma Keyed.lookup_toInput (hutxo : ∃ key, pool.utxos.lookup key = some utxo) :
    pool.utxos.lookup utxo.toInput.key = some utxo := by
  obtain ⟨key, hkey⟩ := hutxo
  have hself : utxo.toInput.key = key := (h key utxo hkey).symm
  rwa [hself]

lemma Keyed.nodup_sorted (order : CoinOrder) (address : String) :
    ((order.sorted pool address).map fun utxo => utxo.toInput.key).Nodup := by
  have hkeys : (pool.utxos.entries.map Sigma.snd).map (fun utxo => utxo.toInput.key) =
      pool.utxos.entries.keys := by
    rw [Multiset.map_map, Multiset.keys]
    refine Multiset.map_congr rfl fun e he => ?_
    exact (h e.1 e.2 (Finmap.lookup_eq_some_iff.mpr he)).symm
  have hnodup := pool.utxos.nodupKeys.nodup_keys
  rw [← hkeys] at hnodup
  rw [← Multiset.coe_nodup, ← Multiset.map_coe, order.coe_sorted]
  exact Multiset.nodup_of_le (Multiset.map_le_map (Multiset.filter_le _ _)) hnodup

end UTXOPool

/-! ## The specification -/

namespace Transaction

/-- **What a funded transaction has to be**: it spends different unspent outputs of the sender,
which hold what is needed and the change, the last of them is necessary, and a positive change is
returned. -/
structure Funds (pool : UTXOPool) (tx funded : Transaction) (change : ℚ) : Prop where
  spendable : ∀ input ∈ funded.inputs, ∃ utxo, Mempool.Spendable pool.utxos tx.sender input.key utxo
  distinct : (funded.inputs.map TransactionInput.key).Nodup
  sum_inputs : (funded.inputs.map fun input => Mempool.amountAt pool.utxos input.key).sum =
    tx.amount + tx.gasFee + change
  last_necessary : (funded.inputs.dropLast.map
    fun input => Mempool.amountAt pool.utxos input.key).sum < tx.amount + tx.gasFee
  change_nonneg : 0 ≤ change
  outputs : funded.outputs = tx.outputs ++ changeOutputs tx.sender change
  frame : funded = { tx with inputs := funded.inputs, outputs := funded.outputs }

variable {order : CoinOrder} {pool : UTXOPool} {tx : Transaction}

lemma map_amountAt_toInput (hkeyed : pool.Keyed) {utxos : List UTXO}
    (h : ∀ utxo ∈ utxos, ∃ key, pool.utxos.lookup key = some utxo) :
    (utxos.map UTXO.toInput).map (fun input => Mempool.amountAt pool.utxos input.key) =
      utxos.map UTXO.amount := by
  rw [map_map]
  refine map_congr_left fun utxo hutxo => ?_
  rw [Function.comp_apply, Mempool.amountAt, hkeyed.lookup_toInput (h utxo hutxo), Option.getD_some]

lemma spendable_selection (order : CoinOrder) (tx : Transaction) (hkeyed : pool.Keyed) :
    ∀ input ∈ (tx.selection order pool).map UTXO.toInput,
      ∃ utxo, Mempool.Spendable pool.utxos tx.sender input.key utxo := by
  intro input hinput
  obtain ⟨utxo, hutxo, rfl⟩ := mem_map.mp hinput
  obtain ⟨hkey, howner, hunspent⟩ := mem_selection order pool tx hutxo
  exact ⟨utxo, hkeyed.lookup_toInput hkey, howner, hunspent⟩

lemma sum_amountAt_selection (hkeyed : pool.Keyed) :
    (((tx.selection order pool).map UTXO.toInput).map
      fun input => Mempool.amountAt pool.utxos input.key).sum = tx.selectedAmount order pool := by
  rw [map_amountAt_toInput hkeyed fun utxo hutxo => (mem_selection order pool tx hutxo).1]
  rfl

lemma funds_selection (hkeyed : pool.Keyed) (hinputs : tx.inputs = []) (hneeded : 0 < tx.needed)
    (henough : tx.needed ≤ tx.selectedAmount order pool) :
    Funds pool tx (tx.fund (tx.selection order pool))
      (tx.selectedAmount order pool - tx.needed) := by
  have hfunded : (tx.fund (tx.selection order pool)).inputs =
      (tx.selection order pool).map UTXO.toInput := by
    rw [fund, hinputs, nil_append]
  refine ⟨?_, ?_, ?_, ?_, sub_nonneg.mpr henough, rfl, rfl⟩
  · rw [hfunded]
    exact spendable_selection order tx hkeyed
  · rw [hfunded, map_map]
    have hsub : (tx.selection order pool).Sublist (order.sorted pool tx.sender) :=
      (Greedy.takeUntil_sublist _ _ _ _).trans filter_sublist
    exact (hkeyed.nodup_sorted order tx.sender).sublist (hsub.map _)
  · rw [hfunded, sum_amountAt_selection hkeyed]
    change tx.selectedAmount order pool = tx.needed + _
    ring
  · rw [hfunded, ← map_dropLast, map_amountAt_toInput hkeyed fun utxo hutxo =>
      (mem_selection order pool tx (dropLast_subset _ hutxo)).1]
    have hlast := Greedy.sum_dropLast_lt UTXO.amount tx.needed hneeded
      (order.unspent pool tx.sender)
    rwa [zero_add] at hlast

/-- **Coin selection is correct** in a keyed pool without negative amounts: a transaction without
inputs that needs something is funded exactly if the unspent outputs of the sender are enough, and
otherwise left as it was. -/
theorem selectUTXOs_correct (order : CoinOrder) (tx : Transaction) (hkeyed : pool.Keyed)
    (hamount : ∀ key utxo, pool.utxos.lookup key = some utxo → 0 ≤ utxo.amount)
    (hinputs : tx.inputs = []) (hneeded : 0 < tx.amount + tx.gasFee) :
    ((tx.selectUTXOs order (some pool)).2 = .ok () ↔
        tx.amount + tx.gasFee ≤ pool.getBalance tx.sender) ∧
      ((tx.selectUTXOs order (some pool)).2 = .ok () →
        ∃ change, Funds pool tx (tx.selectUTXOs order (some pool)).1 change) ∧
      ∀ err, (tx.selectUTXOs order (some pool)).2 = .error err →
        (tx.selectUTXOs order (some pool)).1 = tx := by
  have hnonneg : ∀ utxo ∈ order.unspent pool tx.sender, 0 ≤ utxo.amount := by
    intro utxo hutxo
    obtain ⟨⟨key, hkey⟩, -⟩ := (order.mem_unspent pool).mp hutxo
    exact hamount key utxo hkey
  have henough : tx.needed ≤ tx.selectedAmount order pool ↔
      tx.needed ≤ pool.getBalance tx.sender := by
    have h := Greedy.target_le_iff UTXO.amount tx.needed hnonneg 0
    rwa [zero_add, zero_add, order.sum_unspent pool] at h
  have hok : (tx.selectUTXOs order (some pool)).2 = .ok () ↔
      order.sorted pool tx.sender ≠ [] ∧ tx.needed ≤ tx.selectedAmount order pool := by
    constructor
    · intro h
      obtain ⟨hsorted, hcovers, -⟩ := (selectUTXOs_eq_ok_iff order pool tx).mp (Prod.ext rfl h)
      exact ⟨hsorted, hcovers⟩
    · rintro ⟨hsorted, hcovers⟩
      rw [(selectUTXOs_eq_ok_iff order pool tx).mpr ⟨hsorted, hcovers, rfl⟩]
  refine ⟨?_, ?_, fun err herr => selectUTXOs_error order tx (some pool) herr⟩
  · rw [hok, henough]
    refine and_iff_right_of_imp fun h hnil => ?_
    -- without outputs the balance is zero
    have hzero : pool.getBalance tx.sender = 0 := by
      rw [← order.sum_unspent pool, CoinOrder.unspent, hnil]
      rfl
    rw [hzero] at h
    exact absurd hneeded (not_lt.mpr h)
  · intro hsuccess
    obtain ⟨hsorted, hcovers⟩ := hok.mp hsuccess
    rw [(selectUTXOs_eq_ok_iff order pool tx).mpr ⟨hsorted, hcovers, rfl⟩]
    exact ⟨_, funds_selection hkeyed hinputs hneeded hcovers⟩

end Transaction

/-! ### Pools with given outputs -/

def poolOf (utxos : List UTXO) : UTXOPool where
  utxos := utxos.foldr
    (fun utxo => Finmap.insert (utxoKey utxo.transactionID utxo.outputIndex) utxo) ∅

lemma lookup_poolOf {utxos : List UTXO} {key : String}
    (h : (poolOf utxos).utxos.lookup key = some utxo) :
    key = utxoKey utxo.transactionID utxo.outputIndex ∧ utxo ∈ utxos := by
  induction utxos with
  | nil => exact absurd h (by simp [poolOf])
  | cons first utxos ih =>
    by_cases hkey : key = utxoKey first.transactionID first.outputIndex
    · subst hkey
      obtain rfl : first = utxo := Option.some.inj ((Finmap.lookup_insert _).symm.trans h)
      exact ⟨rfl, mem_cons_self⟩
    · obtain ⟨heq, hmem⟩ := ih ((Finmap.lookup_insert_of_ne _ hkey).symm.trans h)
      exact ⟨heq, mem_cons_of_mem _ hmem⟩

lemma keyed_poolOf (utxos : List UTXO) : (poolOf utxos).Keyed := fun _ _ h => (lookup_poolOf h).1

/-- Three outputs of `a`, none of which is enough for the payment below, and one of `b`. -/
def fourOutputs : UTXOPool := poolOf [{ transactionID := "p", amount := 2, owner := "a" },
    { transactionID := "q", amount := 4, owner := "a" },
    { transactionID := "q", outputIndex := 1, amount := 3, owner := "a" },
    { transactionID := "r", amount := 20, owner := "b" }]

def payFiveOfA : Transaction where
  transactionID := "t"
  sender := "a"
  receiver := "b"
  amount := 5
  gasFee := 1
  outputs := [{ receiver := "b", amount := 5 }]

theorem fourOutputs_fund_payFiveOfA :
    (payFiveOfA.selectUTXOs CoinOrder.byKey (some fourOutputs)).2 = .ok () ∧
      ∃ change, Transaction.Funds fourOutputs payFiveOfA
        (payFiveOfA.selectUTXOs CoinOrder.byKey (some fourOutputs)).1 change := by
  have hamount : ∀ key utxo, fourOutputs.utxos.lookup key = some utxo → 0 ≤ utxo.amount := by
    intro key utxo h
    have hmem := (lookup_poolOf h).2
    simp only [mem_cons, not_mem_nil, or_false] at hmem
    rcases hmem with rfl | rfl | rfl | rfl <;> norm_num
  obtain ⟨hok, hfunds, -⟩ := Transaction.selectUTXOs_correct CoinOrder.byKey payFiveOfA
    (keyed_poolOf _) hamount rfl (by decide +kernel)
  have hsuccess := hok.mpr (by decide +kernel)
  exact ⟨hsuccess, hfunds hsuccess⟩

end HybridChain
