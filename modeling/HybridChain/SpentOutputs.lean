import HybridChain.Block
import HybridChain.Lib.Run

/-!
# Spent outputs along the life of a pool

`AddUTXO` and `ProcessBlockTransactions` write new outputs without looking at what stands under
their keys, so a transaction delivered again sets its spent outputs back.

## Main definitions

* `LedgerCall`, `step`
* `Recreates`: a call writes a spent key again

## Main results

* `spent_forever_iff`: just then spent outputs come back
-/

namespace HybridChain

open List
open KeyedLog (Event)

/-- One call that changes the outputs of a pool. -/
inductive LedgerCall where
  | addUTXO (tx : Transaction) (blockHeight : UInt64) (now : ℤ)
  | processBlock (block : Block) (now : ℤ)

def LedgerCall.transactions : LedgerCall → List Transaction
  | addUTXO tx _ _ => [tx]
  | processBlock block _ => block.transactions

def LedgerCall.height : LedgerCall → UInt64
  | addUTXO _ blockHeight _ => blockHeight
  | processBlock block _ => block.header.blockNumber

/-- The block of a call, if there is one, has a trie that occurs. -/
def LedgerCall.Built (C : Crypto) : LedgerCall → Prop
  | addUTXO _ _ _ => True
  | processBlock block _ => PatriciaTrie.Built C block.body.transactions

namespace UTXOPool

def Spent (pool : UTXOPool) (key : String) : Prop :=
  ∃ utxo, pool.utxos.lookup key = some utxo ∧ utxo.spent = true

/-- The pool holds an unspent output under the key. -/
def Unspent (pool : UTXOPool) (key : String) : Prop :=
  ∃ utxo, pool.utxos.lookup key = some utxo ∧ utxo.spent = false

lemma Spent.not_unspent {pool : UTXOPool} {key : String} (h : pool.Spent key) :
    ¬ pool.Unspent key := by
  obtain ⟨utxo, hutxo, hspent⟩ := h
  rintro ⟨utxo', hutxo', hunspent⟩
  obtain rfl : utxo = utxo' := Option.some.inj (hutxo.symm.trans hutxo')
  simp [hspent] at hunspent

end UTXOPool

/-- The last of the transactions to spend or create an output under the key creates it. -/
def Recreates (txs : List Transaction) (key : String) : Prop :=
  ∃ earlier tx later, txs = earlier ++ tx :: later ∧ key ∈ tx.outputKeys ∧
    ∀ t ∈ later, key ∉ t.spentKeys ∧ key ∉ t.outputKeys

variable {tx : Transaction} {key : String}

lemma recreates_append_singleton {txs : List Transaction} :
    Recreates (txs ++ [tx]) key ↔ key ∈ tx.outputKeys ∨
      (Recreates txs key ∧ key ∉ tx.spentKeys ∧ key ∉ tx.outputKeys) := by
  constructor
  · rintro ⟨earlier, c, later, h, hc, hlater⟩
    rcases eq_nil_or_concat later with rfl | ⟨rest, last, rfl⟩
    · obtain rfl : tx = c := by simpa using (append_inj' h rfl).2
      exact .inl hc
    · rw [concat_eq_append, ← cons_append, ← append_assoc] at h
      obtain ⟨rfl, hlast⟩ := append_inj' h rfl
      obtain rfl : tx = last := by simpa using hlast
      refine .inr ⟨⟨earlier, c, rest, rfl, hc, fun t ht => hlater t (by simp [ht])⟩, ?_⟩
      exact hlater tx (by simp)
  · rintro (htx | ⟨⟨earlier, c, later, rfl, hc, hlater⟩, htx⟩)
    · exact ⟨txs, tx, [], rfl, htx, by simp⟩
    · refine ⟨earlier, c, later ++ [tx], by simp, hc, fun t ht => ?_⟩
      rcases mem_append.mp ht with ht | ht
      · exact hlater t ht
      · rwa [mem_singleton.mp ht]

/-- The last event of a key in the log of one transaction: outputs are written after the inputs
are marked, under distinct keys. -/
lemma endsWithPut_events_iff {h : UInt64} :
    KeyedLog.EndsWithPut key (tx.events h) ↔ key ∈ tx.outputKeys := by
  constructor
  · rintro ⟨pre, utxo, post, heq, -⟩
    exact Transaction.exists_put_mem_events.mp ⟨utxo, by rw [heq]; simp⟩
  · intro hkey
    obtain ⟨utxo, hmem⟩ := (Transaction.exists_put_mem_events (h := h)).mpr hkey
    rw [Transaction.put_mem_events] at hmem
    obtain ⟨pre, post, hsplit⟩ := append_of_mem hmem
    have hnd := tx.nodup_outputKeys
    rw [← tx.map_fst_created h, hsplit, map_append, map_cons] at hnd
    have hnot := (nodup_cons.mp (nodup_append.mp hnd).2.1).1
    refine ⟨tx.spentKeys.map .mark ++ pre.map fun e => .put e.1 e.2, utxo,
      post.map fun e => .put e.1 e.2, by simp [Transaction.events, hsplit], fun e he hk => ?_⟩
    obtain ⟨x, hx, rfl⟩ := mem_map.mp he
    exact hnot (mem_map.mpr ⟨x, hx, hk⟩)

lemma endsWithPut_iff_recreates (h : UInt64) (txs : List Transaction) (key : String) :
    KeyedLog.EndsWithPut key (txs.flatMap (Transaction.events h)) ↔ Recreates txs key := by
  induction txs using List.reverseRecOn with
  | nil =>
    constructor
    · rintro ⟨pre, utxo, post, heq, -⟩
      simp at heq
    · rintro ⟨earlier, c, later, heq, -⟩
      simp at heq
  | append_singleton txs tx ih =>
    rw [flatMap_append, flatMap_singleton, KeyedLog.endsWithPut_append,
      endsWithPut_events_iff, ih, Transaction.forall_mem_events_key_ne,
      recreates_append_singleton]

namespace Ledger

/-- The effect of one call on a pool and what it shares. -/
def step (C : Crypto) (s : UTXOPool × Host) : LedgerCall → UTXOPool × Host
  | .addUTXO tx blockHeight now => s.1.addUTXO C s.2 tx blockHeight now
  | .processBlock block now => (s.1.processBlockTransactions C s.2 block now).1

variable (C : Crypto) (s : UTXOPool × Host) (call : LedgerCall)

/-- **Every call runs the logs of its transactions.** -/
lemma utxos_step : (step C s call).1.utxos = KeyedLog.run UTXO.markSpent s.1.utxos
      (call.transactions.flatMap (Transaction.events call.height)) := by
  cases call with
  | addUTXO tx h now =>
    rw [step, UTXOPool.utxos_addUTXO]
    simp [LedgerCall.transactions, LedgerCall.height]
  | processBlock block now => exact UTXOPool.utxos_processBlockTransactions C s.1 s.2 block now

variable {s} {call}

/-- **What a call sets back**: an output spent before it is unspent after it exactly when the
call re-creates its key. -/
theorem unspent_step_iff {key : String} (h : s.1.Spent key) :
    (step C s call).1.Unspent key ↔ Recreates call.transactions key := by
  obtain ⟨utxo, hutxo, hspent⟩ := h
  rw [UTXOPool.Unspent, utxos_step, KeyedLog.lookup_run, hutxo,
    ← endsWithPut_iff_recreates call.height]
  refine KeyedLog.exists_foldl_cell_iff_endsWithPut (P := fun u : UTXO => u.spent = false)
    UTXO.markSpent (by simp) ?_ ?_
  · intro u hu
    obtain ⟨tx, -, hu⟩ := mem_flatMap.mp hu
    exact Transaction.spent_of_mem_created (Transaction.put_mem_events.mp hu)
  · rintro u hu
    obtain rfl : utxo = u := Option.some.inj hu
    simp [hspent]

lemma spent_step_of_not_unspent {key : String} (h : s.1.Spent key)
    (hnot : ¬ (step C s call).1.Unspent key) : (step C s call).1.Spent key := by
  obtain ⟨utxo, hutxo, -⟩ := h
  obtain ⟨w, hw⟩ : ∃ w, (step C s call).1.utxos.lookup key = some w := by
    rw [utxos_step, KeyedLog.lookup_run, hutxo]
    exact KeyedLog.exists_foldl_cell _ _ _
  cases hspent : w.spent with
  | true => exact ⟨w, hw, hspent⟩
  | false => exact absurd ⟨w, hw, hspent⟩ hnot

/-- **Spent outputs stay spent exactly when no call re-creates one** that is spent in the state
before it.

**Proof sketch.** Outputs never leave the pool, so what is spent and not set back remains spent;
this relation between states is transitive, so `unspent_step_iff` suffices. -/
theorem spent_forever_iff (C : Crypto) (s : UTXOPool × Host) (calls : List LedgerCall) :
    ((List.scanl (step C) s calls).Pairwise fun s t => ∀ key, s.1.Spent key → ¬ t.1.Unspent key) ↔
      Run.Along (step C)
        (fun s call => ∀ key, s.1.Spent key → ¬ Recreates call.transactions key) s calls := by
  constructor
  · intro h
    refine (Run.along_of_pairwise_scanl h).imp fun s call hstep key hkey => ?_
    rw [← unspent_step_iff C hkey]
    exact hstep key hkey
  · intro h
    have hspent : Run.Along (step C)
        (fun s call => ∀ key, s.1.Spent key → (step C s call).1.Spent key) s calls := by
      refine h.imp fun s call hcall key hkey => spent_step_of_not_unspent C hkey ?_
      rw [unspent_step_iff C hkey]
      exact hcall key hkey
    have hpairs : (List.scanl (step C) s calls).Pairwise
        fun s t => ∀ key, s.1.Spent key → t.1.Spent key :=
      (Run.pairwise_scanl_iff fun hab hbc key hkey => hbc key (hab key hkey)).mpr hspent
    exact hpairs.imp fun hst key hkey => (hst key hkey).not_unspent

def payment : Transaction where
  transactionID := "p"
  receiver := "bob"
  amount := 1
  outputs := [⟨"bob", 1, ""⟩]

def spendPayment : Transaction where
  transactionID := "q"
  sender := "bob"
  receiver := "carol"
  amount := 1
  inputs := [{ transactionID := "p", outputIndex := 0 }]
  outputs := [⟨"carol", 1, ""⟩]

/-- The payment is delivered, spent, and delivered again: its output is spent after the second
call and unspent after the third. -/
theorem spent_revived_by_redelivery : (List.foldl (step Crypto.sample) ({}, {})
        [.addUTXO payment 1 0, .addUTXO spendPayment 2 0]).1.Spent "p-0" ∧
      (List.foldl (step Crypto.sample) ({}, {})
        [.addUTXO payment 1 0, .addUTXO spendPayment 2 0, .addUTXO payment 1 0]).1.Unspent "p-0" :=
  ⟨⟨{ payment.newUTXO 1 ⟨"bob", 1, ""⟩ 0 with spent := true }, by decide +kernel, rfl⟩,
    ⟨payment.newUTXO 1 ⟨"bob", 1, ""⟩ 0, by decide +kernel, rfl⟩⟩

end Ledger

end HybridChain
