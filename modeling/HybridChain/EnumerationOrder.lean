import HybridChain.SpentOutputs

/-!
# Blocks and the order of their transactions

`GetAllTransactions` walks Go maps, so the transactions of a block are applied in an arbitrary
order. An output that is spent before it is created is left unspent.

## Main definitions

* `Independent`: no transaction spends what another one of the block creates

## Main results

* `processBlock_order_free_iff`: just then the order does not matter
-/

namespace HybridChain

open PatriciaTrie
open Crypto (sample)
open KeyedLog (lookup_run run)
open Transaction (events exists_put_mem_events mark_mem_events)

def Block.withTrie (block : Block) (t : PatriciaTrie) : Block :=
  { block with body := { block.body with transactions := t } }

/-- No transaction spends an output that another one creates. -/
def Independent (txs : List Transaction) : Prop :=
  ∀ c ∈ txs, ∀ s ∈ txs, c.transactionID ≠ s.transactionID → ∀ key ∈ c.outputKeys, key ∉ s.spentKeys

instance (txs : List Transaction) : Decidable (Independent txs) :=
  inferInstanceAs (Decidable (∀ c ∈ txs, ∀ s ∈ txs,
    c.transactionID ≠ s.transactionID → ∀ key ∈ c.outputKeys, key ∉ s.spentKeys))

variable {txs txs' : List Transaction} {l : List Transaction} {pool : UTXOPool} {block : Block}
  {key : String} {host : Host} {C : Crypto} {now : ℤ}

lemma Independent.subset (h : Independent txs) (hsub : txs' ⊆ txs) : Independent txs' :=
  fun c hc s hs => h c (hsub hc) s (hsub hs)

lemma events_share_marks {c s : Transaction} {h : UInt64} (hid : c.transactionID ≠ s.transactionID)
    (hcs : ∀ key ∈ c.outputKeys, key ∉ s.spentKeys)
    (hsc : ∀ key ∈ s.outputKeys, key ∉ c.spentKeys) :
    ∀ e ∈ c.events h, ∀ f ∈ s.events h, e.key = f.key → e = .mark e.key ∧ f = .mark f.key := by
  intro e he f hf hkey
  cases e with
  | mark j =>
    cases f with
    | mark k => exact ⟨rfl, rfl⟩
    | put k utxo =>
      obtain rfl : j = k := hkey
      exact absurd (mark_mem_events.mp he) (hsc j (exists_put_mem_events.mp ⟨utxo, hf⟩))
  | put j utxo =>
    have hj : j ∈ c.outputKeys := exists_put_mem_events.mp ⟨utxo, he⟩
    cases f with
    | mark k =>
      obtain rfl : j = k := hkey
      exact absurd (mark_mem_events.mp hf) (hcs j hj)
    | put k utxo' =>
      obtain rfl : j = k := hkey
      have hk : j ∈ s.outputKeys := exists_put_mem_events.mp ⟨utxo', hf⟩
      exact absurd (Transaction.transactionID_eq_of_mem_outputKeys hj hk) hid

/-- **Independent transactions may be applied in any order.** -/
theorem run_events_perm (h : UInt64) (hind : Independent txs)
    (huniq : ∀ c ∈ txs, ∀ s ∈ txs, c.transactionID = s.transactionID → c = s)
    (hperm : txs.Perm txs') (utxos : KeyedLog.Store String UTXO) :
    run UTXO.markSpent utxos (txs.flatMap (events h)) =
      run UTXO.markSpent utxos (txs'.flatMap (events h)) := by
  rw [KeyedLog.run, KeyedLog.run, List.foldl_flatMap, List.foldl_flatMap]
  refine hperm.foldl_eq' (fun c hc s hs utxos => ?_) utxos
  by_cases hid : c.transactionID = s.transactionID
  · rw [huniq c hc s hs hid]
  · exact KeyedLog.run_run_comm _
      (events_share_marks hid (hind c hc s hs hid) (hind s hs c hc (Ne.symm hid))) utxos

lemma unspent_of_created_last {c : Transaction}
    (hlast : block.transactions = l ++ [c]) (hkey : key ∈ c.outputKeys) :
    (pool.processBlockTransactions C host block now).1.1.Unspent key := by
  have hrec : Recreates block.transactions key := by
    rw [hlast]
    exact recreates_append_singleton.mpr (.inl hkey)
  obtain ⟨pre, utxo, post, hlog, hpost⟩ :=
    (endsWithPut_iff_recreates block.header.blockNumber _ _).mpr hrec
  have hput : .put key utxo ∈ block.transactions.flatMap
      (events block.header.blockNumber) := by simp [hlog]
  obtain ⟨tx, -, hput⟩ := List.mem_flatMap.mp hput
  refine ⟨utxo, ?_, Transaction.spent_of_mem_created (Transaction.put_mem_events.mp hput)⟩
  rw [UTXOPool.utxos_processBlockTransactions, lookup_run, hlog, KeyedLog.foldl_cell_put,
    KeyedLog.foldl_cell_of_key_ne _ hpost]

lemma not_unspent_of_spent_last {s : Transaction}
    (hlast : block.transactions = l ++ [s]) (hspent : key ∈ s.spentKeys)
    (hout : key ∉ s.outputKeys) :
    ¬ (pool.processBlockTransactions C host block now).1.1.Unspent key := by
  rintro ⟨utxo, hutxo, hunspent⟩
  rw [UTXOPool.utxos_processBlockTransactions, lookup_run, hlast, List.flatMap_append,
    List.flatMap_singleton, List.foldl_append,
    KeyedLog.foldl_cell_of_mark UTXO.markSpent (fun _ => rfl) (mark_mem_events.mpr hspent)
      fun v hv => hout (exists_put_mem_events.mp ⟨v, hv⟩)] at hutxo
  obtain ⟨v, -, rfl⟩ := Option.map_eq_some_iff.mp hutxo
  simp at hunspent

/-- **Block processing does not depend on the enumeration exactly when the transactions of the block
are independent.**

**Proof sketch.** If one transaction creates what another spends, the output is unspent if the
creator comes last, and spent if the spender does. Independent transactions commute. -/
theorem processBlock_order_free_iff (C : Crypto) (pool : UTXOPool) (host : Host) (block : Block)
    (now : ℤ) (hbuilt : Built C block.body.transactions) :
    (∀ t₁ t₂, Enumerates block.body.transactions t₁ → Enumerates block.body.transactions t₂ →
      (pool.processBlockTransactions C host (block.withTrie t₁) now).1.1.utxos =
        (pool.processBlockTransactions C host (block.withTrie t₂) now).1.1.utxos) ↔
      Independent block.transactions := by
  constructor
  · intro h c hc s hs hid key hkey hspent
    obtain ⟨t₁, l₁, ht₁, hl₁⟩ := hbuilt.exists_enumerates_last hc
    obtain ⟨t₂, l₂, ht₂, hl₂⟩ := hbuilt.exists_enumerates_last hs
    have hout : key ∉ s.outputKeys := fun hs =>
      hid (Transaction.transactionID_eq_of_mem_outputKeys hkey hs)
    have hunspent :
        (pool.processBlockTransactions C host (block.withTrie t₁) now).1.1.Unspent key :=
      unspent_of_created_last hl₁ hkey
    rw [UTXOPool.Unspent, h t₁ t₂ ht₁ ht₂] at hunspent
    have hlast : (block.withTrie t₂).transactions = l₂ ++ [s] := hl₂
    exact not_unspent_of_spent_last hlast hspent hout hunspent
  · intro hind t₁ t₂ ht₁ ht₂
    have hrun : ∀ t, Enumerates block.body.transactions t →
        (pool.processBlockTransactions C host (block.withTrie t) now).1.1.utxos =
          run UTXO.markSpent pool.utxos
            (block.transactions.flatMap (events block.header.blockNumber)) := by
      intro t ht
      rw [UTXOPool.utxos_processBlockTransactions]
      refine (run_events_perm _ hind ?_ ht.perm _).symm
      exact fun c hc s hs => hbuilt.eq_of_transactionID_eq hc hs
    rw [hrun t₁ ht₁, hrun t₂ ht₂]

open Ledger (payment spendPayment)

def blockOf (C : Crypto) (number : UInt64) (txs : List Transaction) : Block where
  header := { blockNumber := number }
  body := { transactions := new.insertBatch C txs }

theorem processBlock_order_free_payments : Built sample (blockOf sample 1
        [payment, { payment with transactionID := "r" }]).body.transactions ∧
      ∀ t₁ t₂, Enumerates (blockOf sample 1
          [payment, { payment with transactionID := "r" }]).body.transactions t₁ →
        Enumerates (blockOf sample 1
          [payment, { payment with transactionID := "r" }]).body.transactions t₂ →
        (({} : UTXOPool).processBlockTransactions sample {} ((blockOf sample 1
              [payment, { payment with transactionID := "r" }]).withTrie t₁) 0).1.1.utxos =
          (({} : UTXOPool).processBlockTransactions sample {} ((blockOf sample 1
              [payment, { payment with transactionID := "r" }]).withTrie t₂) 0).1.1.utxos := by
  have hind : Independent [payment, { payment with transactionID := "r" }] := by decide +kernel
  exact ⟨built_insertBatch _ _, (processBlock_order_free_iff _ _ _ _ _ (built_insertBatch _ _)).mpr
    (hind.subset subset_of_insertBatch)⟩

/-- A payment and the transaction that spends it, in one block: listed in this order the payment
ends up spent, listed the other way round it stays unspent. -/
theorem processBlock_depends_on_order : ∃ t₁ t₂,
      Enumerates (blockOf sample 1 [payment, spendPayment]).body.transactions t₁ ∧
      Enumerates (blockOf sample 1 [payment, spendPayment]).body.transactions t₂ ∧
      (({} : UTXOPool).processBlockTransactions sample {}
        ((blockOf sample 1 [payment, spendPayment]).withTrie t₁) 0).1.1.Spent "p-0" ∧
      (({} : UTXOPool).processBlockTransactions sample {}
        ((blockOf sample 1 [payment, spendPayment]).withTrie t₂) 0).1.1.Unspent "p-0" := by
  have hbuilt := built_insertBatch sample [payment, spendPayment]
  have hperm : (new.insertBatch sample [payment, spendPayment]).getAllTransactions.Perm
      [payment, spendPayment] := perm_insertBatch (by decide +kernel)
  obtain ⟨t₁, ht₁, hl₁⟩ := hbuilt.exists_enumerates_pair hperm
  obtain ⟨t₂, ht₂, hl₂⟩ := hbuilt.exists_enumerates_pair (hperm.trans (.swap _ _ _))
  refine ⟨t₁, t₂, ht₁, ht₂, ⟨{ payment.newUTXO 1 ⟨"bob", 1, ""⟩ 0 with spent := true }, ?_, rfl⟩,
    ⟨payment.newUTXO 1 ⟨"bob", 1, ""⟩ 0, ?_, rfl⟩⟩
  · rw [UTXOPool.utxos_processBlockTransactions, lookup_run, Block.transactions,
      Block.withTrie, hl₁]
    change List.foldl _ _ (List.flatMap (events 1) _) = _
    decide +kernel
  · rw [UTXOPool.utxos_processBlockTransactions, lookup_run, Block.transactions,
      Block.withTrie, hl₂]
    change List.foldl _ _ (List.flatMap (events 1) _) = _
    decide +kernel

end HybridChain
