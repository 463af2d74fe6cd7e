import HybridChain.Mining

/-!
# Double spends in a mined block

Admission checks each transaction alone against the confirmed outputs, and mining takes the waiting
transactions as they are.

## Main definitions

* `ConflictFree`: no two transactions refer to the same output

## Main results

* `mined_block_no_double_spend`: a mined block is if the admitted transactions were
-/

namespace HybridChain

open List
open KeyedLog (Store)
open Crypto (sample)
open Transaction (verifySignature)

/-- The outputs that a transaction refers to. -/
def Transaction.references (tx : Transaction) : List (String × ℤ) :=
  tx.inputs.map fun input => (input.transactionID, input.outputIndex)

def regular (txs : List Transaction) : List Transaction := txs.filter fun tx => !tx.isSystem

/-- The outputs that the regular transactions of a list refer to. -/
def references (txs : List Transaction) : List (String × ℤ) :=
  (regular txs).flatMap Transaction.references

lemma regular_cons_of_isSystem {tx : Transaction} (h : tx.isSystem = true)
    (txs : List Transaction) : regular (tx :: txs) = regular txs := by
  simp [regular, h]

lemma references_cons_of_regular {tx : Transaction} (h : tx.isSystem = false)
    (txs : List Transaction) : references (tx :: txs) = tx.references ++ references txs := by
  simp [references, regular, h]

lemma nodup_references_of_subperm {s t : List Transaction} (h : (regular s).Subperm (regular t))
    (hnd : (references t).Nodup) : (references s).Nodup := by
  obtain ⟨l, hperm, hsub⟩ := h
  have hl : (l.flatMap Transaction.references).Nodup := (hsub.flatMap _).nodup hnd
  exact ((hperm.flatMap fun _ _ => .refl _).nodup_iff).mp hl

/-! ## Mining -/

lemma regular_assembled (C : Crypto) (env : MiningEnv) (n : Node) (previousBlock : Block)
    (minerAddress : String) : regular (assembled C env n previousBlock minerAddress) =
      regular (selectPending n.blockchain.mempool) := by
  simp only [assembled, rewardTransactions]
  split_ifs <;> simp [regular]

lemma selectPending_subperm (m : Mempool) : (selectPending (some m)).Subperm m.transactions :=
  (take_sublist _ _).subperm.trans (Mempool.sortByGasFee_perm _).subperm

/-- **The regular transactions of a mined block were selected from the mempool**, each at most once.

**Proof sketch.** The trie lists no transaction twice and only transactions that were inserted; the
rewards are not regular. -/
theorem Node.regular_mineBlock_subperm {C : Crypto} {env : MiningEnv} {n n' : Node}
    {minerAddress : String} {block : Block}
    (h : n.mineBlock C env minerAddress = some (n', .ok block)) :
    (regular block.transactions).Subperm (regular (selectPending n.blockchain.mempool)) := by
  obtain ⟨previousBlock, -, hprev, -⟩ := Node.mineBlock_inv h
  rw [Node.transactions_mineBlock h hprev, ← regular_assembled C env n previousBlock minerAddress]
  refine (subperm_of_subset ?_ PatriciaTrie.subset_of_insertBatch).filter _
  exact (PatriciaTrie.built_insertBatch C _).nodup_getAllTransactions

/-! ## Admission -/

namespace Mempool

variable (verify : Transaction → Bool)

/-- A call of `AddTransaction`, against the outputs at that time. -/
def offer (m : Mempool) (call : Transaction × Store String UTXO) : Mempool :=
  (m.addTransaction verify call.1 call.2).2

/-- A regular transaction that is valid and new to the mempool refers to no output twice, and to
none that a waiting transaction refers to. -/
def ConflictFree (m : Mempool) (call : Transaction × Store String UTXO) : Prop :=
  validateTransaction verify call.1 call.2 = true →
    (∀ t ∈ m.transactions, t.transactionID ≠ call.1.transactionID) →
    call.1.isSystem = false →
    call.1.references.Nodup ∧
      List.Disjoint call.1.references (HybridChain.references m.transactions)

variable {verify}

lemma foldl_offer_of_verify {calls : List (Transaction × Store String UTXO)}
    (h : ∀ call ∈ calls, verify call.1 = true) (m : Mempool) :
    calls.foldl (offer verify) m = calls.foldl (offer fun _ => true) m := by
  induction calls generalizing m with
  | nil => rfl
  | cons call calls ih =>
    rw [forall_mem_cons] at h
    rw [foldl_cons, foldl_cons, ih h.2, offer, offer, addTransaction_of_verify h.1]

lemma nodup_references_offer {m : Mempool} {call : Transaction × Store String UTXO}
    (hfree : ConflictFree verify m call) (hm : (HybridChain.references m.transactions).Nodup) :
    (HybridChain.references (m.offer verify call).transactions).Nodup := by
  rcases addTransaction_cases verify m call.1 call.2 with hperm | ⟨hsub, hnew, hvalid⟩
  · exact nodup_references_of_subperm (hperm.subperm.filter _) hm
  · refine nodup_references_of_subperm (hsub.filter _) ?_
    cases hsys : call.1.isSystem with
    | true =>
      rw [HybridChain.references, regular_cons_of_isSystem hsys]
      exact hm
    | false =>
      obtain ⟨hnd, hdisj⟩ := hfree hvalid hnew hsys
      rw [references_cons_of_regular hsys]
      exact hnd.append hm hdisj

end Mempool

/-- **No double spend in a block mined after conflict-free admissions.**

**Proof sketch.** The references of the waiting transactions stay distinct along the run; the
regular transactions of the block are among the waiting ones. -/
theorem mined_block_no_double_spend (C : Crypto) (verify : Transaction → Bool)
    (calls : List (Transaction × Store String UTXO))
    (hfree : Run.Along (Mempool.offer verify) (Mempool.ConflictFree verify) {} calls)
    (env : MiningEnv) {n n' : Node} {minerAddress : String} {block : Block}
    (hmempool : n.blockchain.mempool = some (calls.foldl (Mempool.offer verify) {}))
    (hmined : n.mineBlock C env minerAddress = some (n', .ok block)) :
    (references block.transactions).Nodup := by
  have hempty : (references ({} : Mempool).transactions).Nodup := nodup_nil
  have hwaiting : (references (calls.foldl (Mempool.offer verify) {}).transactions).Nodup :=
    Run.forall_mem_scanl (I := fun m : Mempool => (references m.transactions).Nodup)
      (fun _ _ hcall hm => Mempool.nodup_references_offer hcall hm) hempty hfree _
      (Run.foldl_mem_scanl _ _)
  have hselected := Node.regular_mineBlock_subperm hmined
  rw [hmempool] at hselected
  exact nodup_references_of_subperm (hselected.trans ((selectPending_subperm _).filter _)) hwaiting

/-! ### A miner with one validator -/

def spendGenesis (id : String) (index : ℤ) (amount : ℚ) : Transaction := Transaction.sampleSigned
  { transactionID := id
    receiver := "bob"
    amount := amount
    gasPrice := 10
    gasLimit := 21000
    inputs := [{ transactionID := "genesis", outputIndex := index }]
    outputs := [{ receiver := "bob", amount := amount }] }

lemma verifySignature_spendGenesis (id : String) (index : ℤ) (amount : ℚ) :
    (spendGenesis id index amount).verifySignature sample = true :=
  verifySignature_sampleSigned rfl

def genesisOutputs : Store String UTXO :=
  let owner := (spendGenesis "" 0 0).sender
  let output (index : ℤ) : UTXO :=
    { transactionID := "genesis", outputIndex := index, amount := 10, owner := owner }
  (Finmap.singleton "genesis-0" (output 0)).insert "genesis-1" (output 1)

def genesisCalls (txs : List Transaction) : List (Transaction × Store String UTXO) :=
  txs.map fun tx => (tx, genesisOutputs)

def miningNode (txs : List Transaction) : Node where
  blockchain :=
    { chain := [{}]
      utxoPool := some { utxos := genesisOutputs }
      mempool := some ((genesisCalls txs).foldl
        (Mempool.offer (verifySignature sample)) {})
      stakePool := agreeingPool }

lemma miningNode_eq {txs : List Transaction} (h : ∀ tx ∈ txs, tx.verifySignature sample = true) :
    miningNode txs =
      { blockchain := { (miningNode txs).blockchain with
          mempool := some ((genesisCalls txs).foldl (Mempool.offer fun _ => true) {}) } } := by
  have hcalls : ∀ call ∈ genesisCalls txs, call.1.verifySignature sample = true :=
    forall_mem_map.mpr h
  rw [← Mempool.foldl_offer_of_verify hcalls]
  rfl

def minedBlock (txs : List Transaction) : Option Block :=
  ((miningNode txs).mineBlock sample agreeingEnv "miner").bind fun r => r.2.toOption

theorem mined_block_two_payments :
    ∃ block, minedBlock [spendGenesis "a" 0 5, spendGenesis "b" 1 6] = some block ∧
      (references block.transactions).Nodup := by
  have hsome : (minedBlock [spendGenesis "a" 0 5, spendGenesis "b" 1 6]).isSome := by
    rw [minedBlock, miningNode_eq (by simp [verifySignature_spendGenesis])]
    decide +kernel
  obtain ⟨block, hblock⟩ := Option.isSome_iff_exists.mp hsome
  obtain ⟨n', hmined⟩ := Node.exists_of_bind_toOption hblock
  have hwaiting : references (Mempool.offer (verifySignature sample) {}
      (spendGenesis "a" 0 5, genesisOutputs)).transactions = [("genesis", 0)] := by
    rw [Mempool.offer, Mempool.addTransaction_of_verify (verifySignature_spendGenesis _ _ _)]
    decide +kernel
  have hfirst : List.Disjoint (spendGenesis "a" 0 5).references
      (references ({} : Mempool).transactions) := disjoint_nil_right _
  have hsecond : List.Disjoint (spendGenesis "b" 1 6).references [("genesis", 0)] := by
    simp [spendGenesis, Transaction.sampleSigned, Transaction.references]
  have hfree : Run.Along (Mempool.offer (verifySignature sample))
      (Mempool.ConflictFree (verifySignature sample)) {}
      (genesisCalls [spendGenesis "a" 0 5, spendGenesis "b" 1 6]) := by
    refine ⟨fun _ _ _ => ⟨nodup_singleton _, hfirst⟩, fun _ _ _ => ?_, trivial⟩
    rw [hwaiting]
    exact ⟨nodup_singleton _, hsecond⟩
  exact ⟨block, hblock, mined_block_no_double_spend sample
    (verifySignature sample) _ hfree agreeingEnv rfl hmined⟩

/-- Both payments out of one output are admitted, and the mined block has both. -/
theorem mined_block_spends_twice : (({} : Mempool).addTransaction (verifySignature sample)
      (spendGenesis "a" 0 5) genesisOutputs).1 = true ∧
    ((({} : Mempool).addTransaction (verifySignature sample)
      (spendGenesis "a" 0 5) genesisOutputs).2.addTransaction
        (verifySignature sample) (spendGenesis "b" 0 6) genesisOutputs).1 = true ∧
    (minedBlock [spendGenesis "a" 0 5, spendGenesis "b" 0 6]).map
      (fun block => references block.transactions) = some [("genesis", 0), ("genesis", 0)] := by
  rw [minedBlock, miningNode_eq (by simp [verifySignature_spendGenesis]),
    Mempool.addTransaction_of_verify (verifySignature_spendGenesis _ _ _),
    Mempool.addTransaction_of_verify (verifySignature_spendGenesis _ _ _)]
  decide +kernel

end HybridChain
