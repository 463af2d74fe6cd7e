import HybridChain.ReplayedOutputs

/-!
# Appending a block when the database fails

`addBlockWithoutValidation` of `blockchain.go` changes the chain in memory before it writes the
block and the pointer to the latest block to the database. Each write may fail.

A write that fails changes nothing in the database. Chains are compared up to the hashes that `Hash`
remembers.

## Main definitions

* `Appendable`: the checks
* `Unchanged`, `LatestStored`: what should hold after a failure

## Main results

* `failed_append_unchanged_iff`: when it does
-/

namespace HybridChain

def StoreFaults.Fails (faults : StoreFaults) : Prop :=
  faults.marshal ≠ none ∨ faults.putBlock ≠ none ∨ faults.putLatest ≠ none

/-! ## The checks -/

/-- **The block passes the checks**: it has its hash, its number is the next one, and it names the
last block. -/
structure Appendable (C : Crypto) (chain : List Block) (block : Block) : Prop where
  hash : (block.rememberHash C).hash = block.getHash C
  number : block.header.blockNumber = UInt64.ofNat chain.length
  linked : ∀ last, chain.getLast? = some last → block.header.previousHash = last.getHash C

namespace ChainState

variable {C : Crypto} {st : ChainState} {block : Block}

/-- Chain, current hash and last validator are as they were. -/
structure Unchanged (C : Crypto) (st st' : ChainState) : Prop where
  chain : SameBlocks C st.blockchain.chain st'.blockchain.chain
  currentHash : st'.blockchain.currentHash = st.blockchain.currentHash
  lastValidatorAddress : st'.lastValidatorAddress = st.lastValidatorAddress

/-- The record under `latest_block` names a stored block. -/
def LatestStored (st : ChainState) : Prop :=
  ∀ db, st.blockchain.db = some db → db.latestBlock ∈ db.blocks

/-- The state when the block has been added in memory. -/
def appended (C : Crypto) (st : ChainState) (block : Block) : ChainState where
  blockchain :=
    { st.blockchain with
      chain := rememberLast C st.blockchain.chain ++ [block.rememberHash C]
      currentHash := block.getHash C }
  lastValidatorAddress := st.recordValidator block.header

lemma all_getLast?_iff {chain : List Block} :
    (chain.getLast?.all fun last => block.header.previousHash == last.getHash C) = true ↔
      ∀ last, chain.getLast? = some last → block.header.previousHash = last.getHash C := by
  cases chain.getLast? <;> simp

variable {db : BlockDB} (faults : StoreFaults)

lemma addBlockWithoutValidation_of_not_appendable (h : ¬ Appendable C st.blockchain.chain block) :
    ∃ err, (st.addBlockWithoutValidation C block faults).2 = .error err ∧
      Unchanged C st (st.addBlockWithoutValidation C block faults).1 ∧
      (st.addBlockWithoutValidation C block faults).1.blockchain.db = st.blockchain.db := by
  have hsame : Unchanged C st st := ⟨.refl C _, rfl, rfl⟩
  unfold addBlockWithoutValidation
  simp only [Block.getHash_rememberHash, Block.header_rememberHash]
  split_ifs with hhash hnumber hlinked
  · exact ⟨_, rfl, hsame, rfl⟩
  · exact ⟨_, rfl, hsame, rfl⟩
  · rw [not_ne_iff] at hhash hnumber
    exact absurd ⟨hhash.symm, hnumber, all_getLast?_iff.mp hlinked⟩ h
  · exact ⟨_, rfl, ⟨sameBlocks_rememberLast C _, rfl, rfl⟩, rfl⟩

lemma addBlockWithoutValidation_of_appendable
    (h : Appendable C st.blockchain.chain block) : st.addBlockWithoutValidation C block faults =
      match st.blockchain.db with
      | none => (st.appended C block, .ok ())
      | some db =>
        let (db, result) := db.storeBlock C (block.rememberHash C) faults
        ({ st.appended C block with
          blockchain := { (st.appended C block).blockchain with db := some db } }, result) := by
  have hlinked := all_getLast?_iff.mpr h.linked
  unfold addBlockWithoutValidation
  simp only [Block.getHash_rememberHash, Block.header_rememberHash, h.hash, h.number, hlinked,
    ne_eq, not_true_eq_false, if_false]
  cases hdb : st.blockchain.db with
  | none => simp only [appended, hdb]
  | some db => rfl

/-! ## The database -/

lemma storeBlock_isError_iff {faults : StoreFaults} :
    (∃ err, (db.storeBlock C block faults).2 = .error err) ↔ faults.Fails := by
  obtain ⟨marshal, putBlock, putLatest⟩ := faults
  cases marshal <;> cases putBlock <;> cases putLatest <;>
    simp [BlockDB.storeBlock, StoreFaults.Fails]

lemma latestBlock_mem_storeBlock (h : db.latestBlock ∈ db.blocks) (faults : StoreFaults) :
    (db.storeBlock C block faults).1.latestBlock ∈ (db.storeBlock C block faults).1.blocks := by
  obtain ⟨marshal, putBlock, putLatest⟩ := faults
  cases marshal <;> cases putBlock <;> cases putLatest <;>
    simp [BlockDB.storeBlock, Finmap.mem_insert, h]

/-- **The pointer to the latest block never leaves the stored blocks**, whatever fails. -/
lemma latestStored_addBlockWithoutValidation (h : st.LatestStored) (block : Block)
    (faults : StoreFaults) : (st.addBlockWithoutValidation C block faults).1.LatestStored := by
  by_cases happend : Appendable C st.blockchain.chain block
  · rw [addBlockWithoutValidation_of_appendable faults happend]
    cases hdb : st.blockchain.db with
    | none =>
      intro db hsome
      have hnone : st.blockchain.db = some db := hsome
      rw [hdb] at hnone
      exact absurd hnone (Option.some_ne_none db).symm
    | some db =>
      intro db' hsome
      obtain rfl := Option.some.inj hsome
      exact latestBlock_mem_storeBlock (h db hdb) faults
  · obtain ⟨err, -, -, hdb⟩ := addBlockWithoutValidation_of_not_appendable faults happend
    intro db hsome
    rw [hdb] at hsome
    exact h db hsome

lemma not_unchanged_of_chain {st' : ChainState}
    (h : st'.blockchain.chain = (st.appended C block).blockchain.chain) : ¬ Unchanged C st st' := by
  intro hunchanged
  have hlength := hunchanged.chain.length_eq
  have hlast := (sameBlocks_rememberLast C st.blockchain.chain).length_eq
  rw [h, appended, List.length_append, ← hlast] at hlength
  simp at hlength

/-- **When a failed append leaves the chain alone**, and the record of the latest block sound:
exactly if the block does not pass the checks, or there is no database, or nothing fails on the way
to it.

**Proof sketch.** The checks come before every change. A block that passes them is in memory when
the database is written. -/
theorem failed_append_unchanged_iff (C : Crypto) (st : ChainState) (block : Block)
    (faults : StoreFaults) :
    let (st', result) := st.addBlockWithoutValidation C block faults
    ((∃ err, result = .error err) → Unchanged C st st' ∧ (st.LatestStored → st'.LatestStored)) ↔
      ¬ (Appendable C st.blockchain.chain block ∧ st.blockchain.db ≠ none ∧ faults.Fails) := by
  have hlatest : st.LatestStored → (st.addBlockWithoutValidation C block faults).1.LatestStored :=
    fun h => latestStored_addBlockWithoutValidation h block faults
  simp only
  by_cases happend : Appendable C st.blockchain.chain block
  · have hcall := addBlockWithoutValidation_of_appendable faults happend
    cases hdb : st.blockchain.db with
    | none =>
      refine iff_of_true ?_ fun h => h.2.1 rfl
      rw [hcall, hdb]
      rintro ⟨err, herr⟩
      exact absurd herr (by simp)
    | some db =>
      rw [hdb] at hcall
      have herror : (∃ err, (st.addBlockWithoutValidation C block faults).2 = .error err) ↔
          faults.Fails := by
        rw [hcall]
        exact storeBlock_isError_iff
      have hchanged : ¬ Unchanged C st (st.addBlockWithoutValidation C block faults).1 := by
        rw [hcall]
        exact not_unchanged_of_chain rfl
      rw [herror]
      constructor
      · rintro h ⟨-, -, hfails⟩
        exact hchanged (h hfails).1
      · intro h hfails
        exact absurd ⟨happend, Option.some_ne_none db, hfails⟩ h
  · obtain ⟨err, -, hunchanged, -⟩ := addBlockWithoutValidation_of_not_appendable faults happend
    exact iff_of_true (fun _ => ⟨hunchanged, hlatest⟩) fun h => happend h.1

def oneBlock : ChainState where
  blockchain := { chain := [{}], db := some {} }

def secondBlock : Block where
  header :=
    { blockNumber := 1
      previousHash := Block.getHash Crypto.sample {}
      validatedBy := "alice" }

/-- **A full disk does not keep the block out of the chain**: the call fails, and the chain has a
second block, another current hash and another last validator. -/
theorem failed_append_full_disk :
    let (st', result) := oneBlock.addBlockWithoutValidation Crypto.sample secondBlock
      { putBlock := some "no space left on device" }
    result = .error "failed to store block: no space left on device" ∧
      oneBlock.blockchain.chain.length = 1 ∧ st'.blockchain.chain.length = 2 ∧
      oneBlock.blockchain.currentHash = "" ∧ st'.blockchain.currentHash ≠ "" ∧
      oneBlock.lastValidatorAddress = "" ∧ st'.lastValidatorAddress = "alice" := by
  decide +kernel

end ChainState

end HybridChain
