import HybridChain.NodeSync

/-!
# Blocks by height

`saveBlock` writes a block to the database under its hash. `GetBlockByHeight` reads it under the
number of the block, with twenty digits.

## Main definitions

* `saveBlocks`, `storedHeader`
* `FindsByHeight`: a saved block is found by its number

## Main results

* `findsByHeight_iff`: only if its hash is just those digits, or something else was there before
-/

namespace HybridChain

open List
open KeyedLog (Store)
open Crypto (sample)

/-! ## Keys -/

lemma length_heightKey (height : UInt64) : (heightKey height).length = 20 := by
  have hle : (toString height.toNat).length ≤ 20 := by
    refine Nat.repr_length height.toNat 20 (by decide) ?_
    have := height.toNat_lt
    omega
  simp only [heightKey, String.length_append, String.length_ofList, length_replicate]
  omega

lemma calculateHash_ne_heightKey (C : Crypto) (header : BlockHeader) (height : UInt64) :
    calculateHash C header ≠ heightKey height := by
  intro heq
  have hlen := congrArg String.length heq
  have hhex : ∀ bs : List UInt8, (bs.flatMap Text.hexByte).length = 2 * bs.length := by
    intro bs
    induction bs with
    | nil => rfl
    | cons b bs ih =>
      rw [flatMap_cons, length_append, ih, length_cons, Text.hexByte]
      simp only [length_cons, length_nil]
      omega
  rw [length_heightKey, calculateHash, Crypto.hashHex, Text.hex, String.length_ofList, hhex,
    List.Vector.toList_length] at hlen
  omega

/-- **When a hash is a key of a number**: only if the block came with it. -/
lemma Block.getHash_eq_heightKey_iff (C : Crypto) (block : Block) (height : UInt64) :
    block.getHash C = heightKey height ↔ block.originalHash = heightKey height := by
  have hne : heightKey height ≠ "" := by
    intro heq
    simpa [heq] using length_heightKey height
  rw [getHash]
  split_ifs with horiginal
  · rfl
  · have hempty : block.originalHash = "" := not_not.mp horiginal
    exact iff_of_false (calculateHash_ne_heightKey C _ _) fun h => hne (h.symm.trans hempty)

/-! ## Saving blocks -/

namespace Blockchain

variable (C : Crypto)

def saveBlocks (bc : Blockchain) (blocks : List Block) : Except String Blockchain :=
  blocks.foldlM (fun bc block => bc.saveBlock C block) bc

/-- The header of the block that the database has under a number. -/
def storedHeader (bc : Blockchain) (height : UInt64) : Option BlockHeader :=
  (bc.db.bind fun db => (db.getBlock C (heightKey height)).toOption).map Block.header

/-- The number of a block leads to a block with its header. -/
def FindsByHeight (bc : Blockchain) (block : Block) : Prop :=
  ∃ found, (bc.getBlockByHeight C block.header.blockNumber).1 = some found ∧
    found.header = block.header

variable {C} {bc saved reader : Blockchain} {blocks : List Block} {block : Block}

lemma saveBlock_eq_ok_iff :
    bc.saveBlock C block = .ok saved ↔ ∃ db, bc.db = some db ∧ db.closed = false ∧
      saved = { bc with db := some { db with
        blocks := db.blocks.insert (block.getHash C) block.serialize
        latestBlock := block.getHash C } } := by
  rw [saveBlock]
  cases hdb : bc.db with
  | none => simp
  | some db =>
    by_cases hclosed : db.closed
    · simp [hclosed]
    · simp only [hclosed, Bool.false_eq_true, if_false, Except.ok.injEq, Option.some.injEq,
        exists_eq_left', true_and]
      exact eq_comm

lemma exists_saveBlocks {db : BlockDB} (hdb : bc.db = some db) (hopen : db.closed = false)
    (hsaved : bc.saveBlocks C blocks = .ok saved) :
    ∃ db', saved.db = some db' ∧ db'.closed = false ∧
      db'.blocks = blocks.foldl (fun m b => m.insert (b.getHash C) b.serialize) db.blocks := by
  induction blocks generalizing bc db with
  | nil =>
    obtain rfl := Except.ok.inj hsaved
    exact ⟨db, hdb, hopen, rfl⟩
  | cons block blocks ih =>
    rw [saveBlocks, foldlM_cons] at hsaved
    cases hfirst : bc.saveBlock C block with
    | error err => simp [hfirst, bind, Except.bind] at hsaved
    | ok next =>
      rw [hfirst] at hsaved
      obtain ⟨db₁, hdb₁, -, rfl⟩ := saveBlock_eq_ok_iff.mp hfirst
      obtain rfl : db₁ = db := Option.some.inj (hdb₁.symm.trans hdb)
      refine ih rfl ?_ hsaved
      exact hopen

lemma lookup_foldl_insert_of_forall_ne {key : String} (hkey : ∀ b ∈ blocks, b.getHash C ≠ key)
    (m : Store String Json) :
    (blocks.foldl (fun m b => m.insert (b.getHash C) b.serialize) m).lookup key = m.lookup key := by
  induction blocks generalizing m with
  | nil => rfl
  | cons b blocks ih =>
    rw [forall_mem_cons] at hkey
    rw [foldl_cons, ih hkey.2, Finmap.lookup_insert_of_ne _ (Ne.symm hkey.1)]

lemma lookup_foldl_insert_of_mem (hhash : (blocks.map (Block.getHash C)).Nodup)
    (hblock : block ∈ blocks) (m : Store String Json) :
    (blocks.foldl (fun m b => m.insert (b.getHash C) b.serialize) m).lookup (block.getHash C) =
      some block.serialize := by
  induction blocks generalizing m with
  | nil => cases hblock
  | cons b blocks ih =>
    rw [map_cons, nodup_cons] at hhash
    rw [foldl_cons]
    rcases mem_cons.mp hblock with rfl | hblock
    · rw [lookup_foldl_insert_of_forall_ne, Finmap.lookup_insert]
      exact fun b hb heq => hhash.1 (heq ▸ mem_map_of_mem hb)
    · exact ih hhash.2 hblock _

/-- **The header under a number after blocks were saved**: that of the block that came with just
this number as its hash, or else what was there before. -/
lemma storedHeader_saveBlocks {height : UInt64} (hsaved : bc.saveBlocks C blocks = .ok saved)
    (hhash : (blocks.map (Block.getHash C)).Nodup) (hne : blocks ≠ []) :
    (∀ b ∈ blocks, b.originalHash = heightKey height →
      saved.storedHeader C height = some b.header) ∧
    ((∀ b ∈ blocks, b.originalHash ≠ heightKey height) →
      saved.storedHeader C height = bc.storedHeader C height) := by
  obtain ⟨first, rest, rfl⟩ := exists_cons_of_ne_nil hne
  -- the first block is saved, so there is a database, and it is open
  obtain ⟨db, hdb, hopen⟩ : ∃ db, bc.db = some db ∧ db.closed = false := by
    rw [saveBlocks, foldlM_cons] at hsaved
    cases hfirst : bc.saveBlock C first with
    | error err => simp [hfirst, bind, Except.bind] at hsaved
    | ok next =>
      obtain ⟨db, hdb, hopen, -⟩ := saveBlock_eq_ok_iff.mp hfirst
      exact ⟨db, hdb, hopen⟩
  obtain ⟨db', hdb', hopen', hblocks⟩ := exists_saveBlocks hdb hopen hsaved
  constructor
  · intro b hb horiginal
    have hkey : b.getHash C = heightKey height :=
      (Block.getHash_eq_heightKey_iff C b height).mpr horiginal
    have hlookup : db'.blocks.lookup (heightKey height) = some b.serialize := by
      rw [hblocks, ← hkey, lookup_foldl_insert_of_mem hhash hb]
    rw [storedHeader, hdb', Option.bind_some,
      BlockDB.getBlock_of_lookup hopen' hlookup (unmarshalJSON_serialize C b)]
    rfl
  · intro hnot
    have hlookup : db'.blocks.lookup (heightKey height) = db.blocks.lookup (heightKey height) := by
      rw [hblocks]
      refine lookup_foldl_insert_of_forall_ne (fun b hb => ?_) _
      exact mt (Block.getHash_eq_heightKey_iff C b height).mp (hnot b hb)
    rw [storedHeader, storedHeader, hdb, hdb', Option.bind_some, Option.bind_some,
      BlockDB.getBlock, BlockDB.getBlock, hopen, hopen', hlookup]

lemma findsByHeight_iff_storedHeader
    (hmem : ∀ b ∈ bc.chain, b.header.blockNumber ≠ block.header.blockNumber) :
    bc.FindsByHeight C block ↔ bc.storedHeader C block.header.blockNumber = some block.header := by
  have hnone : bc.chain.findIdx? (fun b => b.header.blockNumber = block.header.blockNumber) =
      none := by
    simpa [List.findIdx?_eq_none_iff] using hmem
  rw [FindsByHeight, storedHeader, getBlockByHeight, hnone]
  simp only []
  generalize (bc.db.bind fun db =>
    (db.getBlock C (heightKey block.header.blockNumber)).toOption) = found
  cases found <;> simp

/-- **When a saved block is found by its number**, where the number is not in memory: if the block
came with its twenty digits as a hash, or no saved block did and the database had the same header
under the number before. -/
theorem findsByHeight_iff (hsaved : bc.saveBlocks C blocks = .ok saved)
    (hhash : (blocks.map (Block.getHash C)).Nodup)
    (hnumber : (blocks.map fun b => b.header.blockNumber).Nodup)
    (hdb : reader.db = saved.db) (hblock : block ∈ blocks)
    (hmem : ∀ b ∈ reader.chain, b.header.blockNumber ≠ block.header.blockNumber) :
    reader.FindsByHeight C block ↔ block.originalHash = heightKey block.header.blockNumber ∨
        (∀ b ∈ blocks, b.originalHash ≠ heightKey block.header.blockNumber) ∧
          bc.storedHeader C block.header.blockNumber = some block.header := by
  have hfinds : reader.FindsByHeight C block ↔
      saved.storedHeader C block.header.blockNumber = some block.header := by
    rw [findsByHeight_iff_storedHeader hmem, storedHeader, hdb, storedHeader]
  obtain ⟨hown, hbefore⟩ := storedHeader_saveBlocks hsaved hhash (ne_nil_of_mem hblock)
  rw [hfinds]
  by_cases hsome : ∃ b ∈ blocks, b.originalHash = heightKey block.header.blockNumber
  · obtain ⟨b, hb, horiginal⟩ := hsome
    rw [hown b hb horiginal, Option.some_inj]
    constructor
    · -- two saved blocks with one header are one block, their numbers being distinct
      intro hheader
      obtain rfl : b = block := inj_on_of_nodup_map hnumber hb hblock (by rw [hheader])
      exact .inl horiginal
    · rintro (hblock' | ⟨hnot, -⟩)
      · have hsame : b.getHash C = block.getHash C := by
          rw [(Block.getHash_eq_heightKey_iff C b _).mpr horiginal,
            (Block.getHash_eq_heightKey_iff C block _).mpr hblock']
        rw [inj_on_of_nodup_map hhash hb hblock hsame]
      · exact absurd horiginal (hnot b hb)
  · have hnot : ∀ b ∈ blocks, b.originalHash ≠ heightKey block.header.blockNumber :=
      fun b hb heq => hsome ⟨b, hb, heq⟩
    rw [hbefore hnot]
    exact ⟨fun h => .inr ⟨hnot, h⟩, fun h => h.elim (absurd · (hnot block hblock)) And.right⟩

def emptyStore : Blockchain := { db := some {} }

def numberedBlock : Block := { header := { blockNumber := 1 }, originalHash := heightKey 1 }

theorem finds_numberedBlock :
    ∃ saved, emptyStore.saveBlocks sample [numberedBlock] = .ok saved ∧
      FindsByHeight sample { db := saved.db } numberedBlock := by
  refine ⟨_, rfl, ?_⟩
  have hsaved : emptyStore.saveBlocks sample [numberedBlock] = .ok _ := rfl
  refine Iff.mpr (findsByHeight_iff hsaved (by simp) (by simp) rfl mem_cons_self ?_) (.inl rfl)
  simp

/-- A block with number 1 is saved and not found by its number. -/
theorem saved_block_not_found :
    ∃ saved, emptyStore.saveBlocks sample [{ header := { blockNumber := 1 } }] = .ok saved ∧
      (getBlockByHeight sample { db := saved.db } 1).1 = none := by
  refine ⟨_, rfl, ?_⟩
  have hkey : heightKey 1 ≠ calculateHash sample { blockNumber := 1 } :=
    (calculateHash_ne_heightKey _ _ _).symm
  simp [getBlockByHeight, BlockDB.getBlock, Block.getHash, Except.toOption,
    Finmap.lookup_insert_of_ne _ hkey]

end Blockchain

end HybridChain
