import HybridChain.NodeSync
import HybridChain.TrieRoot

/-!
# The JSON form of a block

`MarshalJSON` writes the transactions of a block as a list; `UnmarshalJSON` inserts them into a new
trie, and changes the header if the root is not the one there. Both enumerate maps of children.

Texts are valid UTF-8, which JSON leaves alone. The decoder makes a body and a trie in any case.

## Main definitions

* `PointerBlock`: a block with pointers that may be nil
* `RoundTrips`: it comes back, in whatever order maps are enumerated

## Main results

* `roundTrips_iff`: the blocks that come back
-/

namespace HybridChain

open PatriciaTrie (Enumerates hashedBy path named new)
open Crypto (sample)

/-- The body of a block, with a trie that may be nil. -/
structure PointerBody where
  transactions : Option PatriciaTrie := none
  receipts : List TxReceipt := []

structure PointerBlock where
  header : Option BlockHeader := none
  body : Option PointerBody := none
  hash : String := ""
  originalHash : String := ""
  cumulativeDifficulty : UInt64 := 0

def Block.toPointers (block : Block) : PointerBlock where
  header := some block.header
  body := some
    { transactions := some block.body.transactions
      receipts := block.body.receipts }
  hash := block.hash
  originalHash := block.originalHash
  cumulativeDifficulty := block.cumulativeDifficulty

/-! ## Encoding -/

namespace PointerBlock

variable (C : Crypto) (b : PointerBlock)

def trie : Option PatriciaTrie := b.body.bind PointerBody.transactions

def transactions : List Transaction := b.trie.elim [] PatriciaTrie.getAllTransactions

def receipts : List TxReceipt := b.body.elim [] PointerBody.receipts

/-- `Block.CalculateHash`. Nothing stands for the crash at a nil header, here and below. -/
def calculateHash : Option String := b.header.map (HybridChain.calculateHash C)

/-- `Block.Hash`. -/
def getHash : Option String :=
  if b.originalHash ≠ "" then some b.originalHash else b.calculateHash C

/-- The simplified form that `MarshalJSON` fills. -/
def simplified : Option SimplifiedBlock :=
  let simplified : SimplifiedBlock :=
    { hash := b.hash
      originalHash := b.originalHash
      header := b.header
      cumulativeDifficulty := b.cumulativeDifficulty }
  match b.trie with
  | none => some simplified
  | some trie => b.header.map fun header =>
    { simplified with
      body :=
        { transactions :=
            { rootHash := header.merkleRoot
              txList := trie.getAllTransactions }
          receipts := b.receipts } }

def marshalJSON : Option Json := b.simplified.map SimplifiedBlock.codec.encode

/-- The block with its trie, if there is one, enumerated as another one. -/
def enumeratedAs (u : PatriciaTrie) : PointerBlock :=
  { b with body := b.body.map fun body =>
      { body with transactions := body.transactions.map fun _ => u } }

end PointerBlock

lemma Block.marshalJSON_toPointers (block : Block) :
    block.toPointers.marshalJSON = some block.marshalJSON := rfl

/-! ## Decoding -/

namespace Block

variable (C : Crypto)

/-- `UnmarshalJSON` can read a value as a block: for some order in which the maps of the new trie
are enumerated. -/
def Decodes (j : Json) (block : Block) : Prop :=
  ∃ simplified header trie, SimplifiedBlock.codec.decode j = some simplified ∧
    simplified.header = some header ∧
    Enumerates (new.insertBatch C simplified.body.transactions.txList) trie ∧
    block = restoreWith C simplified header trie

variable {C} {block : Block}

lemma decodes_of_unmarshalJSON {j : Json}
    (h : Block.unmarshalJSON C j = some block) : Decodes C j block := by
  obtain ⟨simplified, hdecode, h⟩ := Option.bind_eq_some_iff.mp h
  obtain ⟨header, hheader, h⟩ := Option.bind_eq_some_iff.mp h
  exact ⟨simplified, header, _, hdecode, hheader, .refl _, (Option.some.inj h).symm⟩

lemma decodes_encode_iff {simplified : SimplifiedBlock} {header : BlockHeader}
    (hheader : simplified.header = some header) :
    Decodes C (SimplifiedBlock.codec.encode simplified) block ↔ ∃ trie,
      Enumerates (new.insertBatch C simplified.body.transactions.txList) trie ∧
      block = restoreWith C simplified header trie := by
  unfold Decodes
  rw [SimplifiedBlock.codec.decode_encode]
  simp only [Option.some.injEq, exists_and_left, exists_eq_left', hheader]

end Block

/-! ## The round trip -/

namespace PointerBlock

variable (C : Crypto) (b : PointerBlock)

/-- A decoded block has everything of the original. -/
structure Restores (block : Block) : Prop where
  header : b.header = some block.header
  cumulativeDifficulty : b.cumulativeDifficulty = block.cumulativeDifficulty
  receipts : b.receipts = block.body.receipts
  transactions : ∀ tx, tx ∈ b.transactions ↔ tx ∈ block.transactions
  getHash : b.getHash C = some (block.getHash C)
  calculateHash : b.calculateHash C = some (HybridChain.calculateHash C block.header)

/-- **The round trip**: in whatever order the trie is listed, the block is encoded, the encoding is
decoded, and whatever it is decoded to has everything of the block. -/
def RoundTrips : Prop :=
  ∀ u, (∀ t ∈ b.trie, Enumerates t u) → ∃ j, (b.enumeratedAs u).marshalJSON = some j ∧
    (∃ block, Block.Decodes C j block) ∧ ∀ block, Block.Decodes C j block → b.Restores C block

variable {C b} {header : BlockHeader}

/-- **What is written for a block with a header.** -/
lemma simplified_enumeratedAs (hheader : b.header = some header) (u : PatriciaTrie) :
    ∃ s, (b.enumeratedAs u).simplified = some s ∧ s.header = some header ∧
      s.originalHash = b.originalHash ∧ s.cumulativeDifficulty = b.cumulativeDifficulty ∧
      s.body.receipts = (b.trie.elim [] fun _ => b.receipts) ∧
      s.body.transactions.txList = b.trie.elim [] fun _ => u.getAllTransactions := by
  obtain ⟨_, body, hash, originalHash, cumulativeDifficulty⟩ := b
  obtain rfl : _ = some header := hheader
  cases body with
  | none => exact ⟨_, rfl, rfl, rfl, rfl, rfl, rfl⟩
  | some body =>
    obtain ⟨transactions, receipts⟩ := body
    cases transactions with
    | none | some trie => exact ⟨_, rfl, rfl, rfl, rfl, rfl, rfl⟩

lemma exists_enumeration (b : PointerBlock) : ∃ u, (∀ t ∈ b.trie, Enumerates t u) ∧
    (b.trie.elim [] fun _ => u.getAllTransactions) = b.transactions := by
  unfold transactions
  cases b.trie with
  | none => exact ⟨.new, by simp, rfl⟩
  | some t => exact ⟨t, by simp [Enumerates, EdgeTree.Reordered.refl], rfl⟩

/-- **What the round trip says of the decoder**: whatever the order in which it enumerates the trie
made from the transactions, it restores the block. -/
lemma RoundTrips.exists_restores (h : b.RoundTrips C) : ∃ header s, b.header = some header ∧
      s.body.receipts = (b.trie.elim [] fun _ => b.receipts) ∧
      s.body.transactions.txList = b.transactions ∧
      ∀ t, Enumerates (new.insertBatch C b.transactions) t →
        b.Restores C (Block.restoreWith C s header t) := by
  obtain ⟨u, hu, hlist⟩ := exists_enumeration b
  obtain ⟨j, hj, ⟨block, hblock⟩, hall⟩ := h u hu
  have hheader := (hall block hblock).header
  obtain ⟨s, hs, hsheader, -, -, hreceipts, htxList⟩ := simplified_enumeratedAs hheader u
  rw [hlist] at htxList
  obtain rfl : SimplifiedBlock.codec.encode s = j := by
    rw [marshalJSON, hs] at hj
    exact Option.some.inj hj
  refine ⟨block.header, s, hheader, hreceipts, htxList, fun t ht => ?_⟩
  rw [← htxList] at ht
  exact hall _ ((Block.decodes_encode_iff hsheader).mpr ⟨t, ht, rfl⟩)

/-- **The transactions of a block that comes back**: of two with the same identifier one is lost. -/
lemma RoundTrips.eq_of_transactionID_eq (h : b.RoundTrips C) {x y : Transaction}
    (hx : x ∈ b.transactions) (hy : y ∈ b.transactions)
    (hid : x.transactionID = y.transactionID) : x = y := by
  obtain ⟨header, s, -, -, -, hrestores⟩ := h.exists_restores
  have hmem : ∀ tx ∈ b.transactions,
      tx ∈ (new.insertBatch C b.transactions).getAllTransactions := by
    intro tx htx
    rw [← Block.transactions_restoreWith (C := C) s header]
    exact ((hrestores _ (.refl _)).transactions tx).mp htx
  exact (PatriciaTrie.wellFormed_insertBatch C b.transactions).eq_of_transactionID_eq (hmem x hx)
    (hmem y hy) hid

end PointerBlock

end HybridChain
