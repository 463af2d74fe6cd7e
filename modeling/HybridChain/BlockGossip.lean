import HybridChain.BlockHandlers

/-!
# Block gossip, one handler at a time

A node handles any messages with `handleBlockStream`, one after the other.

The handler gives a block with number zero its own difficulty as cumulative difficulty, so the
results are about chains of at most `2 ^ 64` blocks; a slice holds fewer.

## Main definitions

* `gossip`: the node after some deliveries
* `Extended`: how a chain has grown
* `RecordsHash`, `Consecutive`

## Main results

* `gossip_extends`: gossip only extends the chain
-/

namespace HybridChain

open List
open Crypto (sample)

/-- A message with the peer it comes from and the times at which its outputs are processed. -/
structure BlockDelivery where
  peer : String
  data : Option BlockMessage
  now₁ : ℤ := 0
  now₂ : ℤ := 0

/-- The first block has number zero, and every other one the number after its predecessor's. -/
structure Consecutive (chain : List Block) : Prop where
  first : ∀ block ∈ chain.head?, block.header.blockNumber = 0
  next : chain.IsChain fun a b => b.header.blockNumber = a.header.blockNumber + 1

/-- The strings that are hashed for the headers of a chain. -/
def headerTexts (chain : List Block) : List (List UInt8) :=
  chain.map fun block => Text.bytes (hashInput block.header)

namespace Node

variable (C : Crypto) (n : Node)

def deliver (delivery : BlockDelivery) : Node :=
  (n.handleBlockStream C delivery.peer delivery.data delivery.now₁ delivery.now₂).1

def gossip (deliveries : List BlockDelivery) : Node := deliveries.foldl (deliver C) n

lemma gossip_concat (deliveries : List BlockDelivery) (delivery : BlockDelivery) :
    n.gossip C (deliveries ++ [delivery]) = (n.gossip C deliveries).deliver C delivery := by
  rw [gossip, gossip, foldl_append, foldl_cons, foldl_nil]

end Node

/-! ## Numbers and hashes -/

lemma exists_hashInput_eq (header : BlockHeader) :
    ∃ rest, hashInput header = toString header.version.toNat ++
      ("|" ++ (toString header.blockNumber.toNat ++ ("|" ++ rest))) := by
  -- with the parts named, no unification looks into the numerals
  delta hashInput
  generalize toString header.version.toNat = version
  generalize toString header.blockNumber.toNat = number
  generalize "|" = separator
  simp only [String.append_assoc]
  exact ⟨_, rfl⟩

/-- **The text of a header determines its number**: two numerals, each ended by a bar. -/
theorem blockNumber_eq_of_hashInput_eq {a b : BlockHeader} (h : hashInput a = hashInput b) :
    a.blockNumber = b.blockNumber := by
  obtain ⟨resta, ha⟩ := exists_hashInput_eq a
  obtain ⟨restb, hb⟩ := exists_hashInput_eq b
  rw [ha, hb] at h
  have hchars := congrArg String.toList h
  simp only [String.toList_append] at hchars
  have hbar : ("|" : String).toList = ['|'] := rfl
  rw [hbar] at hchars
  obtain ⟨-, hnumber⟩ := Text.numeralSep_inj (by decide) hchars
  obtain ⟨heq, -⟩ := Text.numeralSep_inj (by decide) hnumber
  exact UInt64.toNat_inj.mp heq

variable {block tip : Block}

namespace Consecutive

variable {chain : List Block}

lemma number_eq (h : Consecutive chain) : ∀ {i : ℕ} {block : Block},
    chain[i]? = some block → block.header.blockNumber = UInt64.ofNat i
  | 0, block, hi => h.first block (by rwa [List.head?_eq_getElem?])
  | i + 1, block, hi => by
    obtain ⟨a, ha⟩ := HashChain.exists_getElem?_pred hi
    rw [HashChain.rel_of_getElem? h.next ha hi, h.number_eq ha, UInt64.ofNat_add]
    rfl

lemma index_eq (h : Consecutive chain) (hlen : chain.length ≤ 2 ^ 64) {i j : ℕ} {a b : Block}
    (hi : chain[i]? = some a) (hj : chain[j]? = some b)
    (hab : a.header.blockNumber = b.header.blockNumber) : i = j := by
  have hilt := (List.getElem?_eq_some_iff.mp hi).1
  have hjlt := (List.getElem?_eq_some_iff.mp hj).1
  rw [h.number_eq hi, h.number_eq hj] at hab
  have hnat := congrArg UInt64.toNat hab
  rwa [UInt64.toNat_ofNat_of_lt' (by rw [UInt64.size]; omega),
    UInt64.toNat_ofNat_of_lt' (by rw [UInt64.size]; omega)] at hnat

lemma concat (h : Consecutive chain) (htip : chain.getLast? = some tip)
    (hnumber : block.header.blockNumber = tip.header.blockNumber + 1) :
    Consecutive (chain ++ [block]) where
  first b hb := by
    have hne : chain ≠ [] := by
      rintro rfl
      simp at htip
    rw [List.head?_append_of_ne_nil _ hne] at hb
    exact h.first b hb
  next := (HashChain.isChain_concat_iff htip).mpr ⟨h.next, hnumber⟩

lemma number_ne_zero (h : Consecutive (chain ++ [block])) (hne : chain ≠ [])
    (hlen : (chain ++ [block]).length ≤ 2 ^ 64) : block.header.blockNumber ≠ 0 := by
  intro hzero
  have hnew : (chain ++ [block])[chain.length]? = some block := List.getElem?_concat_length
  have hpos := length_pos_iff.mpr hne
  obtain ⟨first, hfirst⟩ : ∃ first, (chain ++ [block])[0]? = some first :=
    ⟨_, List.getElem?_eq_getElem (by rw [length_append]; omega)⟩
  have hsame := h.index_eq hlen hfirst hnew ((h.number_eq hfirst).trans hzero.symm)
  omega

end Consecutive

variable {C : Crypto} {chain : List Block}

lemma injOn_headerTexts_append {blocks : List Block}
    (hinj : Set.InjOn C.sha256 {data | data ∈ headerTexts (chain ++ blocks)}) :
    Set.InjOn C.sha256 {data | data ∈ headerTexts chain} := by
  refine hinj.mono fun data hdata => ?_
  change data ∈ headerTexts (chain ++ blocks)
  rw [headerTexts, map_append]
  exact mem_append_left _ hdata

/-- **No hash occurs twice** in a chain numbered from zero whose hashes are those of its headers. -/
theorem nodup_getHash (h : Consecutive chain) (hlen : chain.length ≤ 2 ^ 64)
    (hhash : ∀ block ∈ chain, block.getHash C = calculateHash C block.header)
    (hinj : Set.InjOn C.sha256 {data | data ∈ headerTexts chain}) :
    (chain.map (Block.getHash C)).Nodup := by
  rw [nodup_iff_getElem?_ne_getElem?]
  intro i j hij hj heq
  rw [length_map] at hj
  obtain ⟨a, ha⟩ : ∃ a, chain[i]? = some a := ⟨_, List.getElem?_eq_getElem (hij.trans hj)⟩
  obtain ⟨b, hb⟩ : ∃ b, chain[j]? = some b := ⟨_, List.getElem?_eq_getElem hj⟩
  rw [List.getElem?_map, List.getElem?_map, ha, hb, Option.map_some, Option.map_some,
    Option.some.injEq, hhash a (mem_of_getElem? ha), hhash b (mem_of_getElem? hb),
    calculateHash, calculateHash, C.hashHex_eq_iff] at heq
  have htext := hinj (mem_map_of_mem (mem_of_getElem? ha)) (mem_map_of_mem (mem_of_getElem? hb)) heq
  have hsame := h.index_eq hlen ha hb (blockNumber_eq_of_hashInput_eq (Text.bytes_inj htext))
  omega

variable {bc : Blockchain}

lemma getBlock_tip (htip : bc.chain.getLast? = some tip)
    (hnodup : (bc.chain.map (Block.getHash C)).Nodup) :
    bc.getBlock C (tip.getHash C) = .ok tip := by
  obtain ⟨before, hchain⟩ := List.getLast?_eq_some_iff.mp htip
  have hfind : bc.chain.find? (fun block => block.getHash C = tip.getHash C) = some tip := by
    rw [List.find?_eq_some_iff_append]
    refine ⟨by simp, before, [], hchain, ?_⟩
    intro block hblock
    rw [hchain, map_append, nodup_append] at hnodup
    have hne := hnodup.2.2 _ (mem_map_of_mem hblock) (tip.getHash C) (by simp)
    simpa using hne
  simp only [Blockchain.getBlock, hfind]

/-- If no hash occurs twice, the cumulative difficulty of a block that follows the tip and is not
numbered zero is that of the tip and its own. -/
lemma follows_of_linked
    (htip : bc.chain.getLast? = some tip) (hnodup : (bc.chain.map (Block.getHash C)).Nodup)
    (hlinked : Block.Linked C tip block) (hzero : block.header.blockNumber ≠ 0)
    (hdiff : bc.calculateCumulativeDifficulty C block.header = .ok block.cumulativeDifficulty) :
    Block.Follows C tip block := by
  obtain ⟨hprevious, hnumber⟩ := hlinked
  have hparent := getBlock_tip htip hnodup
  rw [← hprevious] at hparent
  simp only [Blockchain.calculateCumulativeDifficulty, hparent, hzero, if_false] at hdiff
  rw [if_neg (not_not.mpr hnumber.symm), Except.ok.injEq] at hdiff
  exact ⟨hnumber, hprevious, hdiff.symm⟩

/-! ## Messages -/

namespace Block

/-- Both fields for the hash have the hash of the header. -/
def RecordsHash (C : Crypto) (block : Block) : Prop :=
  block.hash = calculateHash C block.header ∧ block.originalHash = calculateHash C block.header

lemma RecordsHash.getHash_eq (h : block.RecordsHash C) :
    block.getHash C = calculateHash C block.header := by
  unfold getHash
  rw [h.2, ite_id]

lemma recordsHash_rememberHash (hsame : block.hash = block.originalHash)
    (hhash : block.getHash C = calculateHash C block.header) :
    (block.rememberHash C).RecordsHash C := by
  unfold getHash at hhash
  unfold RecordsHash rememberHash
  split_ifs at hhash ⊢ with hempty
  · exact ⟨hsame.trans hhash, hhash⟩
  · exact ⟨rfl, rfl⟩

end Block

namespace Node

variable {n : Node}

/-- **What a message can do**: the chain stays as it is, or a block is appended that has recorded
the hash of its header, is linked to the tip, and has the cumulative difficulty computed for it. -/
lemma deliver_cases (htip : n.blockchain.chain.getLast? = some tip)
    (delivery : BlockDelivery) : (n.deliver C delivery).blockchain.chain = n.blockchain.chain ∨
      ∃ block : Block, (n.deliver C delivery).blockchain.chain = n.blockchain.chain ++ [block] ∧
        block.RecordsHash C ∧ Block.Linked C tip block ∧
        n.blockchain.calculateCumulativeDifficulty C block.header =
          .ok block.cumulativeDifficulty := by
  rcases n.handleBlockStream_cases C delivery.peer delivery.data delivery.now₁ delivery.now₂ with
    ⟨-, hsame⟩ | ⟨msg, header, body, difficulty, -, -, -, hdiff, hvalid, -, heq⟩
  · exact .inl (congrArg Blockchain.chain hsame)
  · obtain ⟨latest, hlatest, hlinked⟩ := Handlers.linked_of_validateBlock hvalid
    obtain rfl : tip = latest := by
      simpa only [Blockchain.getLatestBlock, htip, Option.some.injEq] using hlatest
    have hhash := Handlers.hash_of_validateBlock hvalid
    refine .inr ⟨_, ?_, Block.recordsHash_rememberHash rfl hhash, ?_, ?_⟩
    · rw [deliver, heq, chain_acceptBlock]
    · simpa only [Block.Linked, Block.header_rememberHash] using hlinked
    · rw [Block.header_rememberHash, Block.cumulativeDifficulty_rememberHash]
      exact hdiff

end Node

/-- **A chain that gossip has extended**: it is numbered from zero, the new blocks have recorded the
hashes of their headers and, unless hashes collide or the numbers start again, follow their
predecessors. -/
structure Extended (C : Crypto) (start : List Block) (tip : Block) (appended : List Block) :
    Prop where
  numbers : Consecutive (start ++ appended)
  hashes : ∀ block ∈ appended, block.RecordsHash C
  follows : (start ++ appended).length ≤ 2 ^ 64 →
    Set.InjOn C.sha256 {data | data ∈ headerTexts (start ++ appended)} →
    (tip :: appended).IsChain (Block.Follows C)

namespace Extended

variable {start appended : List Block} {tip : Block}

lemma getHash_eq (h : Extended C start tip appended)
    (hhash : ∀ block ∈ start, block.getHash C = calculateHash C block.header) :
    ∀ block ∈ start ++ appended, block.getHash C = calculateHash C block.header := by
  intro block hblock
  rcases mem_append.mp hblock with hstart | happended
  · exact hhash block hstart
  · exact (h.hashes block happended).getHash_eq

lemma getLast?_eq (htip : start.getLast? = some tip) :
    (start ++ appended).getLast? = (tip :: appended).getLast? := by
  rw [List.getLast?_append, List.getLast?_cons, htip]
  cases appended.getLast? <;> rfl

/-- **One more block.** -/
lemma concat (h : Extended C start tip appended) (htip : start.getLast? = some tip)
    (hhash : ∀ block ∈ start, block.getHash C = calculateHash C block.header)
    (hchain : bc.chain = start ++ appended) {last : Block}
    (hlast : (start ++ appended).getLast? = some last) (hrecords : block.RecordsHash C)
    (hlinked : Block.Linked C last block)
    (hdiff : bc.calculateCumulativeDifficulty C block.header = .ok block.cumulativeDifficulty) :
    Extended C start tip (appended ++ [block]) where
  numbers := by
    rw [← append_assoc]
    exact h.numbers.concat hlast hlinked.2
  hashes b hb := by
    rcases mem_append.mp hb with hb | hb
    · exact h.hashes b hb
    · rwa [mem_singleton.mp hb]
  follows hlen hinj := by
    rw [← append_assoc] at hlen hinj
    have hnumbers := h.numbers.concat hlast hlinked.2
    have hlen' : (start ++ appended).length < 2 ^ 64 := by
      rw [length_append, length_singleton] at hlen
      omega
    have hinj' := injOn_headerTexts_append hinj
    have hnodup := nodup_getHash h.numbers hlen'.le (h.getHash_eq hhash) hinj'
    rw [← hchain] at hnodup
    have hzero := hnumbers.number_ne_zero (ne_nil_of_mem (mem_of_getLast? hlast)) hlen
    have hfollows := follows_of_linked (hchain ▸ hlast) hnodup hlinked hzero hdiff
    rw [← cons_append, HashChain.isChain_concat_iff ((getLast?_eq htip).symm.trans hlast)]
    exact ⟨h.follows hlen'.le hinj', hfollows⟩

end Extended

namespace Node

variable {n : Node}

lemma exists_extended (C : Crypto) (htip : n.blockchain.chain.getLast? = some tip)
    (hnumbers : Consecutive n.blockchain.chain)
    (hhash : ∀ block ∈ n.blockchain.chain, block.getHash C = calculateHash C block.header)
    (deliveries : List BlockDelivery) :
    ∃ appended, (n.gossip C deliveries).blockchain.chain = n.blockchain.chain ++ appended ∧
      Extended C n.blockchain.chain tip appended := by
  induction deliveries using List.reverseRecOn with
  | nil =>
    exact ⟨[], (append_nil _).symm, ⟨by rwa [append_nil], fun _ h => absurd h not_mem_nil,
        fun _ _ => isChain_singleton _⟩⟩
  | append_singleton deliveries delivery ih =>
    obtain ⟨appended, hchain, h⟩ := ih
    rw [gossip_concat]
    obtain ⟨last, hlast⟩ : ∃ last, (tip :: appended).getLast? = some last :=
      ⟨_, List.getLast?_eq_getLast_of_ne_nil (cons_ne_nil _ _)⟩
    rw [← Extended.getLast?_eq htip] at hlast
    rcases deliver_cases (C := C) (hchain ▸ hlast) delivery with hsame |
      ⟨block, hmore, hrecords, hlinked, hdiff⟩
    · exact ⟨appended, hsame.trans hchain, h⟩
    · refine ⟨appended ++ [block], ?_, h.concat htip hhash hchain hlast hrecords hlinked hdiff⟩
      rw [hmore, hchain, append_assoc]

/-- **Gossip only extends the chain.** Start from a chain numbered from zero in which every hash is
that of the header. Then its blocks stay where they are, and every new block has recorded the hash
of its header; as long as there are no more blocks than numbers, no hash occurs twice and every new
block follows its predecessor.

**Proof sketch.** An accepted block is linked to the tip, so the chain stays numbered from zero.
The text of a header determines its number, so the parent found under the previous hash is the tip.
-/
theorem gossip_extends (C : Crypto) (n : Node) (hne : n.blockchain.chain ≠ [])
    (hnumbers : Consecutive n.blockchain.chain)
    (hhash : ∀ block ∈ n.blockchain.chain, block.getHash C = calculateHash C block.header)
    (deliveries : List BlockDelivery) (hinj : Set.InjOn C.sha256
      {data | data ∈ headerTexts (n.gossip C deliveries).blockchain.chain}) :
    ∃ appended, (n.gossip C deliveries).blockchain.chain = n.blockchain.chain ++ appended ∧
      (∀ block ∈ appended, block.RecordsHash C) ∧
      ((n.gossip C deliveries).blockchain.chain.length ≤ 2 ^ 64 →
        ((n.gossip C deliveries).blockchain.chain.map (Block.getHash C)).Nodup ∧
        (n.blockchain.chain.getLast hne :: appended).IsChain (Block.Follows C)) := by
  obtain ⟨appended, hchain, h⟩ := exists_extended C
    (List.getLast?_eq_getLast_of_ne_nil hne) hnumbers hhash deliveries
  rw [hchain] at hinj ⊢
  refine ⟨appended, rfl, h.hashes, fun hlen => ?_⟩
  exact ⟨nodup_getHash h.numbers hlen (h.getHash_eq hhash) hinj, h.follows hlen hinj⟩

def zeroBlock : Block where
  header := { difficulty := 1 }
  cumulativeDifficulty := 1

def headerAfter (block : Block) (number : UInt64) : BlockHeader where
  blockNumber := number
  previousHash := block.getHash sample
  difficulty := 1

def bareDelivery (header : BlockHeader) : BlockDelivery where
  peer := "peer"
  data := some { header := some header, body := some {} }

def zeroNode : Node where
  blockchain := { chain := [zeroBlock] }

def repeatedBlock : List BlockDelivery :=
  [bareDelivery (headerAfter zeroBlock 1), bareDelivery (headerAfter zeroBlock 1)]

theorem gossip_extends_repeated :
    (zeroNode.gossip sample repeatedBlock).blockchain.chain.length = 2 ∧
      ∃ appended, (zeroNode.gossip sample repeatedBlock).blockchain.chain =
          zeroNode.blockchain.chain ++ appended ∧ (∀ block ∈ appended, block.RecordsHash sample) ∧
        (zeroBlock :: appended).IsChain (Block.Follows sample) := by
  have hlen : (zeroNode.gossip sample repeatedBlock).blockchain.chain.length = 2 := by
    decide +kernel
  have hnumbers : Consecutive zeroNode.blockchain.chain := ⟨by decide +kernel, isChain_singleton _⟩
  have hinj : ∀ a ∈ headerTexts (zeroNode.gossip sample repeatedBlock).blockchain.chain,
      ∀ b ∈ headerTexts (zeroNode.gossip sample repeatedBlock).blockchain.chain,
        sample.sha256 a = sample.sha256 b → a = b := by
    decide +kernel
  obtain ⟨appended, hchain, hhashes, hmore⟩ := gossip_extends sample zeroNode
    (cons_ne_nil _ _) hnumbers (by decide +kernel) repeatedBlock
    (fun a ha b hb => hinj a ha b hb)
  exact ⟨hlen, appended, hchain, hhashes, (hmore (by rw [hlen]; norm_num)).2⟩

def largestBlock : Block where
  header := headerAfter zeroBlock 18446744073709551615
  cumulativeDifficulty := 2

/-- After a block with the largest number comes one with number zero, whose cumulative difficulty is
its own difficulty. -/
theorem largest_number_restarts_work :
    let n : Node := { blockchain := { chain := [zeroBlock, largestBlock] } }
    let n' := n.gossip sample [bareDelivery (headerAfter largestBlock 0)]
    n.blockchain.chain.head?.map (fun block => block.header.blockNumber) = some 0 ∧
      (∀ block ∈ n.blockchain.chain, block.getHash sample = calculateHash sample block.header) ∧
      (∀ a ∈ headerTexts n'.blockchain.chain, ∀ b ∈ headerTexts n'.blockchain.chain,
        sample.sha256 a = sample.sha256 b → a = b) ∧
      n'.blockchain.chain.map (fun block => (block.header.difficulty, block.cumulativeDifficulty)) =
        [(1, 1), (1, 2), (1, 1)] := by
  decide +kernel

end Node

end HybridChain
