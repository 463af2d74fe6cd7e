import HybridChain.BlockGossip
import HybridChain.ChainGrowth

/-!
# Nodes that follow a miner

One node mines, and its blocks reach the others late, repeated, in any order, or not at all.

What the decoder makes of the body of a message is left open; the results are about headers.

## Main definitions

* `Network`, `Step`: a miner and its receivers
* `Trails`: a receiver has a first part of the miner's headers
* `Mirrors`, `next`: what a receiver has and is missing

## Main results

* `receivers_agree`: of any two receivers one trails the other
* `headers_gossip_eq`: the headers after any messages
-/

namespace HybridChain

open List
open Crypto (sample)

/-- The message that `BroadcastBlock` sends for a block, with the body as it is decoded. -/
def Block.message (C : Crypto) (block : Block) (body : BlockBody) : BlockMessage where
  header := some block.header
  body := some body
  hash := block.getHash C

/-- A copy of the message for a block of a chain. -/
structure BlockCopy where
  index : ℕ
  peer : String := ""
  body : BlockBody := {}
  now₁ : ℤ := 0
  now₂ : ℤ := 0

def BlockCopy.delivery (C : Crypto) (blocks : List Block) (copy : BlockCopy) : BlockDelivery where
  peer := copy.peer
  data := blocks[copy.index]?.map fun block => block.message C copy.body
  now₁ := copy.now₁
  now₂ := copy.now₂

def headersOf (chain : List Block) : List BlockHeader := chain.map Block.header

/-- A chain numbered from zero, whose blocks have recorded their hashes and are linked. -/
structure WellLinked (C : Crypto) (chain : List Block) : Prop where
  ne_nil : chain ≠ []
  numbers : Consecutive chain
  hashes : ∀ block ∈ chain, block.RecordsHash C
  links : chain.IsChain (Block.Linked C)

/-- The headers of a chain are a first part of those of another one. -/
structure Trails (blocks chain : List Block) : Prop where
  ne_nil : chain ≠ []
  headers : headersOf chain <+: headersOf blocks

variable {C : Crypto} {blocks chain : List Block} {n m : Node} {block : Block}

namespace Trails

variable (h : Trails blocks chain)
include h

lemma length_le : chain.length ≤ blocks.length := by
  simpa only [headersOf, length_map] using h.headers.length_le

lemma headers_eq : headersOf chain = (headersOf blocks).take chain.length := by
  simpa only [headersOf, length_map] using prefix_iff_eq_take.mp h.headers

lemma exists_tip : ∃ i tip last, i + 1 = chain.length ∧ chain.getLast? = some tip ∧
    blocks[i]? = some last ∧ tip.header = last.header := by
  have hpos := length_pos_iff.mpr h.ne_nil
  have hle := h.length_le
  obtain ⟨tip, htip⟩ : ∃ tip, chain.getLast? = some tip :=
    ⟨_, List.getLast?_eq_getLast_of_ne_nil h.ne_nil⟩
  obtain ⟨last, hlast⟩ : ∃ last, blocks[chain.length - 1]? = some last :=
    ⟨_, List.getElem?_eq_getElem (by omega)⟩
  have heq := congrArg List.getLast? h.headers_eq
  rw [List.getLast?_take, if_neg hpos.ne', headersOf, headersOf, List.getLast?_map, htip,
    List.getElem?_map, hlast] at heq
  exact ⟨_, tip, last, Nat.sub_add_cancel hpos, htip, hlast, Option.some.inj heq⟩

lemma concat {new : Block} (hblock : blocks[chain.length]? = some block)
    (hnew : new.header = block.header) : Trails blocks (chain ++ [new]) := by
  have hget : (headersOf blocks)[chain.length]? = some new.header := by
    rw [headersOf, List.getElem?_map, hblock, hnew, Option.map_some]
  have heq : headersOf (chain ++ [new]) = (headersOf blocks).take (chain.length + 1) := by
    rw [take_add_one, hget, ← h.headers_eq, headersOf, map_append]
    rfl
  exact ⟨by simp, heq ▸ take_prefix _ _⟩

end Trails

/-! ## One message -/

namespace Node

lemma broadcastedBlocks_updatePeerScore (peer : String) (delta : ℤ) :
    (n.updatePeerScore peer delta).broadcastedBlocks = n.broadcastedBlocks := by
  unfold updatePeerScore
  cases n.peers.lookup peer <;> rfl

lemma broadcastedBlocks_processBlockUTXOs (block : Block) (now : ℤ) :
    (n.processBlockUTXOs C block now).broadcastedBlocks = n.broadcastedBlocks := by
  unfold processBlockUTXOs
  cases n.blockchain.utxoPool <;> rfl

lemma broadcastedBlocks_acceptBlock (peer hash : String) (block : Block) (now₁ now₂ : ℤ) :
    (n.acceptBlock C peer hash block now₁ now₂).broadcastedBlocks =
      insert hash n.broadcastedBlocks := by
  simp only [acceptBlock, clearMempool, addBlockWithoutValidation,
    broadcastedBlocks_updatePeerScore, broadcastedBlocks_processBlockUTXOs]

/-- A message that is turned away leaves no trace in the remembered hashes. -/
lemma broadcastedBlocks_handleBlockStream {peer : String} {data : Option BlockMessage}
    {now₁ now₂ : ℤ} (h : (n.handleBlockStream C peer data now₁ now₂).2 ≠ .accepted) :
    (n.handleBlockStream C peer data now₁ now₂).1.broadcastedBlocks = n.broadcastedBlocks := by
  have herror := fun err => broadcastedBlocks_updatePeerScore (n := n) peer err
  revert h
  unfold handleBlockStream
  split
  · exact fun _ => herror _
  · split
    · split
      · exact fun _ => rfl
      · dsimp only
        split
        · exact fun _ => herror _
        · split
          · exact fun _ => rfl
          · exact fun h => absurd rfl h
    · exact fun _ => herror _

/-- **A message brings nothing or the next block**, whichever block it is for: the number of an
accepted block is the one after the tip. -/
lemma deliver_copy_cases (h : Trails blocks n.blockchain.chain) (hnumbers : Consecutive blocks)
    (hlen : blocks.length < 2 ^ 64) (copy : BlockCopy) :
    let n' := n.deliver C (copy.delivery C blocks)
    n'.blockchain.chain = n.blockchain.chain ∧ n'.broadcastedBlocks = n.broadcastedBlocks ∨
      ∃ block new, copy.index = n.blockchain.chain.length ∧
        blocks[n.blockchain.chain.length]? = some block ∧ new.header = block.header ∧
        new.RecordsHash C ∧ n'.blockchain.chain = n.blockchain.chain ++ [new] ∧
        n'.broadcastedBlocks = insert (block.getHash C) n.broadcastedBlocks := by
  rcases n.handleBlockStream_cases C copy.peer (copy.delivery C blocks).data copy.now₁ copy.now₂
    with ⟨hrefused, hsame⟩ | ⟨msg, header, body, difficulty, hdata, hheader, -, -, hvalid, -, heq⟩
  · exact .inl ⟨congrArg Blockchain.chain hsame, broadcastedBlocks_handleBlockStream hrefused⟩
  · obtain ⟨block, hblock, rfl⟩ := Option.map_eq_some_iff.mp hdata
    obtain rfl : block.header = header := Option.some.inj hheader
    obtain ⟨i, tip, last, hi, htip, hlast, htipHeader⟩ := h.exists_tip
    obtain ⟨latest, hlatest, -, hnumber⟩ := Handlers.linked_of_validateBlock hvalid
    obtain rfl : tip = latest := by
      simpa only [Blockchain.getLatestBlock, htip, Option.some.injEq] using hlatest
    have hindex : copy.index = n.blockchain.chain.length := by
      have hlt := (List.getElem?_eq_some_iff.mp hblock).1
      have hlt' := (List.getElem?_eq_some_iff.mp hlast).1
      have hone : (1 : UInt64).toNat = 1 := rfl
      have hnat := congrArg UInt64.toNat hnumber
      rw [htipHeader, hnumbers.number_eq hblock, hnumbers.number_eq hlast, UInt64.toNat_add,
        UInt64.toNat_ofNat_of_lt' (by rw [UInt64.size]; omega),
        UInt64.toNat_ofNat_of_lt' (by rw [UInt64.size]; omega)] at hnat
      omega
    refine .inr ⟨block, _, hindex, hindex ▸ hblock, ?_, ?_,
      (congrArg (fun r => r.1.blockchain.chain) heq).trans (n.chain_acceptBlock C _ _ _ _ _),
      (congrArg (fun r => r.1.broadcastedBlocks) heq).trans
        (broadcastedBlocks_acceptBlock _ _ _ _ _)⟩
    · exact Block.header_rememberHash C _
    · exact Block.recordsHash_rememberHash rfl (Handlers.hash_of_validateBlock hvalid)

lemma trails_deliver (h : Trails blocks n.blockchain.chain) (hnumbers : Consecutive blocks)
    (hlen : blocks.length < 2 ^ 64) (copy : BlockCopy) :
    Trails blocks (n.deliver C (copy.delivery C blocks)).blockchain.chain := by
  rcases deliver_copy_cases (C := C) h hnumbers hlen copy with
    ⟨hsame, -⟩ | ⟨block, new, -, hblock, hnew, -, hmore, -⟩
  · rwa [hsame]
  · exact hmore ▸ h.concat hblock hnew

end Node

lemma WellLinked.mine {env : MiningEnv} {minerAddress : String}
    (hlinked : WellLinked C n.blockchain.chain)
    (h : n.mineBlock C env minerAddress = some (m, .ok block)) :
    WellLinked C m.blockchain.chain := by
  obtain ⟨previous, hlast⟩ : ∃ previous, n.blockchain.chain.getLast? = some previous :=
    ⟨_, List.getLast?_eq_getLast_of_ne_nil hlinked.ne_nil⟩
  have hlatest : n.blockchain.getLatestBlock C = some previous := by
    rw [Blockchain.getLatestBlock, hlast]
  have hrecords := hlinked.hashes previous (mem_of_getLast? hlast)
  have hfollows := (Node.follows_mineBlock_iff h hlatest).mpr
    (hrecords.1.trans hrecords.getHash_eq.symm)
  have hnew : block.RecordsHash C := by
    obtain ⟨mined, nonce, who, sig, rfl, hfields⟩ := Node.exists_newBlock h hlatest
    have horiginal : mined.originalHash = "" := by rw [hfields]; rfl
    simp [Block.RecordsHash, Block.rememberHash, horiginal]
  rw [Node.chain_mineBlock h]
  refine ⟨by simp, hlinked.numbers.concat hlast hfollows.1, fun b hb => ?_, ?_⟩
  · rcases mem_append.mp hb with hb | hb
    · exact hlinked.hashes b hb
    · rwa [mem_singleton.mp hb]
  · exact (HashChain.isChain_concat_iff hlast).mpr ⟨hlinked.links, hfollows.2.1, hfollows.1⟩

/-! ## Networks -/

/-- A node that mines, and the nodes that it sends its blocks to. -/
structure Network (ι : Type) where
  miner : Node
  receivers : ι → Node

namespace Network

variable {ι : Type} [DecidableEq ι] {s t : Network ι}

/-- A copy of the message for a block that the miner has reaches a receiver. -/
def deliver (C : Crypto) (s : Network ι) (i : ι) (copy : BlockCopy) : Network ι :=
  let receiver := (s.receivers i).deliver C (copy.delivery C s.miner.blockchain.chain)
  { s with receivers := Function.update s.receivers i receiver }

/-- **What can happen**: a block is mined, or a copy of the message for some block of the miner, of
now or of long ago, reaches a receiver. -/
inductive Step (C : Crypto) (s : Network ι) : Network ι → Prop
  | mine {n : Node} {env : MiningEnv} {minerAddress : String} {block : Block}
      (h : s.miner.mineBlock C env minerAddress = some (n, .ok block)) :
    Step C s { s with miner := n }
  | deliver (i : ι) (copy : BlockCopy) : Step C s (s.deliver C i copy)

/-- The chain of the miner is well linked, and every receiver trails it. -/
structure Agrees (C : Crypto) (s : Network ι) : Prop where
  linked : WellLinked C s.miner.blockchain.chain
  trails : ∀ i, Trails s.miner.blockchain.chain (s.receivers i).blockchain.chain

/-- The miner's chain only grows. -/
lemma Step.miner_isPrefix (h : Step C s t) :
    s.miner.blockchain.chain <+: t.miner.blockchain.chain := by
  cases h with
  | mine h => exact ⟨_, (Node.chain_mineBlock h).symm⟩
  | deliver i copy => exact prefix_rfl

lemma Agrees.step (h : Agrees C s) (hstep : Step C s t)
    (hlen : t.miner.blockchain.chain.length < 2 ^ 64) : Agrees C t := by
  have hmore := hstep.miner_isPrefix
  cases hstep with
  | mine hmine =>
    refine ⟨h.linked.mine hmine, fun i => ⟨(h.trails i).ne_nil, ?_⟩⟩
    exact (h.trails i).headers.trans (hmore.map Block.header)
  | deliver i copy =>
    refine ⟨h.linked, fun j => ?_⟩
    show Trails _ (Function.update s.receivers i _ j).blockchain.chain
    rw [Function.update_apply]
    split_ifs
    · exact Node.trails_deliver (h.trails i) h.linked.numbers hlen copy
    · exact h.trails j

/-- **Receivers agree.** If all receivers trail a well-linked miner, then after any mining and any
messages, as long as there are numbers left, the headers of every receiver are a first part of the
miner's, so of any two receivers one trails the other. -/
theorem receivers_agree (hstart : Agrees C s) (hrun : Relation.ReflTransGen (Step C) s t)
    (hlen : t.miner.blockchain.chain.length < 2 ^ 64) (i j : ι) :
    let received := fun i => headersOf (t.receivers i).blockchain.chain
    received i <+: headersOf t.miner.blockchain.chain ∧
      (received i <+: received j ∨ received j <+: received i) := by
  have h : Agrees C t := by
    induction hrun with
    | refl => exact hstart
    | tail _ hstep ih => exact (ih (hstep.miner_isPrefix.length_le.trans_lt hlen)).step hstep hlen
  exact ⟨(h.trails i).headers, prefix_or_prefix_of_prefix (h.trails i).headers (h.trails j).headers⟩

def minedBlock (previous : Block) (number : UInt64) : Block :=
  Block.rememberHash sample { header := Node.headerAfter previous number }

def minedBlocks : List Block :=
  let first := Node.zeroBlock.rememberHash sample
  let second := minedBlock first 1
  [first, second, minedBlock second 2]

def lateNode : Node where
  blockchain := { chain := minedBlocks.take 1 }

lemma wellLinked_minedBlocks : WellLinked sample minedBlocks :=
  ⟨cons_ne_nil _ _, ⟨by decide +kernel, by decide +kernel⟩,
    by unfold Block.RecordsHash; decide +kernel, by decide +kernel⟩

lemma trails_lateNode : Trails minedBlocks lateNode.blockchain.chain := ⟨cons_ne_nil _ _, ⟨_, rfl⟩⟩

def twoReceivers : Network Bool where
  miner := { blockchain := { chain := minedBlocks } }
  receivers _ := lateNode

theorem receivers_agree_one_behind :
    let t := twoReceivers.deliver sample true { index := 1 }
    headersOf (t.receivers false).blockchain.chain <+:
        headersOf (t.receivers true).blockchain.chain ∨
      headersOf (t.receivers true).blockchain.chain <+:
        headersOf (t.receivers false).blockchain.chain :=
  (receivers_agree (s := twoReceivers) ⟨wellLinked_minedBlocks, fun _ => trails_lateNode⟩
    (.single (.deliver true { index := 1 })) (by decide) false true).2

end Network

/-! ## Catching up -/

namespace Node

/-- The node trails a chain, has the hashes of its headers, and remembers only those. -/
structure Mirrors (C : Crypto) (blocks : List Block) (n : Node) : Prop extends
    Trails blocks n.blockchain.chain where
  hashes : ∀ block ∈ n.blockchain.chain, block.getHash C = calculateHash C block.header
  seen : ∀ hash ∈ n.broadcastedBlocks, hash ∈ n.blockchain.chain.map (Block.getHash C)

/-- How many of the blocks a node has after a message for the block with an index. -/
def next (total length index : ℕ) : ℕ :=
  if index = length ∧ length < total then length + 1 else length

variable (hlinked : WellLinked C blocks) (hlen : blocks.length < 2 ^ 64)
  (hinj : Set.InjOn C.sha256 {data | data ∈ headerTexts blocks})
include hlinked

lemma Mirrors.hashes_isPrefix (h : n.Mirrors C blocks) :
    n.blockchain.chain.map (Block.getHash C) <+: blocks.map (Block.getHash C) := by
  have hmap : ∀ chain : List Block, (∀ b ∈ chain, b.getHash C = calculateHash C b.header) →
      chain.map (Block.getHash C) = (headersOf chain).map (calculateHash C) := by
    intro chain hhash
    rw [headersOf, map_map]
    exact map_congr_left hhash
  rw [hmap _ h.hashes, hmap _ fun b hb => (hlinked.hashes b hb).getHash_eq]
  exact h.headers.map _

include hlen hinj

/-- **The next block passes the checks**: its parent is the tip, the only block with its hash, and
its own hash is not remembered. -/
lemma Mirrors.acceptsHeader (h : n.Mirrors C blocks)
    (hblock : blocks[n.blockchain.chain.length]? = some block) :
    n.AcceptsHeader C block.header (block.getHash C) := by
  have hself := (hlinked.hashes block (mem_of_getElem? hblock)).getHash_eq
  have hnodup := nodup_getHash hlinked.numbers hlen.le
    (fun b hb => (hlinked.hashes b hb).getHash_eq) hinj
  obtain ⟨rest, hrest⟩ := h.hashes_isPrefix hlinked
  rw [← hrest, nodup_append] at hnodup
  obtain ⟨i, tip, last, hi, htip, hlast, htipHeader⟩ := h.exists_tip
  obtain ⟨hprevious, hnumber⟩ := HashChain.rel_of_getElem? hlinked.links hlast (hi ▸ hblock)
  rw [(hlinked.hashes last (mem_of_getElem? hlast)).getHash_eq, ← htipHeader,
    ← h.hashes tip (mem_of_getLast? htip)] at hprevious
  rw [← htipHeader] at hnumber
  refine ⟨?_, ?_, fun hseen => ?_⟩
  · simp only [Blockchain.calculateCumulativeDifficulty, hprevious, getBlock_tip htip hnodup.1]
    split_ifs with hzero hne
    · rfl
    · exact absurd hnumber.symm hne
    · rfl
  · have hvalid : ∀ b : Block, b.header = block.header → b.originalHash = block.getHash C →
        n.blockchain.validateBlock C b = .ok () := by
      intro b hheader horiginal
      have hget : b.getHash C = block.getHash C := by
        rw [Block.getHash, horiginal, if_pos (block.getHash_ne_empty C)]
      simp [Blockchain.validateBlock, Blockchain.getLatestBlock, htip, hget, hheader, hself,
        hprevious, hnumber]
    exact hvalid _ rfl rfl
  · have hget := congrArg (fun l => l[n.blockchain.chain.length]?) hrest
    simp only [List.getElem?_map, hblock] at hget
    rw [List.getElem?_append_right (by simp)] at hget
    exact hnodup.2.2 _ (h.seen _ hseen) _ (mem_of_getElem? hget) rfl

/-- The block that a receiver is missing is added when it arrives. -/
lemma Mirrors.chain_deliver_ne (h : n.Mirrors C blocks) {copy : BlockCopy}
    (hindex : copy.index = n.blockchain.chain.length)
    (hlt : n.blockchain.chain.length < blocks.length) :
    (n.deliver C (copy.delivery C blocks)).blockchain.chain ≠ n.blockchain.chain := by
  obtain ⟨block, hblock⟩ : ∃ block, blocks[n.blockchain.chain.length]? = some block :=
    ⟨_, List.getElem?_eq_getElem hlt⟩
  obtain ⟨difficulty, heq⟩ := n.handleBlockStream_of_acceptsHeader C
    (h.acceptsHeader hlinked hlen hinj hblock) copy.peer copy.body copy.now₁ copy.now₂
  have hdata : (copy.delivery C blocks).data = some (block.message C copy.body) := by
    rw [BlockCopy.delivery, hindex, hblock, Option.map_some]
  intro hsame
  rw [Node.deliver, hdata] at hsame
  have hlonger := (congrArg (fun r => r.1.blockchain.chain.length) heq).trans
    (congrArg List.length (n.chain_acceptBlock C _ _ _ _ _))
  rw [length_append] at hlonger
  exact absurd ((congrArg List.length hsame).symm.trans hlonger) (by simp)

/-- **One message**: the node takes the block if it is the next one, and stays as it is if not. -/
lemma Mirrors.deliver (h : n.Mirrors C blocks) (copy : BlockCopy) :
    (n.deliver C (copy.delivery C blocks)).Mirrors C blocks ∧
      (n.deliver C (copy.delivery C blocks)).blockchain.chain.length =
        next blocks.length n.blockchain.chain.length copy.index := by
  rcases deliver_copy_cases (C := C) h.toTrails hlinked.numbers hlen copy with
    ⟨hsame, hseen⟩ | ⟨block, new, hindex, hblock, hnew, hrecords, hmore, hseen⟩
  · have hnot : ¬ (copy.index = n.blockchain.chain.length ∧
        n.blockchain.chain.length < blocks.length) := fun hnext =>
      h.chain_deliver_ne hlinked hlen hinj hnext.1 hnext.2 hsame
    rw [hsame, next, if_neg hnot]
    exact ⟨⟨hsame ▸ h.toTrails, hsame ▸ h.hashes, by rw [hsame, hseen]; exact h.seen⟩, rfl⟩
  · rw [next, if_pos ⟨hindex, (List.getElem?_eq_some_iff.mp hblock).1⟩, hmore]
    have hhash : block.getHash C = new.getHash C := by
      rw [hrecords.getHash_eq, hnew, (hlinked.hashes block (mem_of_getElem? hblock)).getHash_eq]
    refine ⟨⟨hmore ▸ h.concat hblock hnew, fun b hb => ?_, fun hash hmem => ?_⟩, by simp⟩
    · rcases mem_append.mp (hmore ▸ hb) with hb | hb
      · exact h.hashes b hb
      · rw [mem_singleton.mp hb, hrecords.getHash_eq]
    · rw [hmore, map_append, mem_append]
      rcases Finset.mem_insert.mp (hseen ▸ hmem) with rfl | hmem
      · exact .inr (by simp [hhash])
      · exact .inl (h.seen hash hmem)

/-- **What a receiver has** after any copies of messages for a well-linked chain of which it had a
first part: the first headers up to a number that grows by one at each message for the block that is
missing next, and at no other. -/
theorem headers_gossip_eq (h : n.Mirrors C blocks) (copies : List BlockCopy) :
    headersOf (n.gossip C (copies.map (BlockCopy.delivery C blocks))).blockchain.chain =
      (headersOf blocks).take ((copies.map BlockCopy.index).foldl (next blocks.length)
        n.blockchain.chain.length) := by
  induction copies generalizing n with
  | nil => exact h.headers_eq
  | cons copy copies ih =>
    obtain ⟨hnext, hlength⟩ := h.deliver hlinked hlen hinj copy
    rw [map_cons, map_cons, foldl_cons, ← hlength]
    exact ih hnext

open Network in
omit hlinked hlen hinj in
theorem headers_gossip_late :
    headersOf (lateNode.gossip sample (([2, 1, 0, 1, 2].map fun i =>
      ({ index := i } : BlockCopy)).map (BlockCopy.delivery sample minedBlocks))
      ).blockchain.chain = headersOf minedBlocks := by
  have hinj : ∀ a ∈ headerTexts minedBlocks, ∀ b ∈ headerTexts minedBlocks,
      sample.sha256 a = sample.sha256 b → a = b := by decide +kernel
  exact headers_gossip_eq wellLinked_minedBlocks (by decide) (fun a ha b hb => hinj a ha b hb)
    ⟨trails_lateNode, by decide +kernel, by decide +kernel⟩ _

end Node

end HybridChain
