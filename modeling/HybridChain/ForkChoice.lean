import HybridChain.Lib.HashChain
import HybridChain.Node

/-!
# Fork resolution

`ResolveFork` of `blockchain.go`: a longer candidate chain with a greater cumulative difficulty
replaces the current one after the common ancestor.

`Block.Hash` remembers the hash it computes in the block it is called on: in `findCommonAncestor`
the block of the current chain and a copy of the candidate's, in `validateChainSegment` the
candidate's, in `ValidateCandidateChain` a copy. The candidate is not a part of the current chain.

## Main definitions

* `resolveFork`, `findCommonAncestor`, `validateCandidateChain`, `reorganizeChain`
* `ValidFrom`: what validation checks

## Main results

* `resolveFork_sound`: what has been adopted is valid
* `resolveFork_adopts`: a valid candidate is adopted
-/

namespace HybridChain

open List
open Crypto (sample)

/-! ## Checks of a chain -/

/-- The checks of a block against the block before it: number, previous hash and cumulative
difficulty. -/
def Block.Follows (C : Crypto) (previous block : Block) : Prop :=
  block.header.blockNumber = previous.header.blockNumber + 1 ∧
    block.header.previousHash = previous.getHash C ∧
    block.cumulativeDifficulty = previous.cumulativeDifficulty + block.header.difficulty.toUInt64

instance (C : Crypto) (previous block : Block) : Decidable (Block.Follows C previous block) :=
  inferInstanceAs (Decidable (_ ∧ _ ∧ _))

/-- The loop of `ValidateCandidateChain` over neighbouring blocks. -/
def validateLinks (C : Crypto) : List Block → Bool
  | previous :: block :: blocks =>
    if Block.Follows C previous block then validateLinks C (block :: blocks) else false
  | _ => true

/-- The previous hash of a first block. -/
def genesisPreviousHash : String := "0x00000000000000000000000000000000"

def validateCandidateChain (C : Crypto) : List Block → Bool
  | [] => false
  | first :: blocks =>
    if first.header.blockNumber = 0 ∧ (first.header.previousHash ≠ genesisPreviousHash ∨
        first.cumulativeDifficulty ≠ first.header.difficulty.toUInt64) then false
    else validateLinks C (first :: blocks)

/-- `validateChainSegment`, with the hashes that it makes the segment remember. -/
def validateChainSegment (C : Crypto) : List Block → Bool × List Block
  | previous :: block :: blocks =>
    if Block.Follows C previous block then
      let (valid, segment) := validateChainSegment C (block :: blocks)
      (valid, previous.rememberHash C :: segment)
    else (false, previous.rememberHash C :: block :: blocks)
  | segment => (true, segment)

/-! ## The search for an ancestor -/

/-- The inner loop of `findCommonAncestor`, from the end of the current chain: the index of a block
with the hash, and the chain with the hashes remembered on the way. -/
def findHash (C : Crypto) (hash : String) : List Block → Option ℕ × List Block
  | [] => (none, [])
  | block :: blocks =>
    match findHash C hash blocks with
    | (some j, blocks) => (some (j + 1), block :: blocks)
    | (none, blocks) =>
      (if block.getHash C = hash then some 0 else none, block.rememberHash C :: blocks)

/-- `findCommonAncestor`, from the end of the candidate chain. The index returned is one into the
current chain. -/
def findCommonAncestor (C : Crypto) (chain : List Block) : List Block → Option ℕ × List Block
  | [] => (none, chain)
  | candidateBlock :: candidateChain =>
    match findCommonAncestor C chain candidateChain with
    | (some j, chain) => (some j, chain)
    | (none, chain) => findHash C (candidateBlock.getHash C) chain

namespace Blockchain

/-- `reorganizeChain`: splice, and restore the old chain if the result does not validate. -/
def reorganizeChain (C : Crypto) (bc : Blockchain) (newChain : List Block)
    (commonAncestorIndex : ℕ) : Bool × Blockchain :=
  let chain := bc.chain.take (commonAncestorIndex + 1) ++ newChain.drop (commonAncestorIndex + 1)
  if validateCandidateChain C chain then (true, { bc with chain := chain }) else (false, bc)

def resolveFork (C : Crypto) (bc : Blockchain) (candidateChain : List Block) : Bool × Blockchain :=
  if candidateChain.length ≤ bc.chain.length then (false, bc)
  else
    match findCommonAncestor C bc.chain candidateChain with
    | (none, chain) => (false, { bc with chain := chain })
    | (some commonAncestorIndex, chain) =>
      let bc := { bc with chain := chain }
      let (valid, segment) := validateChainSegment C (candidateChain.drop commonAncestorIndex)
      let candidateChain := candidateChain.take commonAncestorIndex ++ segment
      if ¬ valid then (false, bc)
      else
        match bc.chain.getLast?, candidateChain.getLast? with
        | some current, some candidate =>
          if candidate.cumulativeDifficulty ≤ current.cumulativeDifficulty then (false, bc)
          else bc.reorganizeChain C candidateChain commonAncestorIndex
        -- neither chain is empty here
        | _, _ => (false, bc)

end Blockchain

/-! ## Remembered hashes -/

@[simp] lemma Block.getHash_rememberHash (C : Crypto) (block : Block) :
    (block.rememberHash C).getHash C = block.getHash C := by
  unfold Block.rememberHash Block.getHash
  by_cases h : block.originalHash = "" <;> simp [h]

@[simp] lemma Block.cumulativeDifficulty_rememberHash (C : Crypto) (block : Block) :
    (block.rememberHash C).cumulativeDifficulty = block.cumulativeDifficulty := by
  unfold Block.rememberHash
  split_ifs <;> rfl

@[simp] lemma Block.rememberHash_rememberHash (C : Crypto) (block : Block) :
    (block.rememberHash C).rememberHash C = block.rememberHash C := by
  unfold Block.rememberHash
  by_cases h : block.originalHash = "" <;> simp [h]

/-- The second block is the first one, perhaps with its hash remembered. -/
def Block.Remembers (C : Crypto) (block block' : Block) : Prop :=
  block' = block ∨ block' = block.rememberHash C

/-- The same blocks, some of them with their hash remembered. -/
def SameBlocks (C : Crypto) (blocks blocks' : List Block) : Prop :=
  List.Forall₂ (Block.Remembers C) blocks blocks'

lemma SameBlocks.refl (C : Crypto) (blocks : List Block) : SameBlocks C blocks blocks :=
  forall₂_same.mpr fun _ _ => .inl rfl

variable {C : Crypto}

lemma SameBlocks.trans {as bs cs : List Block} (h : SameBlocks C as bs)
    (h' : SameBlocks C bs cs) : SameBlocks C as cs := by
  induction h generalizing cs with
  | nil => exact h'
  | cons hab _ ih =>
    obtain ⟨c, cs, hbc, hrest, rfl⟩ := forall₂_cons_left_iff.mp h'
    refine .cons ?_ (ih hrest)
    rcases hab with rfl | rfl
    · exact hbc
    · rcases hbc with rfl | rfl
      · exact .inr rfl
      · exact .inr (Block.rememberHash_rememberHash C _)

variable {blocks blocks' : List Block}

lemma SameBlocks.map_eq (h : SameBlocks C blocks blocks') {α : Type} {f : Block → α}
    (hf : ∀ block, f (block.rememberHash C) = f block) : blocks'.map f = blocks.map f := by
  induction h with
  | nil => rfl
  | cons hb _ ih =>
    rcases hb with rfl | rfl
    · rw [map_cons, map_cons, ih]
    · rw [map_cons, map_cons, ih, hf]

variable {k : ℕ}

lemma SameBlocks.exists_getElem?
    (h : SameBlocks C blocks blocks') {block' : Block} (hb : blocks'[k]? = some block') :
    ∃ block, blocks[k]? = some block ∧ block.getHash C = block'.getHash C := by
  have hk := congrArg (fun hashes : List String => hashes[k]?)
    (h.map_eq (Block.getHash_rememberHash C))
  simp only [List.getElem?_map, hb, Option.map_some] at hk
  exact Option.map_eq_some_iff.mp hk.symm

lemma SameBlocks.exists_mem
    (h : SameBlocks C blocks blocks') {block : Block} (hb : block ∈ blocks) :
    ∃ block' ∈ blocks', block'.getHash C = block.getHash C := by
  rw [← mem_map, h.map_eq (Block.getHash_rememberHash C)]
  exact mem_map_of_mem hb

lemma follows_rememberHash (C : Crypto) (a b : Block) :
    Block.Follows C (a.rememberHash C) (b.rememberHash C) ↔ Block.Follows C a b := by
  simp [Block.Follows]

lemma validateLinks_iff {C : Crypto} :
    ∀ {blocks : List Block}, validateLinks C blocks = true ↔ blocks.IsChain (Block.Follows C)
  | [] | [_] => by simp [validateLinks]
  | a :: b :: blocks => by
    rw [isChain_cons_cons, ← validateLinks_iff]
    by_cases h : Block.Follows C a b <;> simp [validateLinks, h]

/-- A valid chain has a first block, which is a proper genesis block if it has number zero, and
every other block follows the one before it. -/
lemma validateCandidateChain_iff {blocks : List Block} :
    validateCandidateChain C blocks = true ↔ ∃ first, blocks.head? = some first ∧
        (first.header.blockNumber = 0 → first.header.previousHash = genesisPreviousHash ∧
          first.cumulativeDifficulty = first.header.difficulty.toUInt64) ∧
        blocks.IsChain (Block.Follows C) := by
  cases blocks with
  | nil => simp [validateCandidateChain]
  | cons first blocks =>
    rw [← validateLinks_iff]
    simp only [validateCandidateChain, List.head?_cons, Option.some.injEq, exists_eq_left']
    split_ifs with h
    · simp only [false_iff, not_and]
      intro himp
      have := himp h.1
      tauto
    · constructor
      · intro hlinks
        refine ⟨fun hzero => ?_, hlinks⟩
        by_contra hbad
        exact h ⟨hzero, by tauto⟩
      · exact fun hboth => hboth.2

lemma SameBlocks.validateCandidateChain_iff (h : SameBlocks C blocks blocks') :
    validateCandidateChain C blocks' = true ↔ validateCandidateChain C blocks = true := by
  have hmap : blocks'.map (Block.rememberHash C) = blocks.map (Block.rememberHash C) :=
    h.map_eq (Block.rememberHash_rememberHash C)
  have hnorm : ∀ l : List Block, validateCandidateChain C (l.map (Block.rememberHash C)) = true ↔
      validateCandidateChain C l = true := by
    intro l
    rw [HybridChain.validateCandidateChain_iff, HybridChain.validateCandidateChain_iff, isChain_map]
    simp only [follows_rememberHash]
    cases l with
    | nil | cons first l => simp
  rw [← hnorm blocks', hmap, hnorm]

lemma SameBlocks.length_eq
    (h : SameBlocks C blocks blocks') : blocks.length = blocks'.length :=
  List.Forall₂.length_eq h

lemma SameBlocks.take (h : SameBlocks C blocks blocks')
    (k : ℕ) : SameBlocks C (blocks.take k) (blocks'.take k) :=
  forall₂_take k h

lemma SameBlocks.drop (h : SameBlocks C blocks blocks')
    (k : ℕ) : SameBlocks C (blocks.drop k) (blocks'.drop k) :=
  forall₂_drop k h

lemma SameBlocks.append {as as' bs bs' : List Block} (ha : SameBlocks C as as')
    (hb : SameBlocks C bs bs') : SameBlocks C (as ++ bs) (as' ++ bs') :=
  rel_append ha hb

/-! ## The search and the segment -/

lemma validateChainSegment_spec (C : Crypto) : ∀ segment : List Block,
    (validateChainSegment C segment).1 = validateLinks C segment ∧
      SameBlocks C segment (validateChainSegment C segment).2 ∧
      (validateChainSegment C segment).2.getLast? = segment.getLast?
  | [] => ⟨rfl, .refl C [], rfl⟩
  | [a] => ⟨rfl, .refl C [a], rfl⟩
  | a :: b :: blocks => by
    obtain ⟨hvalid, hsame, hlast⟩ := validateChainSegment_spec C (b :: blocks)
    by_cases h : Block.Follows C a b
    · simp only [validateChainSegment, validateLinks, if_pos h]
      refine ⟨hvalid, .cons (.inr rfl) hsame, ?_⟩
      have hne : (validateChainSegment C (b :: blocks)).2 ≠ [] := by
        intro hnil
        rw [hnil, List.getLast?_nil, eq_comm, List.getLast?_eq_none_iff] at hlast
        exact cons_ne_nil _ _ hlast
      rw [List.getLast?_cons_of_ne_nil hne, hlast, List.getLast?_cons_cons]
    · simp only [validateChainSegment, validateLinks, if_neg h]
      exact ⟨trivial, .cons (.inr rfl) (SameBlocks.refl C _), by simp⟩

lemma findHash_spec (C : Crypto) (hash : String) (blocks : List Block) :
    SameBlocks C blocks (findHash C hash blocks).2 ∧ (∀ j, (findHash C hash blocks).1 = some j →
        ∃ block, blocks[j]? = some block ∧ block.getHash C = hash) ∧
      ((findHash C hash blocks).1 = none → ∀ block ∈ blocks, block.getHash C ≠ hash) := by
  induction blocks with
  | nil => simp [findHash, SameBlocks.refl]
  | cons a blocks ih =>
    obtain ⟨hsame, hsome, hnone⟩ := ih
    unfold findHash
    rcases hfind : findHash C hash blocks with ⟨j | j, blocks'⟩
    · simp only [hfind] at hsame hnone ⊢
      refine ⟨.cons (.inr rfl) hsame, ?_, ?_⟩
      · intro j hj
        by_cases ha : a.getHash C = hash
        · obtain rfl : j = 0 := by simpa [ha, eq_comm] using hj
          exact ⟨a, rfl, ha⟩
        · simp [ha] at hj
      · intro ha b hb
        rcases mem_cons.mp hb with rfl | hb
        · simpa using ha
        · exact hnone trivial b hb
    · simp only [hfind] at hsame hsome ⊢
      refine ⟨.cons (.inl rfl) hsame, ?_, by simp⟩
      intro i hi
      obtain rfl : j + 1 = i := by simpa using hi
      exact hsome j rfl

lemma findCommonAncestor_spec (C : Crypto) (chain candidateChain : List Block) :
    SameBlocks C chain (findCommonAncestor C chain candidateChain).2 ∧
      (∀ k, (findCommonAncestor C chain candidateChain).1 = some k →
        ∃ a, chain[k]? = some a ∧ ∃ b ∈ candidateChain, b.getHash C = a.getHash C) ∧
      ((findCommonAncestor C chain candidateChain).1 = none →
        ∀ a ∈ chain, ∀ b ∈ candidateChain, b.getHash C ≠ a.getHash C) := by
  induction candidateChain with
  | nil => exact ⟨.refl C chain, by simp [findCommonAncestor], by simp⟩
  | cons c candidateChain ih =>
    obtain ⟨hsame, hsome, hnone⟩ := ih
    unfold findCommonAncestor
    rcases hfind : findCommonAncestor C chain candidateChain with ⟨_ | k, chain'⟩
    · simp only [hfind] at hsame hnone ⊢
      -- the outer loop goes on to `c`, with the hashes of the chain remembered
      obtain ⟨hsame', hsome', hnone'⟩ := findHash_spec C (c.getHash C) chain'
      refine ⟨hsame.trans hsame', ?_, ?_⟩
      · intro k hk
        obtain ⟨a', ha', hhash⟩ := hsome' k hk
        obtain ⟨a, ha, haa'⟩ := hsame.exists_getElem? ha'
        exact ⟨a, ha, c, mem_cons_self, by rw [haa', hhash]⟩
      · intro hk a ha b hb
        rcases mem_cons.mp hb with rfl | hb
        · obtain ⟨a', ha', haa'⟩ := hsame.exists_mem ha
          rw [← haa']
          exact (hnone' hk a' ha').symm
        · exact hnone trivial a ha b hb
    · simp only [hfind] at hsame hsome ⊢
      refine ⟨hsame, ?_, by simp⟩
      intro i hi
      obtain rfl : k = i := by simpa using hi
      obtain ⟨a, ha, b, hb, hab⟩ := hsome k rfl
      exact ⟨a, ha, b, mem_cons_of_mem _ hb, hab⟩

namespace Blockchain

variable (C : Crypto) (bc : Blockchain) (candidateChain : List Block)

lemma sameBlocks_candidate (k : ℕ) : SameBlocks C candidateChain (candidateChain.take k ++
      (validateChainSegment C (candidateChain.drop k)).2) := by
  have h := (SameBlocks.refl C (candidateChain.take k)).append
    (validateChainSegment_spec C (candidateChain.drop k)).2.1
  rwa [take_append_drop] at h

lemma getLast?_candidate (k : ℕ) :
    (candidateChain.take k ++ (validateChainSegment C (candidateChain.drop k)).2).getLast? =
      candidateChain.getLast? := by
  rw [List.getLast?_append, (validateChainSegment_spec C (candidateChain.drop k)).2.2,
    ← List.getLast?_append, take_append_drop]

/-- **`ResolveFork` with a common ancestor**: the two chains are spliced if the segment of the
candidate is valid and its tip has the greater cumulative difficulty. -/
lemma resolveFork_of_ancestor {chain : List Block} {current candidate : Block}
    (hlen : bc.chain.length < candidateChain.length)
    (hfind : findCommonAncestor C bc.chain candidateChain = (some k, chain))
    (hcurrent : bc.chain.getLast? = some current)
    (hcandidate : candidateChain.getLast? = some candidate) : bc.resolveFork C candidateChain =
      if validateLinks C (candidateChain.drop k) ∧
          current.cumulativeDifficulty < candidate.cumulativeDifficulty then
        { bc with chain := chain }.reorganizeChain C (candidateChain.take k ++
          (validateChainSegment C (candidateChain.drop k)).2) k
      else (false, { bc with chain := chain }) := by
  have hsame : SameBlocks C bc.chain chain := by
    have h := (findCommonAncestor_spec C bc.chain candidateChain).1
    rwa [hfind] at h
  obtain ⟨current', hcurrent', hdiff⟩ : ∃ current', chain.getLast? = some current' ∧
      current'.cumulativeDifficulty = current.cumulativeDifficulty := by
    have h := congrArg List.getLast? (hsame.map_eq (Block.cumulativeDifficulty_rememberHash C))
    rw [List.getLast?_map, List.getLast?_map, hcurrent] at h
    exact Option.map_eq_some_iff.mp h
  unfold resolveFork
  rw [if_neg (by omega), hfind]
  simp only [(validateChainSegment_spec C (candidateChain.drop k)).1, hcurrent',
    getLast?_candidate, hcandidate, hdiff]
  by_cases hvalid : validateLinks C (candidateChain.drop k) = true
  · by_cases hlt : current.cumulativeDifficulty < candidate.cumulativeDifficulty
    · simp [hvalid, hlt, UInt64.not_le.mpr hlt]
    · simp [hvalid, hlt, UInt64.not_lt.mp hlt]
  · simp [hvalid]

/-- The splice of two lists as long as two others, the second of which is the longer one. -/
lemma splice_spec {α : Type} {l l' m m' : List α} {a : α} (hl : l'.length = l.length)
    (hm : m'.length = m.length) (hk : l'[k]? = some a) (hlen : l'.length < m'.length) :
    (l.take (k + 1) ++ m.drop (k + 1)).take (k + 1) = l.take (k + 1) ∧
      (l.take (k + 1) ++ m.drop (k + 1)).getLast? = m.getLast? ∧
      (l.take (k + 1) ++ m.drop (k + 1)).length = m.length := by
  have hlt := (List.getElem?_eq_some_iff.mp hk).1
  have htake : (l.take (k + 1)).length = k + 1 := by
    rw [length_take]
    omega
  have hdrop : (m.drop (k + 1)).getLast? = m.getLast? := by
    rw [List.getLast?_drop, if_neg (by omega)]
  refine ⟨take_left' htake, ?_, ?_⟩
  · rw [List.getLast?_append, hdrop, List.getLast?_eq_some_getLast
      (ne_nil_of_length_pos (by omega : 0 < m.length)), Option.some_or]
  · rw [length_append, htake, length_drop]
    omega

/-- **What a fork resolution can do**: it leaves the blocks as they are, or it puts the blocks of
the longer and heavier candidate after the common ancestor in place of those of the chain. -/
lemma resolveFork_cases :
    (∃ chain, bc.resolveFork C candidateChain = (false, { bc with chain := chain }) ∧
      SameBlocks C bc.chain chain) ∨ ∃ k ancestor chain newChain current candidate,
      (findCommonAncestor C bc.chain candidateChain).1 = some k ∧ bc.chain[k]? = some ancestor ∧
      (∃ block ∈ candidateChain, block.getHash C = ancestor.getHash C) ∧
      SameBlocks C bc.chain chain ∧ SameBlocks C candidateChain newChain ∧
      newChain.getLast? = candidateChain.getLast? ∧ bc.chain.length < candidateChain.length ∧
      bc.chain.getLast? = some current ∧ candidateChain.getLast? = some candidate ∧
      current.cumulativeDifficulty < candidate.cumulativeDifficulty ∧
      validateCandidateChain C (chain.take (k + 1) ++ newChain.drop (k + 1)) = true ∧
      bc.resolveFork C candidateChain =
        (true, { bc with chain := chain.take (k + 1) ++ newChain.drop (k + 1) }) := by
  by_cases hlen : bc.chain.length < candidateChain.length
  swap
  · exact .inl ⟨bc.chain, if_pos (by omega), .refl C _⟩
  obtain ⟨hsame, hsome, -⟩ := findCommonAncestor_spec C bc.chain candidateChain
  rcases hfind : findCommonAncestor C bc.chain candidateChain with ⟨_ | k, chain⟩
  · rw [hfind] at hsame
    refine .inl ⟨chain, ?_, hsame⟩
    unfold resolveFork
    rw [if_neg (by omega), hfind]
  · rw [hfind] at hsame hsome
    obtain ⟨ancestor, hancestor, hshared⟩ := hsome k rfl
    have hk : k < bc.chain.length := (List.getElem?_eq_some_iff.mp hancestor).1
    obtain ⟨current, hcurrent⟩ : ∃ current, bc.chain.getLast? = some current :=
      ⟨_, List.getLast?_eq_some_getLast (ne_nil_of_length_pos (by omega))⟩
    obtain ⟨candidate, hcandidate⟩ : ∃ candidate, candidateChain.getLast? = some candidate :=
      ⟨_, List.getLast?_eq_some_getLast (ne_nil_of_length_pos (by omega))⟩
    rw [bc.resolveFork_of_ancestor C candidateChain hlen hfind hcurrent hcandidate]
    split_ifs with hheavier
    swap
    · exact .inl ⟨chain, rfl, hsame⟩
    · simp only [reorganizeChain]
      split_ifs with hvalid
      swap
      · exact .inl ⟨chain, rfl, hsame⟩
      · exact .inr ⟨k, ancestor, chain, _, current, candidate, rfl, hancestor, hshared, hsame,
          sameBlocks_candidate C candidateChain k, getLast?_candidate C candidateChain k, hlen,
          hcurrent, hcandidate, hheavier.2, hvalid, rfl⟩

/-- **Fork resolution is sound and atomic.** After the answer `true` the chain is valid, keeps the
blocks up to the common ancestor, ends with the candidate's last block, and is longer and heavier.
After `false` it has the same blocks, some of which may remember their hash. -/
theorem resolveFork_sound (C : Crypto) (bc : Blockchain) (candidateChain : List Block) :
    let result := bc.resolveFork C candidateChain
    (result.1 = true → validateCandidateChain C result.2.chain = true ∧
      (∃ k ancestor, (findCommonAncestor C bc.chain candidateChain).1 = some k ∧
        bc.chain[k]? = some ancestor ∧
        (∃ block ∈ candidateChain, block.getHash C = ancestor.getHash C) ∧
        SameBlocks C (bc.chain.take (k + 1)) (result.2.chain.take (k + 1))) ∧
      result.2.chain.getLast? = candidateChain.getLast? ∧ bc.chain.length < result.2.chain.length ∧
      ∃ old new, bc.chain.getLast? = some old ∧ result.2.chain.getLast? = some new ∧
        old.cumulativeDifficulty < new.cumulativeDifficulty) ∧
    (result.1 = false → SameBlocks C bc.chain result.2.chain) := by
  intro result
  obtain ⟨chain, h, hsame⟩ | ⟨k, ancestor, chain, newChain, current, candidate, hfind, hancestor,
    hshared, hsame, hnew, hlast, hlen, hcurrent, hcandidate, hheavier, hvalid, h⟩ :=
    bc.resolveFork_cases C candidateChain
  · have hresult : result = _ := h
    rw [hresult]
    exact ⟨by simp, fun _ => hsame⟩
  · have hresult : result = _ := h
    rw [hresult]
    obtain ⟨hkeep, hend, hlong⟩ := splice_spec hsame.length_eq hnew.length_eq hancestor hlen
    rw [hlast] at hend
    refine ⟨fun _ => ⟨hvalid, ⟨k, ancestor, hfind, hancestor, hshared, ?_⟩, hend, ?_, current,
      candidate, hcurrent, hend.trans hcandidate, hheavier⟩, by simp⟩
    · rw [hkeep]
      exact hsame.take (k + 1)
    · rw [hlong, ← hnew.length_eq]
      exact hlen

end Blockchain

/-! ## Adoption of heavier chains -/

/-- The fields of a header that its hash covers; the others are cleared. -/
def BlockHeader.hashed (header : BlockHeader) : BlockHeader :=
  { header with
    validatedBy := ""
    validatorProof := none
    validatorAddress := ""
    validatorSig := [] }

/-- The hash of a header is collision-free on the headers of the blocks: equal hashes come from the
same fields. -/
def HeadersCollisionFree (C : Crypto) (blocks : List Block) : Prop :=
  ∀ a ∈ blocks, ∀ b ∈ blocks, calculateHash C a.header = calculateHash C b.header →
    a.header.hashed = b.header.hashed

lemma calculateHash_ne_genesisPreviousHash (C : Crypto) (header : BlockHeader) :
    calculateHash C header ≠ genesisPreviousHash :=
  C.hashHex_ne_of_length (by decide +kernel)

section Adoption

/-- A valid chain that starts with a block of number zero: how the block looks, and how the others
follow. -/
structure ValidFrom (C : Crypto) (first : Block) (chain : List Block) : Prop where
  head : ∀ r, chain.head? = some r → r = first
  previousHash : first.header.previousHash = genesisPreviousHash
  cumulativeDifficulty : first.cumulativeDifficulty = first.header.difficulty.toUInt64
  links : chain.IsChain (Block.Follows C)

lemma validFrom_of_valid {C : Crypto} {first : Block} {chain : List Block}
    (hvalid : validateCandidateChain C chain = true) (hfirst : chain.head? = some first)
    (hzero : first.header.blockNumber = 0) : ValidFrom C first chain := by
  obtain ⟨first', hfirst', hgenesis, hlinks⟩ := validateCandidateChain_iff.mp hvalid
  obtain rfl : first = first' := Option.some.inj (hfirst.symm.trans hfirst')
  exact ⟨fun r hr => Option.some.inj (hr.symm.trans hfirst), (hgenesis hzero).1,
    (hgenesis hzero).2, hlinks⟩

variable {C : Crypto} {chain candidateChain : List Block} {first first' : Block}

section

variable (hhash : ∀ b ∈ chain ++ candidateChain, b.getHash C = calculateHash C b.header)
  (hfree : HeadersCollisionFree C (chain ++ candidateChain))
include hhash hfree

lemma hashed_eq_of_getHash_eq : ∀ a ∈ chain, ∀ b ∈ candidateChain,
    a.getHash C = b.getHash C → a.header.hashed = b.header.hashed := by
  intro a ha b hb hab
  have ha' := mem_append_left candidateChain ha
  have hb' := mem_append_right chain hb
  rw [hhash a ha', hhash b hb'] at hab
  exact hfree a ha' b hb' hab

/-- **Two valid chains with proper hashes agree on what a hash stands for.** -/
lemma compatible_of_valid (hchain : ValidFrom C first chain)
    (hcand : ValidFrom C first' candidateChain) :
    HashChain.Compatible (Block.getHash C) (fun b => b.header.previousHash) chain
      candidateChain where
  left := hchain.links.imp fun _ _ h => h.2.1
  right := hcand.links.imp fun _ _ h => h.2.1
  ref_eq a ha b hb hab := by
    have hfields := congrArg BlockHeader.previousHash
      (hashed_eq_of_getHash_eq hhash hfree a ha b hb hab)
    exact hfields
  left_root r hr b hb := by
    rw [hchain.head r hr, hchain.previousHash, hhash b (mem_append_right chain hb)]
    exact calculateHash_ne_genesisPreviousHash C b.header
  right_root r hr a ha := by
    rw [hcand.head r hr, hcand.previousHash, hhash a (mem_append_left candidateChain ha)]
    exact calculateHash_ne_genesisPreviousHash C a.header

/-- **A shared block** has the same position, number and cumulative difficulty in both chains. -/
lemma shared_block (hchain : ValidFrom C first chain) (hcand : ValidFrom C first' candidateChain)
    {a b : Block} (ha : chain[k]? = some a) (hb : b ∈ candidateChain)
    (hab : a.getHash C = b.getHash C) :
    candidateChain[k]? = some b ∧ a.header.blockNumber = b.header.blockNumber ∧
      a.cumulativeDifficulty = b.cumulativeDifficulty := by
  have hcompat := compatible_of_valid hhash hfree hchain hcand
  have hfields := hashed_eq_of_getHash_eq hhash hfree
  obtain ⟨i, hi⟩ := List.getElem?_of_mem hb
  obtain rfl : k = i := hcompat.index_eq ha hi hab
  have hnumber := congrArg BlockHeader.blockNumber (hfields a (mem_of_getElem? ha) b hb hab)
  refine ⟨hi, hnumber, ?_⟩
  refine hcompat.accumulated_eq (f := Block.cumulativeDifficulty)
    (g := fun b => b.header.difficulty.toUInt64) (fun a ha b hb hab => ?_)
    (hchain.links.imp fun _ _ h => h.2.2) (hcand.links.imp fun _ _ h => h.2.2)
    (fun r hr => ?_) (fun r hr => ?_) ha hi hab
  · have hdifficulty := congrArg (fun h : BlockHeader => h.difficulty.toUInt64)
      (hfields a ha b hb hab)
    exact hdifficulty
  · rw [hchain.head r hr]
    exact hchain.cumulativeDifficulty
  · rw [hcand.head r hr]
    exact hcand.cumulativeDifficulty

end

lemma Block.Follows.of_eq {a a' b : Block} (h : Block.Follows C a' b)
    (hnumber : a.header.blockNumber = a'.header.blockNumber) (hhash : a.getHash C = a'.getHash C)
    (hdiff : a.cumulativeDifficulty = a'.cumulativeDifficulty) : Block.Follows C a b := by
  unfold Block.Follows at h ⊢
  rw [hnumber, hhash, hdiff]
  exact h

/-- **The splice of two valid chains at a shared block is valid**, if that block has the same number
and cumulative difficulty in both. -/
lemma isChain_splice {a b : Block} (hchain : chain.IsChain (Block.Follows C))
    (hcand : candidateChain.IsChain (Block.Follows C)) (ha : chain[k]? = some a)
    (hb : candidateChain[k]? = some b)
    (hnumber : a.header.blockNumber = b.header.blockNumber) (hhash : a.getHash C = b.getHash C)
    (hdiff : a.cumulativeDifficulty = b.cumulativeDifficulty) :
    (chain.take (k + 1) ++ candidateChain.drop (k + 1)).IsChain (Block.Follows C) := by
  refine (hchain.take (k + 1)).append (hcand.drop (k + 1)) ?_
  intro x hx y hy
  have hx' : a = x := by
    rw [take_add_one, ha] at hx
    simpa using hx
  have hy' : candidateChain[k + 1]? = some y := by
    rw [List.head?_drop] at hy
    exact hy
  subst hx'
  exact (HashChain.rel_of_getElem? hcand hb hy').of_eq hnumber hhash hdiff

end Adoption

namespace Blockchain

/-- **A longer and heavier valid chain with the same first block is adopted.**

**Proof sketch.** A shared hash stands at the same position in both chains and everything before it
is shared as well; the difficulties are covered by the hashes, so their sums up to the ancestor
agree, which is what the check of the splice asks for. -/
theorem resolveFork_adopts (C : Crypto) (bc : Blockchain) (candidateChain : List Block)
    {first first' current candidate : Block} (hchain : validateCandidateChain C bc.chain = true)
    (hcand : validateCandidateChain C candidateChain = true)
    (hfirst : bc.chain.head? = some first) (hfirst' : candidateChain.head? = some first')
    (hzero : first.header.blockNumber = 0) (hzero' : first'.header.blockNumber = 0)
    (hgenesis : first.getHash C = first'.getHash C)
    (hhash : ∀ b ∈ bc.chain ++ candidateChain, b.getHash C = calculateHash C b.header)
    (hfree : HeadersCollisionFree C (bc.chain ++ candidateChain))
    (hlen : bc.chain.length < candidateChain.length) (hcurrent : bc.chain.getLast? = some current)
    (hcandidate : candidateChain.getLast? = some candidate)
    (hheavier : current.cumulativeDifficulty < candidate.cumulativeDifficulty) :
    (bc.resolveFork C candidateChain).1 = true ∧
      (bc.resolveFork C candidateChain).2.chain.map (Block.getHash C) =
        candidateChain.map (Block.getHash C) := by
  have hleft := validFrom_of_valid hchain hfirst hzero
  have hright := validFrom_of_valid hcand hfirst' hzero'
  -- the search ends at an ancestor, which has the same position in both chains
  obtain ⟨hsame, hsome, hnone⟩ := findCommonAncestor_spec C bc.chain candidateChain
  rcases hfind : findCommonAncestor C bc.chain candidateChain with ⟨_ | k, chain⟩
  · rw [hfind] at hnone
    exact absurd hgenesis.symm (hnone rfl first (mem_of_mem_head? hfirst) first'
      (mem_of_mem_head? hfirst'))
  rw [hfind] at hsame hsome
  obtain ⟨a, ha, b, hb, hba⟩ := hsome k rfl
  obtain ⟨hi, hnumber, hdiff⟩ := shared_block hhash hfree hleft hright ha hb hba.symm
  -- so the splice is valid, and has the hashes of the candidate
  have hsplice : SameBlocks C (bc.chain.take (k + 1) ++ candidateChain.drop (k + 1))
      (chain.take (k + 1) ++ (candidateChain.take k ++
        (validateChainSegment C (candidateChain.drop k)).2).drop (k + 1)) :=
    (hsame.take (k + 1)).append ((sameBlocks_candidate C candidateChain k).drop (k + 1))
  have hvalid : validateCandidateChain C (bc.chain.take (k + 1) ++ candidateChain.drop (k + 1)) =
      true := by
    refine validateCandidateChain_iff.mpr ⟨first, ?_,
      fun _ => ⟨hleft.previousHash, hleft.cumulativeDifficulty⟩,
      isChain_splice hleft.links hright.links ha hi hnumber hba.symm hdiff⟩
    rw [List.head?_append, List.head?_take, if_neg (by omega), hfirst]
    rfl
  rw [bc.resolveFork_of_ancestor C candidateChain hlen hfind hcurrent hcandidate,
    if_pos ⟨validateLinks_iff.mpr (hright.links.drop k), hheavier⟩]
  simp only [reorganizeChain]
  rw [if_pos (hsplice.validateCandidateChain_iff.mpr hvalid)]
  refine ⟨rfl, ?_⟩
  calc _ = (bc.chain.take (k + 1) ++ candidateChain.drop (k + 1)).map (Block.getHash C) :=
        hsplice.map_eq (Block.getHash_rememberHash C)
    _ = (candidateChain.take (k + 1)).map (Block.getHash C) ++
        (candidateChain.drop (k + 1)).map (Block.getHash C) := by
      rw [map_append, (compatible_of_valid hhash hfree hleft hright).take_eq ha hi hba.symm]
    _ = candidateChain.map (Block.getHash C) := by
      rw [← map_append, take_append_drop]

def forkRoot : Block where
  header := { previousHash := genesisPreviousHash, difficulty := 1 }
  cumulativeDifficulty := 1

def forkBlock (previous : Block) (version : UInt32) : Block where
  header :=
    { version := version
      blockNumber := previous.header.blockNumber + 1
      previousHash := previous.getHash sample
      difficulty := 1 }
  cumulativeDifficulty := previous.cumulativeDifficulty + 1

theorem resolveFork_adopts_three_blocks :
    let bc : Blockchain := { chain := [forkRoot, forkBlock forkRoot 0] }
    let candidateChain := [forkRoot, forkBlock forkRoot 1, forkBlock (forkBlock forkRoot 1) 1]
    HeadersCollisionFree sample (bc.chain ++ candidateChain) ∧
      (bc.resolveFork sample candidateChain).1 = true ∧
      (bc.resolveFork sample candidateChain).2.chain.map (Block.getHash sample) =
        candidateChain.map (Block.getHash sample) := by
  intro bc candidateChain
  have hfree : HeadersCollisionFree sample (bc.chain ++ candidateChain) := by
    unfold HeadersCollisionFree
    decide +kernel
  exact ⟨hfree, resolveFork_adopts sample bc candidateChain (by decide +kernel)
    (by decide +kernel) rfl rfl rfl rfl rfl (by decide +kernel) hfree (by decide +kernel) rfl rfl
    (by decide +kernel)⟩

end Blockchain

end HybridChain
