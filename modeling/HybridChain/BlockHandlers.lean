import HybridChain.BlockAcceptance
import HybridChain.ChainReplacement

/-!
# Concurrent block handlers

`handleBlockStream` takes the lock of the chain in `ValidateBlock` and again in
`AddBlockWithoutValidation`, and other handlers may run between the two.

The cumulative difficulty is computed in the first step; the look at the hashes already processed
belongs to the second one.

## Main definitions

* `validate`, `append`: the two steps of a handler
* `TipUnmoved`: the tip is the one the handler has seen

## Main results

* `validate_append`: both steps in a row are `handleBlockStream`
* `isChain_linked_iff`: when concurrent handlers keep the chain linked
-/

namespace HybridChain

open List
open Crypto (sample)

/-- A handler whose block has passed `ValidateBlock` and has not been appended. -/
structure PendingBlock where
  peer : String
  /-- The hash of the message. -/
  hash : String
  block : Block
  /-- The latest block that `ValidateBlock` has seen; the handler does not keep it. -/
  latest : Option Block

/-- A node with the handlers that stand between their two steps. -/
structure Handlers where
  node : Node
  pending : List PendingBlock := []

/-- A step: the first one of a new handler, or the second one of a handler under way. -/
inductive HandlerStep where
  | validate (peer : String) (data : Option BlockMessage)
  | append (i : ℕ) (now₁ now₂ : ℤ)

namespace Handlers

variable (C : Crypto) (h : Handlers)

/-- A handler from the start to the end of `ValidateBlock`. -/
def validate (peer : String) (data : Option BlockMessage) : Handlers :=
  match data with
  | none => { h with node := (h.node.handleStreamError peer "error decoding block data").1 }
  | some msg =>
    match msg.header, msg.body with
    | some header, some body =>
      match h.node.blockchain.calculateCumulativeDifficulty C header with
      | .error _ => h
      | .ok cumulativeDifficulty =>
        let block : Block :=
          { header := header
            body := body
            hash := msg.hash
            originalHash := msg.hash
            cumulativeDifficulty := cumulativeDifficulty }
        match h.node.blockchain.validateBlock C block with
        | .error err => { h with node := (h.node.handleStreamError peer err).1 }
        | .ok _ =>
          let p : PendingBlock :=
            { peer := peer
              hash := msg.hash
              block := block.rememberHash C
              latest := h.node.blockchain.getLatestBlock C }
          { h with pending := h.pending ++ [p] }
    | _, _ => { h with node := (h.node.handleStreamError peer "invalid block data").1 }

/-- A handler from the end of `ValidateBlock` to its own end. -/
def append (i : ℕ) (now₁ now₂ : ℤ) : Handlers :=
  match h.pending[i]? with
  | none => h
  | some p =>
    { node :=
        if p.hash ∈ h.node.broadcastedBlocks then h.node
        else h.node.acceptBlock C p.peer p.hash p.block now₁ now₂
      pending := h.pending.eraseIdx i }

def step : HandlerStep → Handlers
  | .validate peer data => h.validate C peer data
  | .append i now₁ now₂ => h.append C i now₁ now₂

/-- The handlers and the node after each step of a list. -/
def states (steps : List HandlerStep) : List Handlers := List.scanl (step C) h steps

/-- **Where the tip has not moved**: a step that appends a block finds an empty chain, or one whose
last block has the hash and the number of the block that was the latest when the block was
validated. -/
def TipUnmoved : HandlerStep → Prop
  | .validate _ _ => True
  | .append i _ _ => ∀ p ∈ h.pending[i]?, p.hash ∉ h.node.broadcastedBlocks →
      ∀ tip ∈ h.node.blockchain.chain.getLast?,
        p.latest.map (fun latest => (latest.getHash C, latest.header.blockNumber)) =
          some (tip.getHash C, tip.header.blockNumber)

instance : (a : HandlerStep) → Decidable (h.TipUnmoved C a)
  | .validate _ _ => isTrue trivial
  | .append i _ _ => inferInstanceAs (Decidable (∀ p ∈ h.pending[i]?, _))

/-- Every handler under way has a block that follows the latest one it has seen. -/
def Validated : Prop :=
  ∀ p ∈ h.pending, ∃ latest, p.latest = some latest ∧ Block.Linked C latest p.block

variable {C h}

/-! ## The two steps -/

variable {bc : Blockchain} {block : Block} {i : ℕ} (peer : String) (data : Option BlockMessage)

lemma linked_of_validateBlock (hvalid : bc.validateBlock C block = .ok ()) :
    ∃ latest, bc.getLatestBlock C = some latest ∧ Block.Linked C latest block := by
  unfold Blockchain.validateBlock at hvalid
  cases hlatest : bc.getLatestBlock C with
  | none =>
    simp only [hlatest] at hvalid
    split_ifs at hvalid
  | some latest =>
    simp only [hlatest] at hvalid
    split_ifs at hvalid with _ hprev hnum
    exact ⟨latest, rfl, not_not.mp hprev, not_not.mp hnum⟩

lemma hash_of_validateBlock (hvalid : bc.validateBlock C block = .ok ()) :
    block.getHash C = calculateHash C block.header := by
  unfold Blockchain.validateBlock at hvalid
  split_ifs at hvalid with hhash
  exact (not_not.mp hhash).symm

/-- **What the first step does**: it ends the handler, as the handler of a received block ends that
turns a message away, or it leaves the node alone and a block more is under way, one that has
passed. -/
lemma validate_spec (now₁ now₂ : ℤ) : (h.validate C peer data =
        { h with node := (h.node.handleBlockStream C peer data now₁ now₂).1 } ∧
      (h.node.handleBlockStream C peer data now₁ now₂).1.blockchain = h.node.blockchain) ∨
    ∃ p latest, h.validate C peer data = { h with pending := h.pending ++ [p] } ∧
      p.latest = some latest ∧ Block.Linked C latest p.block ∧
      (h.node.handleBlockStream C peer data now₁ now₂).1 =
        if p.hash ∈ h.node.broadcastedBlocks then h.node
        else h.node.acceptBlock C p.peer p.hash p.block now₁ now₂ := by
  have herror : ∀ err, (h.node.handleStreamError peer err).1.blockchain = h.node.blockchain :=
    fun err => (h.node.updatePeerScore_fst peer (-10)).1
  cases data with
  | none => exact .inl ⟨rfl, herror "error decoding block data"⟩
  | some msg =>
    cases hheader : msg.header with
    | none =>
      simp only [validate, Node.handleBlockStream, hheader]
      exact .inl ⟨trivial, herror _⟩
    | some header =>
      cases hbody : msg.body with
      | none =>
        simp only [validate, Node.handleBlockStream, hheader, hbody]
        exact .inl ⟨trivial, herror _⟩
      | some body =>
        cases hdiff : h.node.blockchain.calculateCumulativeDifficulty C header with
        | error err =>
          simp only [validate, Node.handleBlockStream, hheader, hbody, hdiff]
          exact .inl ⟨trivial, trivial⟩
        | ok difficulty =>
          cases hvalid : h.node.blockchain.validateBlock C
              { header := header, body := body, hash := msg.hash, originalHash := msg.hash,
                cumulativeDifficulty := difficulty } with
          | error err =>
            simp only [validate, Node.handleBlockStream, hheader, hbody, hdiff, hvalid]
            exact .inl ⟨trivial, herror err⟩
          | ok _ =>
            simp only [validate, Node.handleBlockStream, hheader, hbody, hdiff, hvalid]
            obtain ⟨latest, hlatest, hlinked⟩ := linked_of_validateBlock hvalid
            refine .inr ⟨_, latest, rfl, hlatest, ?_, ?_⟩
            · simpa [Block.Linked] using hlinked
            · split_ifs <;> rfl

lemma blockchain_validate : (h.validate C peer data).node.blockchain = h.node.blockchain := by
  rcases @validate_spec C h peer data 0 0 with ⟨heq, hsame⟩ | ⟨p, latest, heq, -⟩
  · rw [heq, hsame]
  · rw [heq]

lemma append_of_none (hi : h.pending[i]? = none) (now₁ now₂ : ℤ) : h.append C i now₁ now₂ = h := by
  simp only [append, hi]

/-- **What the second step can do**: the handler is gone, and its block stands at the end of the
chain unless its hash has been processed before. -/
lemma append_of_some {p : PendingBlock} (hi : h.pending[i]? = some p) (now₁ now₂ : ℤ) :
    (h.append C i now₁ now₂).pending = h.pending.eraseIdx i ∧
      (h.append C i now₁ now₂).node.blockchain.chain =
        if p.hash ∈ h.node.broadcastedBlocks then h.node.blockchain.chain
        else h.node.blockchain.chain ++ [p.block] := by
  simp only [append, hi]
  refine ⟨trivial, ?_⟩
  split_ifs
  · rfl
  · exact h.node.chain_acceptBlock C p.peer p.hash p.block now₁ now₂

/-- **A handler that is not interrupted** is the handler of a received block. -/
theorem validate_append (n : Node) (peer : String) (data : Option BlockMessage) (now₁ now₂ : ℤ) :
    ((({ node := n } : Handlers).validate C peer data).append C 0 now₁ now₂).node =
      (n.handleBlockStream C peer data now₁ now₂).1 := by
  rcases @validate_spec C { node := n } peer data now₁ now₂ with
    ⟨heq, -⟩ | ⟨p, latest, heq, -, -, hresult⟩
  · rw [heq, append_of_none rfl]
  · rw [heq, hresult]
    rfl

/-! ## Interleavings -/

lemma validated_step (hs : h.Validated C) (a : HandlerStep) : (h.step C a).Validated C := by
  cases a with
  | validate peer data =>
    intro q hq
    change q ∈ (h.validate C peer data).pending at hq
    rcases @validate_spec C h peer data 0 0 with ⟨heq, -⟩ | ⟨p, latest, heq, hp⟩
    · rw [heq] at hq
      exact hs q hq
    · rw [heq, mem_append, mem_singleton] at hq
      rcases hq with hq | rfl
      · exact hs q hq
      · exact ⟨latest, hp.1, hp.2.1⟩
  | append i now₁ now₂ =>
    intro q hq
    change q ∈ (h.append C i now₁ now₂).pending at hq
    cases hi : h.pending[i]? with
    | none => exact hs q (append_of_none hi now₁ now₂ ▸ hq)
    | some p =>
      rw [(append_of_some hi now₁ now₂).1] at hq
      exact hs q (mem_of_mem_eraseIdx hq)

lemma linked_iff_of_linked {latest tip block : Block} (hlinked : Block.Linked C latest block) :
    Block.Linked C tip block ↔
      latest.getHash C = tip.getHash C ∧ latest.header.blockNumber = tip.header.blockNumber := by
  unfold Block.Linked at hlinked ⊢
  rw [hlinked.1, hlinked.2, UInt64.add_left_inj]

/-- **One step**: a chain that is linked stays so exactly when the tip has not moved. -/
lemma isChain_step_iff (hlinked : h.node.blockchain.chain.IsChain (Block.Linked C))
    (hs : h.Validated C) (a : HandlerStep) :
    (h.step C a).node.blockchain.chain.IsChain (Block.Linked C) ↔ h.TipUnmoved C a := by
  cases a with
  | validate peer data =>
    change (h.validate C peer data).node.blockchain.chain.IsChain (Block.Linked C) ↔ True
    rw [blockchain_validate]
    exact iff_true_intro hlinked
  | append i now₁ now₂ =>
    change (h.append C i now₁ now₂).node.blockchain.chain.IsChain (Block.Linked C) ↔ _
    cases hi : h.pending[i]? with
    | none =>
      rw [append_of_none hi]
      simp [TipUnmoved, hi, hlinked]
    | some p =>
      obtain ⟨latest, hlatest, hp⟩ := hs p (mem_of_getElem? hi)
      rw [(append_of_some hi now₁ now₂).2]
      split_ifs with hseen
      · simp [TipUnmoved, hi, hseen, hlinked]
      · simp only [TipUnmoved, hi, Option.mem_def, Option.some.injEq, forall_eq', hseen,
          not_false_eq_true, forall_const, hlatest, Option.map_some, Prod.mk.injEq]
        rw [isChain_append]
        simp only [hlinked, isChain_singleton, List.head?_cons, true_and, Option.mem_def,
          Option.some.injEq, forall_eq', linked_iff_of_linked hp]

/-- **Concurrent handlers keep the chain linked exactly when the tip does not move** between the
validation of a block and its append, for any handlers, messages and order of steps.

**Proof sketch.** A handler under way has a block that follows the latest block it has seen. So its
append keeps the chain linked exactly when the last block still has that hash and number. -/
theorem isChain_linked_iff (n : Node) (hlinked : n.blockchain.chain.IsChain (Block.Linked C))
    (steps : List HandlerStep) :
    (∀ t ∈ states C { node := n } steps, t.node.blockchain.chain.IsChain (Block.Linked C)) ↔
      Run.Along (step C) (TipUnmoved C) { node := n } steps := by
  have hstart : ({ node := n } : Handlers).Validated C := fun p hp => absurd hp not_mem_nil
  exact Run.forall_mem_scanl_iff (fun s a hs hvalidated => isChain_step_iff hs hvalidated a) hlinked
    (Run.along_of_invariant (I := Validated C) (fun s a hs => validated_step hs a) hstart steps)

def firstBlockNode : Node where
  blockchain := { chain := [{ originalHash := "first" }] }

def siblingHeader (version : UInt32) : BlockHeader where
  version := version
  blockNumber := 1
  previousHash := "first"

def sibling (version : UInt32) : BlockMessage where
  header := some (siblingHeader version)
  body := some {}
  hash := calculateHash sample (siblingHeader version)

theorem isChain_linked_uninterrupted :
    firstBlockNode.blockchain.chain.IsChain (Block.Linked sample) ∧
      ∀ t ∈ states sample { node := firstBlockNode }
        [.validate "peer" (some (sibling 1)), .append 0 1 2],
        t.node.blockchain.chain.IsChain (Block.Linked sample) := by
  have hlinked : firstBlockNode.blockchain.chain.IsChain (Block.Linked sample) :=
    isChain_singleton _
  exact ⟨hlinked, (isChain_linked_iff firstBlockNode hlinked _).mpr (by decide +kernel)⟩

/-- Two second blocks are validated before either is appended, and both are appended. -/
theorem siblings_both_appended :
    firstBlockNode.blockchain.chain.IsChain (Block.Linked sample) ∧
      ∃ t ∈ states sample { node := firstBlockNode }
        [.validate "peer" (some (sibling 1)), .validate "peer" (some (sibling 2)),
          .append 0 1 2, .append 0 3 4],
        t.node.blockchain.chain.map (fun block => block.header.blockNumber) = [0, 1, 1] ∧
          ¬ t.node.blockchain.chain.IsChain (Block.Linked sample) :=
  ⟨isChain_singleton _, _, Run.foldl_mem_scanl _ _, by decide +kernel, by decide +kernel⟩

end Handlers

end HybridChain
