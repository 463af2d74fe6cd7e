import HybridChain.ForkChoice
import HybridChain.Lib.Run

/-!
# Chain replacement

Three routines of `blockchain.go` exchange the chain: `ResolveFork` checks a longer and heavier
candidate, `ReplaceChain` checks a longer one, `ResolveChainConflict` takes a heavier one unchecked.

Numbers are 64-bit. `ResolveChainConflict` panics on an empty chain, before anything is written.

## Main definitions

* `replaceChain`, `resolveChainConflict`, `forkStep`
* `KeepsWork`: the calls that lose no work

## Main results

* `forkChoice_safe_iff`: the chain stays linked and gains work exactly along these
-/

namespace HybridChain

open Crypto (sample)

/-- The second block follows the first by previous hash and number. -/
def Block.Linked (C : Crypto) (previous block : Block) : Prop :=
  block.header.previousHash = previous.getHash C ∧
    block.header.blockNumber = previous.header.blockNumber + 1

instance (C : Crypto) (previous block : Block) : Decidable (Block.Linked C previous block) :=
  inferInstanceAs (Decidable (_ ∧ _))

def tipWork (chain : List Block) : UInt64 := chain.getLast?.elim 0 Block.cumulativeDifficulty

namespace Blockchain

def replaceChain (C : Crypto) (bc : Blockchain) (newChain : List Block) : Blockchain :=
  if newChain.length ≤ bc.chain.length then bc
  else if validateCandidateChain C newChain then { bc with chain := newChain } else bc

/-- `ResolveChainConflict`. Nothing stands for the panic on an empty chain. -/
def resolveChainConflict (bc : Blockchain) (receivedChain : List Block) :
    Option (Bool × Blockchain) := do
  let current ← bc.chain.getLast?
  let received ← receivedChain.getLast?
  let localDifficulty := current.cumulativeDifficulty
  let remoteDifficulty := received.cumulativeDifficulty
  return if remoteDifficulty > localDifficulty then (true, { bc with chain := receivedChain })
    else (false, bc)

end Blockchain

inductive ForkCall where
  | resolveFork (candidateChain : List Block)
  | replaceChain (newChain : List Block)
  | resolveChainConflict (receivedChain : List Block)

namespace Blockchain

variable (C : Crypto)

/-- The blockchain after a call. A panic leaves it as it was. -/
def forkStep (bc : Blockchain) : ForkCall → Blockchain
  | .resolveFork candidateChain => (bc.resolveFork C candidateChain).2
  | .replaceChain newChain => bc.replaceChain C newChain
  | .resolveChainConflict receivedChain =>
    ((bc.resolveChainConflict receivedChain).map Prod.snd).getD bc

/-- The chain has a block, and its blocks are linked. -/
def WellLinked (bc : Blockchain) : Prop := bc.chain ≠ [] ∧ bc.chain.IsChain (Block.Linked C)

/-- **The candidates that do no harm**: all of them for `ResolveFork`; for `ReplaceChain` those that
are not accepted or are at least as heavy as the chain; for `ResolveChainConflict` those that are
not heavier or are linked. -/
def KeepsWork (bc : Blockchain) : ForkCall → Prop
  | .resolveFork _ => True
  | .replaceChain newChain => bc.chain.length < newChain.length →
      validateCandidateChain C newChain = true → tipWork bc.chain ≤ tipWork newChain
  | .resolveChainConflict receivedChain => tipWork bc.chain < tipWork receivedChain →
      receivedChain.IsChain (Block.Linked C)

end Blockchain

/-! ## Links and work -/

variable {blocks blocks' : List Block} {chain : List Block}

lemma tipWork_of_getLast? {block : Block}
    (h : chain.getLast? = some block) : tipWork chain = block.cumulativeDifficulty := by
  rw [tipWork, h]
  rfl

variable {C : Crypto}

lemma isChain_linked_of_valid (h : validateCandidateChain C chain = true) :
    chain ≠ [] ∧ chain.IsChain (Block.Linked C) := by
  obtain ⟨first, hfirst, -, hlinks⟩ := validateCandidateChain_iff.mp h
  refine ⟨?_, hlinks.imp fun _ _ hab => ⟨hab.2.1, hab.1⟩⟩
  rintro rfl
  simp at hfirst

lemma SameBlocks.isChain_linked
    (h : SameBlocks C blocks blocks') (hlinked : blocks.IsChain (Block.Linked C)) :
    blocks'.IsChain (Block.Linked C) := by
  have hnorm : ∀ l : List Block, (l.map (Block.rememberHash C)).IsChain (Block.Linked C) ↔
      l.IsChain (Block.Linked C) := by
    intro l
    have hlink : (fun a b => Block.Linked C (a.rememberHash C) (b.rememberHash C)) =
        Block.Linked C := by
      funext a b
      simp [Block.Linked]
    rw [List.isChain_map, hlink]
  rw [← hnorm, h.map_eq (Block.rememberHash_rememberHash C), hnorm]
  exact hlinked

lemma SameBlocks.tipWork_eq
    (h : SameBlocks C blocks blocks') : tipWork blocks' = tipWork blocks := by
  have hlast := congrArg List.getLast? (h.map_eq (Block.cumulativeDifficulty_rememberHash C))
  rw [List.getLast?_map, List.getLast?_map] at hlast
  unfold tipWork
  cases hb : blocks.getLast? <;> cases hb' : blocks'.getLast? <;> simp_all

namespace Blockchain

variable {C : Crypto} {bc : Blockchain}

/-- **`ResolveFork` keeps the chain linked and its work.** -/
lemma forkStep_resolveFork (h : bc.WellLinked C) (candidateChain : List Block) :
    (bc.forkStep C (.resolveFork candidateChain)).WellLinked C ∧
      tipWork bc.chain ≤ tipWork (bc.forkStep C (.resolveFork candidateChain)).chain := by
  simp only [forkStep]
  obtain ⟨chain, hresult, hsame⟩ | ⟨k, ancestor, chain, newChain, current, candidate, -, hancestor,
    -, hsame, hnew, hlast, hlen, hcurrent, hcandidate, hheavier, hvalid, hresult⟩ :=
    bc.resolveFork_cases C candidateChain
  · rw [hresult]
    refine ⟨⟨fun hnil => ?_, hsame.isChain_linked h.2⟩, UInt64.le_of_eq hsame.tipWork_eq.symm⟩
    have hlength := hsame.length_eq
    rw [show chain = [] from hnil, List.length_nil, List.length_eq_zero_iff] at hlength
    exact h.1 hlength
  · obtain ⟨-, hend, -⟩ := splice_spec hsame.length_eq hnew.length_eq hancestor hlen
    rw [hresult]
    refine ⟨isChain_linked_of_valid hvalid, ?_⟩
    rw [tipWork_of_getLast? hcurrent, tipWork_of_getLast? (hend.trans (hlast.trans hcandidate))]
    exact UInt64.le_of_lt hheavier

/-- `ReplaceChain` keeps the chain linked; it keeps the work unless a lighter candidate is
accepted. -/
lemma forkStep_replaceChain (h : bc.WellLinked C) (newChain : List Block) :
    (bc.forkStep C (.replaceChain newChain)).WellLinked C ∧
        tipWork bc.chain ≤ tipWork (bc.forkStep C (.replaceChain newChain)).chain ↔
      bc.KeepsWork C (.replaceChain newChain) := by
  simp only [forkStep, replaceChain, KeepsWork]
  split_ifs with hlen hvalid
  · exact ⟨fun _ hlt => absurd hlt (by omega), fun _ => ⟨h, UInt64.le_refl _⟩⟩
  · have hlt : bc.chain.length < newChain.length := by omega
    exact ⟨fun hboth _ _ => hboth.2, fun hwork =>
      ⟨isChain_linked_of_valid hvalid, hwork hlt hvalid⟩⟩
  · exact ⟨fun _ _ hbad => absurd hbad hvalid, fun _ => ⟨h, UInt64.le_refl _⟩⟩

/-- `ResolveChainConflict` keeps the work; it keeps the chain linked unless a heavier chain that is
not linked comes in. -/
lemma forkStep_resolveChainConflict (h : bc.WellLinked C) (receivedChain : List Block) :
    (bc.forkStep C (.resolveChainConflict receivedChain)).WellLinked C ∧
        tipWork bc.chain ≤ tipWork (bc.forkStep C (.resolveChainConflict receivedChain)).chain ↔
      bc.KeepsWork C (.resolveChainConflict receivedChain) := by
  simp only [forkStep, resolveChainConflict, KeepsWork]
  cases hcurrent : bc.chain.getLast? with
  | none => exact absurd (List.getLast?_eq_none_iff.mp hcurrent) h.1
  | some current =>
    rw [tipWork_of_getLast? hcurrent]
    cases hreceived : receivedChain.getLast? with
    | none =>
      -- the call panics, and an empty chain has no work
      have hzero : tipWork receivedChain = 0 := by rw [tipWork, hreceived]; rfl
      rw [hzero]
      refine ⟨fun _ hlt => absurd hlt (UInt64.not_lt.mpr UInt64.zero_le), fun _ => ⟨h, ?_⟩⟩
      exact UInt64.le_of_eq (tipWork_of_getLast? hcurrent).symm
    | some received =>
      rw [tipWork_of_getLast? hreceived]
      by_cases hheavier : current.cumulativeDifficulty < received.cumulativeDifficulty
      · have hne : receivedChain ≠ [] := by
          rintro rfl
          simp at hreceived
        simp only [Option.bind_eq_bind, Option.bind_some, gt_iff_lt, if_pos hheavier]
        refine ⟨fun hboth _ => hboth.1.2, fun hlinked => ⟨⟨hne, hlinked hheavier⟩, ?_⟩⟩
        show current.cumulativeDifficulty ≤ tipWork receivedChain
        rw [tipWork_of_getLast? hreceived]
        exact UInt64.le_of_lt hheavier
      · simp only [Option.bind_eq_bind, Option.bind_some, gt_iff_lt, if_neg hheavier]
        exact ⟨fun _ hbad => absurd hbad hheavier, fun _ =>
          ⟨h, UInt64.le_of_eq (tipWork_of_getLast? hcurrent).symm⟩⟩

lemma forkStep_safe_iff (h : bc.WellLinked C) (call : ForkCall) :
    (bc.forkStep C call).WellLinked C ∧ tipWork bc.chain ≤ tipWork (bc.forkStep C call).chain ↔
      bc.KeepsWork C call := by
  cases call with
  | resolveFork candidateChain => exact iff_of_true (forkStep_resolveFork h candidateChain) trivial
  | replaceChain newChain => exact forkStep_replaceChain h newChain
  | resolveChainConflict receivedChain => exact forkStep_resolveChainConflict h receivedChain

/-- **When fork choice loses no work**: along a run of calls the chain stays linked and its work
never decreases exactly when every candidate that `ReplaceChain` accepts is at least as heavy as the
chain, and every heavier chain that comes in through `ResolveChainConflict` is linked. -/
theorem forkChoice_safe_iff (C : Crypto) (bc : Blockchain) (calls : List ForkCall)
    (hne : bc.chain ≠ []) (hlinked : bc.chain.IsChain (Block.Linked C)) :
    ((∀ s ∈ List.scanl (forkStep C) bc calls, s.chain ≠ [] ∧ s.chain.IsChain (Block.Linked C)) ∧
        (List.scanl (forkStep C) bc calls).Pairwise fun s t =>
          tipWork s.chain ≤ tipWork t.chain) ↔ Run.Along (forkStep C) (KeepsWork C) bc calls :=
  Run.forall_mem_and_pairwise_scanl_iff (I := WellLinked C)
    (R := fun s t => tipWork s.chain ≤ tipWork t.chain) UInt64.le_trans
    (fun _ call h => forkStep_safe_iff h call) ⟨hne, hlinked⟩

def rootOf (difficulty : UInt32) : Block where
  header := { previousHash := genesisPreviousHash, difficulty := difficulty }
  cumulativeDifficulty := difficulty.toUInt64

theorem forkChoice_safe_three_calls :
    let bc : Blockchain := { chain := [rootOf 1] }
    let two := [rootOf 1, forkBlock (rootOf 1) 1]
    let three := two ++ [forkBlock (forkBlock (rootOf 1) 1) 1]
    let calls := [ForkCall.resolveFork two, .replaceChain three, .resolveChainConflict two]
    (∀ s ∈ List.scanl (forkStep sample) bc calls,
        s.chain ≠ [] ∧ s.chain.IsChain (Block.Linked sample)) ∧
      (List.scanl (forkStep sample) bc calls).Pairwise fun s t =>
        tipWork s.chain ≤ tipWork t.chain := by
  intro bc two three calls
  refine (forkChoice_safe_iff sample bc calls (by simp [bc]) (by simp [bc])).mpr
    ⟨trivial, fun _ _ => ?_, fun hheavier => ?_, trivial⟩
  · decide +kernel
  · exact absurd hheavier (by decide +kernel)

/-- **A longer chain replaces a heavier one, and a heavier chain without links comes in.** The
first call takes the work from five to two; the second puts two unrelated blocks in the chain. -/
theorem forkChoice_loses_work :
    let bc : Blockchain := { chain := [rootOf 5] }
    let lighter := bc.forkStep sample (.replaceChain [rootOf 1, forkBlock (rootOf 1) 1])
    let unlinked := bc.forkStep sample (.resolveChainConflict [rootOf 1, rootOf 6])
    tipWork bc.chain = 5 ∧ tipWork lighter.chain = 2 ∧
      ¬ unlinked.chain.IsChain (Block.Linked sample) := by
  refine ⟨by decide +kernel, by decide +kernel, by decide +kernel⟩

end Blockchain

end HybridChain
