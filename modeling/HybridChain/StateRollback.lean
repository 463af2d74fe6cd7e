import HybridChain.Lib.ForLoop
import HybridChain.NodeSync
import HybridChain.ReplayedOutputs

/-!
# Rolling back to a state

`RollbackToState` of `peer_manager.go` goes down at most 100 heights, of type `uint64`, until it
finds a block with the state root, and cuts the chain after it.

`GetBlockByHeight` fills in the hash of the block it returns, so a search leaves the chain with some
hashes filled in. A block that is not found makes the function panic.

## Main definitions

* `rollbackToState`, and the heights it visits
* `InWindow`: where the block may be

## Main results

* `rollbackToState_finds_latest`: what it finds
-/

namespace HybridChain

/-! ## The function -/

inductive RollbackOutcome where
  | done
  | failed (err : String)
  | panicked

/-- The blockchain and, once the search is left, how it ends. -/
structure RollbackSearch where
  bc : Blockchain
  outcome : Option RollbackOutcome := none

def maxRollbackBlocks : UInt64 := 100

section Functions

variable (C : Crypto) (bc : Blockchain) (targetState : String)

/-- The loop of `RollbackToState`. -/
def rollbackLoop (currentHeight : UInt64) : ForLoop UInt64 RollbackSearch where
  cond i _ := i < maxRollbackBlocks
  body i search :=
    if currentHeight - i = 0 then
      some (.stop { search with
        outcome := some (.failed "reached genesis block without finding target state") })
    else
      match search.bc.getBlockByHeight C (currentHeight - i) with
      | (none, bc) => some (.stop { bc := bc, outcome := some .panicked })
      | (some block, bc) =>
        if block.header.stateRoot = targetState then
          match bc.rollbackToHeight (currentHeight - i) with
          | .error err => some (.stop { bc := bc, outcome := some (.failed err) })
          | .ok bc => some (.stop { bc := bc, outcome := some .done })
        else some (.next i { bc := bc })
  post i := i + 1

/-- `RollbackToState`, with at most `fuel` turns of its loop. -/
def rollbackToState (fuel : ℕ) : Option (Blockchain × RollbackOutcome) :=
  ((rollbackLoop C targetState bc.getHeight).run fuel 0 { bc := bc }).map fun search =>
    (search.bc, search.outcome.getD (.failed "target state not found within rollback limit"))

/-- The distances from the current height at which the body of the loop is entered. -/
def rollbackToStateVisits (fuel : ℕ) : List UInt64 :=
  (rollbackLoop C targetState bc.getHeight).visits fuel 0 { bc := bc }

end Functions

/-! ## Chains -/

/-- A height of the window, not that of the first block, whose block has the state. -/
structure InWindow (bc : Blockchain) (targetState : String) (h : ℕ) : Prop where
  pos : 1 ≤ h
  le_height : h ≤ bc.getHeight.toNat
  near : bc.getHeight.toNat - h < maxRollbackBlocks.toNat
  state : ∃ block, bc.chain[h]? = some block ∧ block.header.stateRoot = targetState

/-- The blocks of `chain`, of some of which the hash has been filled in. -/
def ServedBlocks (C : Crypto) (chain chain' : List Block) : Prop :=
  ∀ i : ℕ, chain'[i]? = chain[i]? ∨ chain'[i]? = chain[i]?.map (Block.serve C)

namespace ServedBlocks

variable {C : Crypto} {chain chain' : List Block}

lemma refl : ServedBlocks C chain chain := fun _ => Or.inl rfl

lemma take (h : ServedBlocks C chain chain') (n : ℕ) :
    ServedBlocks C (chain.take n) (chain'.take n) := by
  intro i
  rw [List.getElem?_take, List.getElem?_take]
  split_ifs
  · exact h i
  · exact Or.inl rfl

lemma modify (h : ServedBlocks C chain chain') (k : ℕ) :
    ServedBlocks C chain (chain'.modify k (Block.serve C)) := by
  intro i
  rw [List.getElem?_modify]
  by_cases hk : k = i
  · refine Or.inr ?_
    rcases h i with heq | heq <;> cases hi : chain[i]? <;> simp [heq, hi, hk]
  · rcases h i with heq | heq
    · exact Or.inl (by simp [heq, hk])
    · exact Or.inr (by simp [heq, hk])

lemma header_eq (h : ServedBlocks C chain chain') (i : ℕ) :
    chain'[i]?.map Block.header = chain[i]?.map Block.header := by
  rcases h i with heq | heq
  · rw [heq]
  · rw [heq]
    cases chain[i]? <;> simp

lemma eq_of_served (h : ServedBlocks C chain chain')
    (hserved : ∀ block ∈ chain, block.serve C = block) : chain' = chain := by
  refine List.ext_getElem? fun i => ?_
  rcases h i with heq | heq
  · exact heq
  · rw [heq]
    cases hi : chain[i]? with
    | none => rfl
    | some block => rw [Option.map_some, hserved block (List.mem_of_getElem? hi)]

end ServedBlocks

/-! ## The search -/

section Search

variable {C : Crypto} {bc : Blockchain} {targetState : String} {H : ℕ} {fuel : ℕ} {k : ℕ}

/-- **No height below zero**: the search never goes further down than the chain is high. -/
lemma le_of_mem_rollbackToStateVisits {i : UInt64}
    (hi : i ∈ rollbackToStateVisits C bc targetState fuel) : i ≤ bc.getHeight := by
  refine ForLoop.forall_mem_visits (P := fun i => i ≤ bc.getHeight) ?_ UInt64.zero_le fuel i hi
  intro i search j search' hle hbody
  simp only [rollbackLoop] at hbody
  by_cases hzero : bc.getHeight - i = 0
  case pos => simp [hzero] at hbody
  case neg =>
    rw [if_neg hzero] at hbody
    obtain rfl : i = j := by
      rcases hfound : search.bc.getBlockByHeight C (bc.getHeight - i) with ⟨_ | block, bc'⟩
      · simp [hfound] at hbody
      · simp only [hfound] at hbody
        split_ifs at hbody
        · cases hcut : bc'.rollbackToHeight (bc.getHeight - i) <;> simp [hcut] at hbody
        · cases hbody
          rfl
    have hne : i.toNat ≠ bc.getHeight.toNat := by
      intro heq
      rw [UInt64.toNat_inj.mp heq] at hzero
      exact hzero (UInt64.sub_self _)
    have hlt := bc.getHeight.toNat_lt
    rw [UInt64.le_iff_toNat_le] at hle ⊢
    simp only [rollbackLoop, UInt64.toNat_add, UInt64.toNat_one]
    omega

/-- The blockchain after the lookups at the `k` topmost heights. -/
def searched (C : Crypto) (bc : Blockchain) : ℕ → Blockchain
  | 0 => bc
  | k + 1 => ((searched C bc k).getBlockByHeight C (bc.getHeight - UInt64.ofNat k)).2

lemma toNat_sub_ofNat {currentHeight : UInt64} (hk : k ≤ currentHeight.toNat) :
    (currentHeight - UInt64.ofNat k).toNat = currentHeight.toNat - k := by
  have hlt := currentHeight.toNat_lt
  rw [UInt64.toNat_sub, UInt64.toNat_ofNat']
  omega

lemma Numbered.toNat_height_sub (h : Numbered bc.chain H) (hk : k ≤ H) :
    (bc.getHeight - UInt64.ofNat k).toNat = H - k := by
  rw [toNat_sub_ofNat (by rw [h.getHeight_eq]; omega), h.getHeight_eq]

lemma searched_spec (h : Numbered bc.chain H) (hk : k ≤ H + 1) :
    Numbered (searched C bc k).chain H ∧
      ServedBlocks C bc.chain (searched C bc k).chain ∧ searched C bc k =
        { bc with chain := (searched C bc k).chain } := by
  induction k with
  | zero => exact ⟨h, .refl, rfl⟩
  | succ k ih =>
    obtain ⟨hnumbered, hserved, hrest⟩ := ih (by omega)
    have hheight := h.toNat_height_sub (show k ≤ H by omega)
    obtain ⟨block, -, hfound⟩ := hnumbered.getBlockByHeight_eq C (hheight.le.trans (Nat.sub_le H k))
    rw [searched, hfound]
    refine ⟨hnumbered.modify C _, hserved.modify _, ?_⟩
    rw [hrest]

lemma iterate_post (currentHeight : UInt64) (k : ℕ) :
    (rollbackLoop C targetState currentHeight).post^[k] 0 = UInt64.ofNat k :=
  (ForLoop.iterate_add_one 0 k).trans (UInt64.zero_add _)

open Classical in
/-- **A turn of the search** at a height above zero. -/
lemma body_rollbackLoop (h : Numbered bc.chain H) (hk : k < H) :
    (rollbackLoop C targetState bc.getHeight).body
        ((rollbackLoop C targetState bc.getHeight).post^[k] 0) { bc := searched C bc k } =
      if ∃ block, bc.chain[H - k]? = some block ∧ block.header.stateRoot = targetState then
        some (.stop
          { bc := { searched C bc (k + 1) with
              chain := (searched C bc (k + 1)).chain.take (H - k + 1) }
            outcome := some .done })
      else some (.next ((rollbackLoop C targetState bc.getHeight).post^[k] 0)
        { bc := searched C bc (k + 1) }) := by
  obtain ⟨hnumbered, hserved, -⟩ := searched_spec (C := C) h (show k ≤ H + 1 by omega)
  have hheight := h.toNat_height_sub hk.le
  have hne : bc.getHeight - UInt64.ofNat k ≠ 0 := by
    intro hzero
    rw [hzero, UInt64.toNat_zero] at hheight
    omega
  obtain ⟨block, hblock, hfound⟩ := hnumbered.getBlockByHeight_eq C
    (hheight.le.trans (Nat.sub_le H k))
  -- the block of the chain has the header of the one that is found
  obtain ⟨block', hblock', hheader⟩ : ∃ block', bc.chain[H - k]? = some block' ∧
      block'.header = block.header := by
    have heq := hserved.header_eq (H - k)
    rw [hheight] at hblock
    rw [hblock, Option.map_some] at heq
    exact Option.map_eq_some_iff.mp heq.symm
  have hstate : (∃ block, bc.chain[H - k]? = some block ∧ block.header.stateRoot = targetState) ↔
      block.header.stateRoot = targetState := by
    rw [hblock', ← hheader]
    simp
  have hnext : (searched C bc (k + 1)) =
      { searched C bc k with
        chain := (searched C bc k).chain.modify (H - k) (Block.serve C) } := by
    rw [searched, hfound, hheight]
  rw [hnext, iterate_post]
  simp only [hstate, rollbackLoop, if_neg hne, hfound, Block.header_serve, hheight]
  split_ifs
  · have hlt : ¬ H - k ≥ ((searched C bc k).chain.modify (H - k)
        (Block.serve C)).length := by
      rw [List.length_modify, hnumbered.length_eq]
      omega
    simp only [Blockchain.rollbackToHeight, hheight, if_neg hlt]
  · rfl

variable (C bc targetState) in
lemma cond_rollbackLoop (hk : k ≤ 100) (search : RollbackSearch) :
    (rollbackLoop C targetState bc.getHeight).cond
      ((rollbackLoop C targetState bc.getHeight).post^[k] 0) search = decide (k < 100) := by
  have hword : (UInt64.ofNat k).toNat = k := UInt64.toNat_ofNat_of_lt' (hk.trans_lt (by decide))
  have hhundred : maxRollbackBlocks.toNat = 100 := rfl
  rw [iterate_post]
  simp only [rollbackLoop, UInt64.lt_iff_toNat_lt, hword, hhundred]

lemma goesOn_rollbackLoop (h : Numbered bc.chain H) {n : ℕ} (hn : n ≤ H) (hmax : n ≤ 100)
    (hnone : ∀ k < n, ¬ InWindow bc targetState (H - k)) :
    ∀ k < n, (rollbackLoop C targetState bc.getHeight).GoesOn
      ((rollbackLoop C targetState bc.getHeight).post^[k] 0)
      { bc := searched C bc k } { bc := searched C bc (k + 1) } := by
  intro k hk
  refine ⟨?_, (body_rollbackLoop h (by omega)).trans (if_neg fun hstate => hnone k hk ?_)⟩
  · rw [cond_rollbackLoop C bc targetState (by omega)]
    exact decide_eq_true (by omega)
  · have hhundred : maxRollbackBlocks.toNat = 100 := rfl
    refine ⟨by omega, ?_, ?_, hstate⟩ <;>
    · rw [h.getHeight_eq]
      omega

/-- **If there is a block with the state**, the chain is cut after the last one. -/
lemma rollbackToState_of_inWindow (h : Numbered bc.chain H)
    (hexists : ∃ height, InWindow bc targetState height) (hfuel : 100 < fuel) :
    ∃ bc' height, IsGreatest {height | InWindow bc targetState height} height ∧
      rollbackToState C bc targetState fuel = some (bc', .done) ∧
      bc' = { bc with chain := bc'.chain } ∧
      ServedBlocks C (bc.chain.take (height + 1)) bc'.chain := by
  classical
  have hheight : bc.getHeight.toNat = H := h.getHeight_eq
  have hhundred : maxRollbackBlocks.toNat = 100 := rfl
  -- the first turn at which one is found
  have hturn : ∃ k, InWindow bc targetState (H - k) := by
    obtain ⟨height, hwindow⟩ := hexists
    have hle := hwindow.le_height
    rw [hheight] at hle
    exact ⟨H - height, by rwa [Nat.sub_sub_self hle]⟩
  obtain ⟨k, hwindow, hfirst⟩ : ∃ k, InWindow bc targetState (H - k) ∧
      ∀ j < k, ¬ InWindow bc targetState (H - j) :=
    ⟨Nat.find hturn, Nat.find_spec hturn, fun j hj => Nat.find_min hturn hj⟩
  have hpos := hwindow.pos
  have hnear := hwindow.near
  rw [hheight, hhundred] at hnear
  obtain ⟨hnumbered, hserved, hrest⟩ := searched_spec (C := C) h (show k + 1 ≤ H + 1 by omega)
  have hcond := (cond_rollbackLoop C bc targetState (show k ≤ 100 by omega)
    { bc := searched C bc k }).trans (decide_eq_true (by omega))
  obtain ⟨hrun, -⟩ := ForLoop.run_of_leave
    (fun k => { bc := searched C bc k : RollbackSearch })
    (goesOn_rollbackLoop h (by omega) (by omega) hfirst) hcond
    ((body_rollbackLoop h (by omega)).trans (if_pos hwindow.state)) (show k < fuel by omega)
  refine ⟨_, H - k, ⟨hwindow, fun height hother => ?_⟩,
    (congrArg (Option.map _) hrun).trans rfl, ?_, hserved.take _⟩
  · have hle := hother.le_height
    rw [hheight] at hle
    by_contra hlt
    refine hfirst (H - height) (by omega) ?_
    rwa [Nat.sub_sub_self hle]
  · rw [hrest]

/-- **If there is none**, the chain is left alone. -/
lemma rollbackToState_of_not_inWindow (h : Numbered bc.chain H)
    (hnone : ∀ height, ¬ InWindow bc targetState height) (hfuel : 100 < fuel) :
    ∃ bc' err, rollbackToState C bc targetState fuel = some (bc', .failed err) ∧
      bc' = { bc with chain := bc'.chain } ∧ ServedBlocks C bc.chain bc'.chain := by
  by_cases hshort : H < 100
  case pos =>
    -- the search comes down to the first block
    obtain ⟨-, hserved, hrest⟩ := searched_spec (C := C) h (Nat.le_succ H)
    have hzero : bc.getHeight - UInt64.ofNat H = 0 := by
      rw [← UInt64.toNat_inj, h.toNat_height_sub le_rfl, Nat.sub_self]
      rfl
    have hbody : (rollbackLoop C targetState bc.getHeight).body
        ((rollbackLoop C targetState bc.getHeight).post^[H] 0)
        { bc := searched C bc H } = some (.stop
          { bc := searched C bc H
            outcome := some (.failed "reached genesis block without finding target state") }) := by
      rw [iterate_post]
      exact if_pos hzero
    have hcond := (cond_rollbackLoop C bc targetState hshort.le
      { bc := searched C bc H }).trans (decide_eq_true hshort)
    obtain ⟨hrun, -⟩ := ForLoop.run_of_leave
      (fun k => { bc := searched C bc k : RollbackSearch })
      (goesOn_rollbackLoop h le_rfl hshort.le fun k _ => hnone (H - k)) hcond hbody
      (hshort.trans hfuel)
    exact ⟨_, _, (congrArg (Option.map _) hrun).trans rfl, hrest, hserved⟩
  case neg =>
    obtain ⟨n, hn⟩ : ∃ n, n = 100 := ⟨_, rfl⟩
    obtain ⟨-, hserved, hrest⟩ := searched_spec (C := C) h (show n ≤ H + 1 by omega)
    have hexit := (cond_rollbackLoop C bc targetState hn.le
      { bc := searched C bc n }).trans (decide_eq_false hn.not_lt)
    obtain ⟨hrun, -⟩ := ForLoop.run_of_exit
      (fun k => { bc := searched C bc k : RollbackSearch })
      (goesOn_rollbackLoop h (by omega) hn.le fun k _ => hnone (H - k)) hexit (hn ▸ hfuel)
    exact ⟨_, _, (congrArg (Option.map _) hrun).trans rfl, hrest, hserved⟩

lemma rollbackToState_of_empty (h : bc.chain = []) (hfuel : 0 < fuel) :
    rollbackToState C bc targetState fuel =
      some (bc, .failed "reached genesis block without finding target state") := by
  obtain ⟨fuel, rfl⟩ : ∃ n, fuel = n + 1 := ⟨fuel - 1, by omega⟩
  have hheight : bc.getHeight = 0 := by
    rw [Blockchain.getHeight, h]
    rfl
  have hbody : (rollbackLoop C targetState bc.getHeight).body 0 { bc := bc } = some (.stop
      { bc := bc
        outcome := some (.failed "reached genesis block without finding target state") }) := by
    rw [hheight]
    rfl
  rw [rollbackToState, ForLoop.run_of_stop rfl hbody]
  rfl

end Search

/-- **A rollback finds the last block with the state**, if it is one of the last 100 and not the
first of the chain, and cuts the chain after it; otherwise it fails and the chain keeps its blocks.
The search never computes a height below zero. -/
theorem rollbackToState_finds_latest (C : Crypto) (bc : Blockchain) (targetState : String)
    (hnumber : ∀ (i : ℕ) (block : Block), bc.chain[i]? = some block →
      block.header.blockNumber.toNat = i) (hlength : bc.chain.length < 2 ^ 63) :
    (∀ fuel, ∀ i ∈ rollbackToStateVisits C bc targetState fuel, i ≤ bc.getHeight) ∧
    ∀ fuel > 100, ∃ bc' outcome, rollbackToState C bc targetState fuel = some (bc', outcome) ∧
      bc' = { bc with chain := bc'.chain } ∧
      (outcome = .done ↔ ∃ h, InWindow bc targetState h) ∧
      (∀ h, IsGreatest {h | InWindow bc targetState h} h →
        ServedBlocks C (bc.chain.take (h + 1)) bc'.chain) ∧ ((¬ ∃ h, InWindow bc targetState h) →
        (∃ err, outcome = .failed err) ∧ ServedBlocks C bc.chain bc'.chain ∧
          ((∀ block ∈ bc.chain, block.serve C = block) → bc'.chain = bc.chain)) := by
  have hchain : bc.chain = [] ∨ Numbered bc.chain (bc.chain.length - 1) := by
    rcases List.eq_nil_or_concat bc.chain with hnil | ⟨blocks, block, hconcat⟩
    · exact Or.inl hnil
    · refine Or.inr ⟨?_, hnumber, hlength⟩
      rw [hconcat, List.concat_eq_append, List.length_append]
      rfl
  refine ⟨fun fuel i hi => le_of_mem_rollbackToStateVisits hi, fun fuel hfuel => ?_⟩
  by_cases hexists : ∃ h, InWindow bc targetState h
  case pos =>
    have hnumbered : Numbered bc.chain (bc.chain.length - 1) := by
      refine hchain.resolve_left fun hnil => ?_
      obtain ⟨h, hwindow⟩ := hexists
      obtain ⟨block, hblock, -⟩ := hwindow.state
      rw [hnil] at hblock
      exact absurd hblock (by simp)
    obtain ⟨bc', height, hgreatest, hrun, hrest, hserved⟩ :=
      rollbackToState_of_inWindow (C := C) hnumbered hexists hfuel
    refine ⟨bc', .done, hrun, hrest, iff_of_true rfl hexists, fun h hh => ?_,
      fun hnone => absurd hexists hnone⟩
    rwa [hh.unique hgreatest]
  case neg =>
    have hnone : ∀ h, ¬ InWindow bc targetState h := not_exists.mp hexists
    obtain ⟨bc', err, hrun, hrest, hserved⟩ : ∃ bc' err,
        rollbackToState C bc targetState fuel = some (bc', .failed err) ∧
        bc' = { bc with chain := bc'.chain } ∧ ServedBlocks C bc.chain bc'.chain := by
      rcases hchain with hnil | hnumbered
      · exact ⟨bc, _, rollbackToState_of_empty hnil (by omega), rfl, .refl⟩
      · exact rollbackToState_of_not_inWindow hnumbered hnone hfuel
    exact ⟨bc', .failed err, hrun, hrest, iff_of_false (by simp) hexists,
      fun h hh => absurd hh.1 (hnone h), fun _ => ⟨⟨err, rfl⟩, hserved, hserved.eq_of_served⟩⟩

/-- A chain of three blocks, of which the second one has the state. -/
def rollbackChain : Blockchain where
  chain := [{}, { header := { blockNumber := 1, stateRoot := "state" } },
      { header := { blockNumber := 2 } }]

theorem rollbackToState_second : (∀ (i : ℕ) (block : Block), rollbackChain.chain[i]? = some block →
      block.header.blockNumber.toNat = i) ∧ rollbackChain.chain.length < 2 ^ 63 ∧ ∃ bc' outcome,
      rollbackToState Crypto.sample rollbackChain "state" 101 = some (bc', outcome) ∧
      outcome = .done ∧ ServedBlocks Crypto.sample (rollbackChain.chain.take 2) bc'.chain := by
  have hnumber : ∀ (i : ℕ) (block : Block), rollbackChain.chain[i]? = some block →
      block.header.blockNumber.toNat = i := by
    intro i block hblock
    match i, hblock with
    | 0, hblock | 1, hblock | 2, hblock =>
      cases hblock
      rfl
    | _ + 3, hblock => cases hblock
  have hlength : rollbackChain.chain.length < 2 ^ 63 := by decide
  obtain ⟨bc', outcome, hrun, -, hdone, hcut, -⟩ :=
    (rollbackToState_finds_latest Crypto.sample rollbackChain "state" hnumber hlength).2 101
      (by decide)
  have hgreatest : IsGreatest {h | InWindow rollbackChain "state" h} 1 := by
    refine ⟨⟨le_rfl, by decide, by decide, _, rfl, rfl⟩, fun h hh => ?_⟩
    by_contra hlt
    obtain rfl : h = 2 := le_antisymm hh.le_height (by omega)
    obtain ⟨block, hblock, hstate⟩ := hh.state
    cases hblock
    exact absurd hstate (by decide)
  exact ⟨hnumber, hlength, bc', outcome, hrun, hdone.mpr ⟨1, hgreatest.1⟩, hcut 1 hgreatest⟩

end HybridChain
