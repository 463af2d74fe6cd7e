import HybridChain.ValidatorSelection

/-!
# Consensus rounds

`ConsensusEngine` of `consensus.go`: `ProcessValidatorVote` checks the voter and has no block hash;
`SubmitVote` has a block hash and checks nothing. The first keeps one table of votes, the second one
for each hash, and both fill the first.

Counts are compared as `Float`s. `AddBlock` only records the block. A round reads the stake pool of
its time. A vote collector is a goroutine; its steps are part of the state. Locks are left out.

## Main definitions

* `startConsensusRound`, `processValidatorVote`, `submitVote`, `collectValidatorVotes`
* `ReachedByQuorum`, `FinalisedOnce`: what consensus should mean

## Main results

* `quorum_iff`, `consensus_by_stranger`
* `finalises_once_iff`, `two_votes_finalise_twice`
-/

namespace HybridChain

open List
open KeyedLog (Store)

/-! ## The engine -/

structure ConsensusState where
  round : UInt64 := 0
  currentValidator : String := ""
  proposedBlock : Option Block := none
  validatorVotes : Store String Bool := ∅
  votingStartTime : ℤ := 0
  consensusReached : Bool := false

def ConsensusState.newRound (cs : ConsensusState) (block : Block) (validator : String) (now : ℤ) :
    ConsensusState where
  round := cs.round + 1
  currentValidator := validator
  proposedBlock := some block
  validatorVotes := ∅
  votingStartTime := now
  consensusReached := false

structure ConsensusEngine where
  validators : Store String ValidatorRecord := ∅
  state : ConsensusState := {}
  /-- The votes for each block hash. -/
  votes : Store String (Store String Bool) := ∅
  /-- The number of running vote collectors. -/
  collectors : ℕ := 0
  /-- The blocks that `AddBlock` has been asked to add. -/
  finalised : List (Option Block) := []

def minValidatorQuorum : Float := 2.0 / 3.0

def totalVotes (table : Store String Bool) : ℕ := table.keys.card

def yesVoters (table : Store String Bool) : Finset String :=
  table.keys.filter fun addr => table.lookup addr = some true

/-- A number of votes as a `float64`. -/
def countToFloat (n : ℕ) : Float := (UInt64.ofNat n).toFloat

/-- `IsReady` of a validator. -/
def ValidatorRecord.isReady (v : ValidatorRecord) : Bool :=
  v.isValidating && !v.slashed && v.status = .active

namespace ConsensusEngine

variable (C : Crypto) (ce : ConsensusEngine)

def isEligibleVoter (addr : String) : Bool :=
  match ce.validators.lookup addr with
  | none => false
  | some validator => validator.isReady && !(validator.status = .slashed)

/-- `hasReachedConsensus`, of the votes of the round. -/
def hasReachedConsensus (table : Store String Bool) : Bool :=
  countToFloat (yesVoters table).card ≥ countToFloat (totalVotes table) * minValidatorQuorum

/-- `IsConsensusReached`, of the votes for a hash. -/
def isConsensusReached (table : Store String Bool) : Bool :=
  totalVotes table > 0 && countToFloat (yesVoters table).card / countToFloat (totalVotes table) ≥
    minValidatorQuorum

def finalizeBlock : ConsensusEngine :=
  if ce.state.consensusReached then
    { ce with finalised := ce.finalised ++ [ce.state.proposedBlock] }
  else ce

/-- Note that consensus is reached, and finalise the block. -/
def conclude : ConsensusEngine :=
  { ce with state := { ce.state with consensusReached := true } }.finalizeBlock

/-- `StartConsensusRound`. `order` is the order in which the stakes are enumerated, and `broadcast`
tells whether the selection can be broadcast. -/
def startConsensusRound (block : Block) (stakePool : StakePool) (order : List String) (now : ℤ)
    (broadcast : Bool) : ConsensusEngine × Except String Unit :=
  match (stakePool.selectValidator C order block.header.blockNumber block.header.previousHash
      now).2 with
  | .error _ => (ce, .error "validator selection failed")
  | .ok (validator, _) =>
    let ce := { ce with state := ce.state.newRound block validator.address now }
    if broadcast then ({ ce with collectors := ce.collectors + 1 }, .ok ())
    else (ce, .error "failed to broadcast validator selection")

def recordVote (validatorAddr : String) (vote : Bool) : ConsensusEngine :=
  { ce with state := { ce.state with
    validatorVotes := ce.state.validatorVotes.insert validatorAddr vote } }

def hashVotes (validatorAddr blockHash : String) (vote : Bool) : Store String Bool :=
  ((ce.votes.lookup blockHash).getD ∅).insert validatorAddr vote

def processValidatorVote (validatorAddr : String) (vote : Bool) :
    ConsensusEngine × Except String Unit :=
  if ce.isEligibleVoter validatorAddr then
    let ce := ce.recordVote validatorAddr vote
    if hasReachedConsensus ce.state.validatorVotes then (ce.conclude, .ok ()) else (ce, .ok ())
  else (ce, .error s!"ineligible validator: {validatorAddr}")

/-- `SubmitVote`, which always returns nil. -/
def submitVote (validatorAddr blockHash : String) (vote : Bool) : ConsensusEngine :=
  let table := ce.hashVotes validatorAddr blockHash vote
  let ce := { ce.recordVote validatorAddr vote with votes := ce.votes.insert blockHash table }
  if isConsensusReached table then ce.conclude else ce

/-- What the loop of a vote collector finds. -/
inductive CollectorEvent where
  | timeout (now : ℤ)
  | cancelled
  | poll

def handleConsensusTimeout (now : ℤ) : ConsensusEngine :=
  if ce.state.consensusReached then ce else { ce with state := { votingStartTime := now } }

/-- One turn of `collectValidatorVotes`, in one of the running collectors. -/
def collectValidatorVotes (event : CollectorEvent) : ConsensusEngine :=
  match ce.collectors with
  | 0 => ce
  | running + 1 =>
    match event with
    | .timeout now => { ce.handleConsensusTimeout now with collectors := running }
    | .cancelled => { ce with collectors := running }
    | .poll =>
      if hasReachedConsensus ce.state.validatorVotes then
        { ce.finalizeBlock with collectors := running }
      else ce

inductive Step where
  | startConsensusRound (block : Block) (stakePool : StakePool) (order : List String) (now : ℤ)
      (broadcast : Bool)
  | processValidatorVote (validatorAddr : String) (vote : Bool)
  | submitVote (validatorAddr blockHash : String) (vote : Bool)
  | collectValidatorVotes (event : CollectorEvent)

def step (ce : ConsensusEngine) : Step → ConsensusEngine
  | .startConsensusRound block stakePool order now broadcast =>
    (ce.startConsensusRound C block stakePool order now broadcast).1
  | .processValidatorVote validatorAddr vote => (ce.processValidatorVote validatorAddr vote).1
  | .submitVote validatorAddr blockHash vote => ce.submitVote validatorAddr blockHash vote
  | .collectValidatorVotes event => ce.collectValidatorVotes event

/-! ## Quorum -/

def eligibleVoters : Finset String := ce.validators.keys.filter fun addr => ce.isEligibleVoter addr

/-- A recorded vote for the proposed block: in the table of the round, or in that of its hash. -/
def VotedFor (addr : String) : Prop :=
  ce.state.validatorVotes.lookup addr = some true ∨ ∃ block, ce.state.proposedBlock = some block ∧
    (ce.votes.lookup (block.getHash C)).bind (fun table => table.lookup addr) = some true

/-- **Two thirds of the validators that may vote have voted for the proposed block.** -/
def Quorate : Prop := ∃ voters ⊆ ce.eligibleVoters, (∀ addr ∈ voters, ce.VotedFor C addr) ∧
    2 * ce.eligibleVoters.card ≤ 3 * voters.card

/-- Consensus is not reached in a step, or it is reached with a quorum. -/
def ReachedByQuorum (ce : ConsensusEngine) (a : Step) : Prop :=
  ce.state.consensusReached = false → (ce.step C a).state.consensusReached = true →
    (ce.step C a).Quorate C

variable {C ce}

@[simp] lemma validators_finalizeBlock : ce.finalizeBlock.validators = ce.validators := by
  unfold finalizeBlock
  split_ifs <;> rfl

lemma validators_step (a : Step) : (ce.step C a).validators = ce.validators := by
  cases a with
  | startConsensusRound block stakePool order now broadcast =>
    simp only [step, startConsensusRound]
    split
    · rfl
    · split_ifs <;> rfl
  | processValidatorVote validatorAddr vote =>
    simp only [step, processValidatorVote]
    split_ifs
    · exact validators_finalizeBlock
    · rfl
    · rfl
  | submitVote validatorAddr blockHash vote =>
    simp only [step, submitVote]
    split_ifs
    · exact validators_finalizeBlock
    · rfl
  | collectValidatorVotes event =>
    simp only [step, collectValidatorVotes]
    split
    · rfl
    · split
      · unfold handleConsensusTimeout
        split_ifs <;> rfl
      · rfl
      · split_ifs
        · exact validators_finalizeBlock
        · rfl

lemma isEligibleVoter_congr {ce ce' : ConsensusEngine} (h : ce.validators = ce'.validators)
    (addr : String) : ce.isEligibleVoter addr = ce'.isEligibleVoter addr := by
  rw [isEligibleVoter, isEligibleVoter, h]

lemma quorate_of_no_voter (h : ∀ addr, ce.isEligibleVoter addr = false) : ce.Quorate C := by
  have hnone : ce.eligibleVoters = ∅ := by
    rw [eligibleVoters, Finset.filter_eq_empty_iff]
    intro addr _
    simp [h addr]
  exact ⟨∅, Finset.empty_subset _, by simp, by simp [hnone]⟩

lemma along_of_no_voter (h : ∀ addr, ce.isEligibleVoter addr = false) (as : List Step) :
    Run.Along (step C) (ReachedByQuorum C) ce as := by
  have hstep : ∀ (ce : ConsensusEngine) (a : Step), (∀ addr, ce.isEligibleVoter addr = false) →
        ∀ addr, (ce.step C a).isEligibleVoter addr = false := by
    intro ce a h addr
    rw [isEligibleVoter_congr (validators_step a), h addr]
  exact (Run.along_of_invariant hstep h as).imp fun ce a h _ _ =>
    quorate_of_no_voter (hstep ce a h)

end ConsensusEngine

def StakePool.sole : StakePool where
  stakes := Finmap.singleton "staker" (.fresh 1000000000)

variable (C : Crypto)

lemma StakePool.selectValidator_sole (blockHeight : UInt64) (previousHash : String) :
    ∃ v, (StakePool.sole.selectValidator C ["staker"] blockHeight previousHash 0).2 = .ok v := by
  have heligible : ["staker"].filter (· ∈ StakePool.sole.eligibleAddresses 0) = ["staker"] := by
    decide +kernel
  have hweight : StakePool.sole.addressWeight 0 "staker" = 100 := by decide +kernel
  have hselected : StakePool.sole.selectedAddress C ["staker"] blockHeight previousHash 0 =
      .ok "staker" := by
    have hsum : (List.map (StakePool.sole.addressWeight 0) ["staker"]).sum = 100 := by
      rw [map_singleton, hweight]
      decide
    have hpick : ∀ r : UInt64, CumulativeWalk.pick (StakePool.sole.addressWeight 0) (r % 100)
        ["staker"] = some "staker" := by
      intro r
      refine CumulativeWalk.pick_eq_some_iff.mpr ⟨[], [], rfl, CumulativeWalk.below_nil 0, ?_⟩
      rw [map_nil, sum_nil, zero_add, hweight]
      exact UInt64.le_of_lt (UInt64.mod_lt r (by decide))
    rw [StakePool.selectedAddress_eq]
    simp only [heligible, hsum, hpick]
    rfl
  cases hselect : (StakePool.sole.selectValidator C ["staker"] blockHeight previousHash 0).2 with
  | error err =>
    rw [StakePool.selectedAddress, hselect] at hselected
    cases hselected
  | ok v => exact ⟨v, rfl⟩

variable (addr : String)

lemma yesVoters_insert_empty :
    yesVoters ((∅ : Store String Bool).insert addr true) = {addr} := by
  ext a
  rw [yesVoters, Finset.mem_filter, Finmap.mem_keys, Finmap.mem_insert, Finset.mem_singleton]
  constructor
  · rintro ⟨rfl | hmem, -⟩
    · rfl
    · exact absurd hmem (Finmap.notMem_empty)
  · rintro rfl
    exact ⟨Or.inl rfl, Finmap.lookup_insert _⟩

lemma totalVotes_insert_empty (vote : Bool) :
    totalVotes ((∅ : Store String Bool).insert addr vote) = 1 := by
  have hkeys : ((∅ : Store String Bool).insert addr vote).keys = {addr} := by
    ext a
    rw [Finmap.mem_keys, Finmap.mem_insert, Finset.mem_singleton, or_iff_left Finmap.notMem_empty]
  rw [totalVotes, hkeys, Finset.card_singleton]

namespace ConsensusEngine

lemma isConsensusReached_single :
    isConsensusReached ((∅ : Store String Bool).insert addr true) = true := by
  rw [isConsensusReached, yesVoters_insert_empty, totalVotes_insert_empty, Finset.card_singleton]
  decide +kernel

lemma mem_eligibleVoters {ce : ConsensusEngine} {addr : String} :
    addr ∈ ce.eligibleVoters ↔ ce.isEligibleVoter addr = true := by
  rw [eligibleVoters, Finset.mem_filter, and_iff_right_iff_imp]
  intro h
  rw [Finmap.mem_keys, Finmap.mem_iff]
  cases hlookup : ce.validators.lookup addr with
  | none => simp [isEligibleVoter, hlookup] at h
  | some validator => exact ⟨validator, rfl⟩

/-- A round of a new engine in which somebody submits a vote for the empty hash. -/
def outvoted (validators : Store String ValidatorRecord) (validator stranger : String) :
    ConsensusEngine :=
  submitVote { validators := validators
               state := ConsensusState.newRound {} {} validator 0
               collectors := 1 } stranger "" true

lemma outvoted_eq (validators : Store String ValidatorRecord) (validator stranger : String) :
    outvoted validators validator stranger =
      { validators := validators
        state :=
          { ConsensusState.newRound {} {} validator 0 with
            validatorVotes := (∅ : Store String Bool).insert stranger true
            consensusReached := true }
        votes := (∅ : Store String (Store String Bool)).insert ""
          ((∅ : Store String Bool).insert stranger true)
        collectors := 1
        finalised := [some {}] } := by
  have htable : hashVotes { validators := validators
                            state := ConsensusState.newRound {} {} validator 0
                            collectors := 1 } stranger "" true =
      (∅ : Store String Bool).insert stranger true := by
    rw [hashVotes, Finmap.lookup_empty]
    rfl
  simp only [outvoted, submitVote, htable, isConsensusReached_single, if_true]
  rfl

variable {validators : Store String ValidatorRecord}

lemma not_votedFor_outvoted
    {validator stranger addr : String} (h : addr ≠ stranger) :
    ¬ (outvoted validators validator stranger).VotedFor C addr := by
  rw [outvoted_eq]
  rintro (hround | ⟨block, -, hhash⟩)
  · rw [Finmap.lookup_insert_of_ne _ h, Finmap.lookup_empty] at hround
    cases hround
  · rw [Finmap.lookup_insert_of_ne _ (block.getHash_ne_empty C), Finmap.lookup_empty] at hhash
    cases hhash

/-- **The vote of somebody who is not a validator makes no quorum** where somebody may vote. -/
lemma not_quorate_outvoted
    {validator stranger voter : String} (hstranger : stranger ∉ validators.keys)
    (hvoter : isEligibleVoter { validators := validators } voter = true) :
    ¬ (outvoted validators validator stranger).Quorate C := by
  rintro ⟨voters, hsub, hvoted, hcard⟩
  have hvalidators : (outvoted validators validator stranger).validators = validators :=
    congrArg ConsensusEngine.validators (outvoted_eq validators validator stranger)
  have hempty : voters = ∅ := by
    refine Finset.eq_empty_of_forall_notMem fun addr haddr => ?_
    refine not_votedFor_outvoted C (fun heq => hstranger ?_) (hvoted addr haddr)
    have hmem := (Finset.mem_filter.mp (hsub haddr)).1
    rwa [← heq, ← hvalidators]
  have hmem : voter ∈ (outvoted validators validator stranger).eligibleVoters := by
    rw [mem_eligibleVoters, ← hvoter]
    exact isEligibleVoter_congr hvalidators voter
  have hpos := Finset.card_pos.mpr ⟨voter, hmem⟩
  rw [hempty, Finset.card_empty] at hcard
  omega

lemma step_start_sole (validators : Store String ValidatorRecord) :
    ∃ validator, step C { validators := validators }
      (.startConsensusRound {} StakePool.sole ["staker"] 0 true) =
        { validators := validators
          state := ConsensusState.newRound {} {} validator 0
          collectors := 1 } := by
  obtain ⟨⟨v, proof⟩, hselect⟩ := StakePool.selectValidator_sole C 0 ""
  refine ⟨v.address, ?_⟩
  show (startConsensusRound C _ {} StakePool.sole ["staker"] 0 true).1 = _
  unfold startConsensusRound
  rw [hselect]
  rfl

/-- **When consensus always has a quorum behind it**: only if no validator may vote.

**Proof sketch.** If there is a voter, start a round, and let somebody who is not a validator submit
the only vote for another hash: consensus is reached, and no validator has voted. -/
theorem quorum_iff (C : Crypto) (validators : Store String ValidatorRecord) :
    (∀ as, Run.Along (step C) (ReachedByQuorum C) { validators := validators } as) ↔
      ∀ addr, isEligibleVoter { validators := validators } addr = false := by
  refine ⟨fun h voter => ?_, fun h as => along_of_no_voter h as⟩
  by_contra hvoter
  rw [Bool.not_eq_false] at hvoter
  obtain ⟨stranger, hstranger⟩ := Infinite.exists_notMem_finset validators.keys
  obtain ⟨validator, hstart⟩ := step_start_sole C validators
  obtain ⟨-, hsubmit, -⟩ := h [.startConsensusRound {} StakePool.sole ["staker"] 0 true,
    .submitVote stranger "" true]
  rw [hstart] at hsubmit
  have hreached : (outvoted validators validator stranger).state.consensusReached = true :=
    congrArg (fun ce => ce.state.consensusReached) (outvoted_eq validators validator stranger)
  exact not_quorate_outvoted C hstranger hvoter (hsubmit rfl hreached)

def threeValidators : Store String ValidatorRecord :=
  ((Finmap.singleton "a" { address := "a", status := .active, isValidating := true }).insert "b"
    { address := "b", status := .active, isValidating := true }).insert "c"
    { address := "c", status := .active, isValidating := true }

/-- **Consensus without a validator**: in a round with three voters, one vote from somebody else for
another hash is enough. The only vote recorded is that one, and the proposed block is added. -/
theorem consensus_by_stranger :
    let ce := [Step.startConsensusRound {} StakePool.sole ["staker"] 0 true,
      .submitVote "mallory" "other" true].foldl (step Crypto.sample)
        { validators := threeValidators }
    ce.state.consensusReached = true ∧ ce.eligibleVoters = {"a", "b", "c"} ∧
      ce.state.validatorVotes.keys = {"mallory"} ∧ ce.votes.keys = {"other"} ∧
      (Block.getHash Crypto.sample {}) ≠ "other" ∧ ce.finalised.length = 1 := by
  decide +kernel

end ConsensusEngine

/-! ## One round -/

inductive VoteCall where
  | process (validatorAddr : String) (vote : Bool)
  | submit (validatorAddr blockHash : String) (vote : Bool)

/-- The votes of a round together with the hashes that they were cast for. -/
structure VoteRecord where
  engine : ConsensusEngine
  /-- The hash for which the vote in the table of the round was cast. -/
  castFor : Store String String := ∅
  /-- The hashes for which the votes behind each call of `AddBlock` were cast. -/
  triggers : List (Finset String) := []

namespace VoteRecord

variable (C : Crypto)

def proposedHash (r : VoteRecord) : String :=
  (r.engine.state.proposedBlock.map (Block.getHash C)).getD ""

/-- The hashes for which the votes were cast, with a call. -/
def castAfter (r : VoteRecord) : VoteCall → Store String String
  | .process validatorAddr _ =>
    if r.engine.isEligibleVoter validatorAddr then
      r.castFor.insert validatorAddr (r.proposedHash C)
    else r.castFor
  | .submit validatorAddr blockHash _ => r.castFor.insert validatorAddr blockHash

/-- A call completes a majority of two thirds in the table in which its vote is counted. -/
def Completes (r : VoteRecord) : VoteCall → Prop
  | .process validatorAddr vote => r.engine.isEligibleVoter validatorAddr = true ∧
    ConsensusEngine.hasReachedConsensus
      (r.engine.state.validatorVotes.insert validatorAddr vote) = true
  | .submit validatorAddr blockHash vote =>
    ConsensusEngine.isConsensusReached (r.engine.hashVotes validatorAddr blockHash vote) = true

instance (r : VoteRecord) (call : VoteCall) : Decidable (r.Completes call) := by
  cases call <;> unfold Completes <;> infer_instance

/-- The hashes for which the agreeing votes were cast, in the table in which a call is counted. -/
def votedHashes (r : VoteRecord) : VoteCall → Finset String
  | .process validatorAddr vote =>
    (yesVoters (r.engine.state.validatorVotes.insert validatorAddr vote)).image fun addr =>
      ((r.castAfter C (.process validatorAddr vote)).lookup addr).getD ""
  | .submit _ blockHash _ => {blockHash}

def engineAfter (r : VoteRecord) : VoteCall → ConsensusEngine
  | .process validatorAddr vote => (r.engine.processValidatorVote validatorAddr vote).1
  | .submit validatorAddr blockHash vote => r.engine.submitVote validatorAddr blockHash vote

def vote (r : VoteRecord) (call : VoteCall) : VoteRecord where
  engine := r.engineAfter call
  castFor := r.castAfter C call
  triggers := if r.Completes call then r.triggers ++ [r.votedHashes C call] else r.triggers

/-- The start of a round: no vote has been cast in it, but those for hashes stay from before. -/
def start (ce : ConsensusEngine) (block : Block) (validator : String) (now : ℤ) : VoteRecord where
  engine := { ce with state := ce.state.newRound block validator now, finalised := [] }

/-- **At most one finalisation, by votes for the proposed block.** -/
def FinalisedOnce (r : VoteRecord) : Prop :=
  r.engine.finalised.length ≤ 1 ∧ ∀ hashes ∈ r.triggers, hashes ⊆ {r.proposedHash C}

/-- **The calls that do no harm**: those that complete no majority, and the first one that does, if
the agreeing votes counted with it are for the proposed block. -/
def Harmless (r : VoteRecord) (call : VoteCall) : Prop := r.Completes call →
    r.engine.state.consensusReached = false ∧ r.votedHashes C call ⊆ {r.proposedHash C}

structure Consistent (r : VoteRecord) : Prop where
  length_finalised : r.engine.finalised.length = r.triggers.length
  reached_iff : r.engine.state.consensusReached = true ↔ r.triggers ≠ []

variable {C} {r : VoteRecord}

lemma conclude_eq (ce : ConsensusEngine) : ce.conclude = { ce with
      state := { ce.state with consensusReached := true }
      finalised := ce.finalised ++ [ce.state.proposedBlock] } := rfl

/-- **One call** finalises the proposed block exactly if it completes a majority. -/
lemma engineAfter_spec (r : VoteRecord) (call : VoteCall) :
    (r.engineAfter call).state.proposedBlock = r.engine.state.proposedBlock ∧
      (r.engineAfter call).finalised = (if r.Completes call then
        r.engine.finalised ++ [r.engine.state.proposedBlock] else r.engine.finalised) ∧
      ((r.engineAfter call).state.consensusReached = true ↔
        r.Completes call ∨ r.engine.state.consensusReached = true) := by
  cases call with
  | process validatorAddr vote =>
    by_cases hvoter : r.engine.isEligibleVoter validatorAddr = true
    · by_cases hreached : ConsensusEngine.hasReachedConsensus
          (r.engine.state.validatorVotes.insert validatorAddr vote) = true
      · have hcompletes : r.Completes (.process validatorAddr vote) := ⟨hvoter, hreached⟩
        have hafter : r.engineAfter (.process validatorAddr vote) =
            (r.engine.recordVote validatorAddr vote).conclude := by
          simp only [engineAfter, ConsensusEngine.processValidatorVote, hvoter, if_true]
          exact congrArg Prod.fst (if_pos hreached)
        rw [hafter, if_pos hcompletes, conclude_eq]
        exact ⟨rfl, rfl, by simp [hcompletes]⟩
      · have hcompletes : ¬ r.Completes (.process validatorAddr vote) := fun h => hreached h.2
        have hafter : r.engineAfter (.process validatorAddr vote) =
            r.engine.recordVote validatorAddr vote := by
          simp only [engineAfter, ConsensusEngine.processValidatorVote, hvoter, if_true]
          exact congrArg Prod.fst (if_neg hreached)
        rw [hafter, if_neg hcompletes]
        exact ⟨rfl, rfl, by simp [hcompletes, ConsensusEngine.recordVote]⟩
    · have hcompletes : ¬ r.Completes (.process validatorAddr vote) := fun h => hvoter h.1
      have hafter : r.engineAfter (.process validatorAddr vote) = r.engine := by
        simp only [engineAfter, ConsensusEngine.processValidatorVote]
        exact congrArg Prod.fst (if_neg hvoter)
      rw [hafter, if_neg hcompletes]
      exact ⟨rfl, rfl, by simp [hcompletes]⟩
  | submit validatorAddr blockHash vote =>
    by_cases hcompletes : r.Completes (.submit validatorAddr blockHash vote)
    · have hafter : r.engineAfter (.submit validatorAddr blockHash vote) = _ := if_pos hcompletes
      rw [hafter, if_pos hcompletes, conclude_eq]
      exact ⟨rfl, rfl, by simp [hcompletes]⟩
    · have hafter : r.engineAfter (.submit validatorAddr blockHash vote) = _ := if_neg hcompletes
      rw [hafter, if_neg hcompletes]
      exact ⟨rfl, rfl, by simp [hcompletes, ConsensusEngine.recordVote]⟩

lemma proposedHash_vote (call : VoteCall) : (r.vote C call).proposedHash C = r.proposedHash C := by
  show (Option.map _ (r.engineAfter call).state.proposedBlock).getD "" = _
  rw [(engineAfter_spec r call).1, proposedHash]

lemma Consistent.vote (h : r.Consistent) (call : VoteCall) : (r.vote C call).Consistent := by
  obtain ⟨-, hfinalised, hreached⟩ := engineAfter_spec r call
  by_cases hcompletes : r.Completes call
  · refine ⟨?_, ?_⟩
    · show (r.engineAfter call).finalised.length = (if _ then _ else _ : List _).length
      rw [hfinalised, if_pos hcompletes, if_pos hcompletes, length_append, length_append,
        h.length_finalised]
      rfl
    · show (r.engineAfter call).state.consensusReached = true ↔ (if _ then _ else _ : List _) ≠ []
      rw [hreached, if_pos hcompletes]
      simp [hcompletes]
  · refine ⟨?_, ?_⟩
    · show (r.engineAfter call).finalised.length = (if _ then _ else _ : List _).length
      rw [hfinalised, if_neg hcompletes, if_neg hcompletes, h.length_finalised]
    · show (r.engineAfter call).state.consensusReached = true ↔ (if _ then _ else _ : List _) ≠ []
      rw [hreached, if_neg hcompletes, or_iff_right hcompletes, h.reached_iff]

lemma finalisedOnce_vote (hconsistent : r.Consistent) (h : r.FinalisedOnce C) (call : VoteCall) :
    (r.vote C call).FinalisedOnce C ↔ r.Harmless C call := by
  have hlength := (hconsistent.vote (C := C) call).length_finalised
  rw [FinalisedOnce, proposedHash_vote, hlength, Harmless]
  by_cases hcompletes : r.Completes call
  · have htriggers : (r.vote C call).triggers = r.triggers ++ [r.votedHashes C call] :=
      if_pos hcompletes
    have hfirst : (r.triggers ++ [r.votedHashes C call]).length ≤ 1 ↔
        r.engine.state.consensusReached = false := by
      rw [← Bool.not_eq_true, hconsistent.reached_iff, not_not, length_append,
        ← length_eq_zero_iff, length_singleton]
      omega
    rw [htriggers, hfirst, forall_mem_append, forall_mem_singleton]
    simp only [hcompletes, forall_const]
    exact and_congr_right fun _ => and_iff_right h.2
  · have htriggers : (r.vote C call).triggers = r.triggers := if_neg hcompletes
    rw [htriggers, ← hconsistent.length_finalised]
    exact iff_of_true h fun hc => absurd hc hcompletes

/-- **When a round finalises its block once, by votes for it**: exactly if every call that completes
a majority of two thirds is the first one to do so and the agreeing votes counted with it are for
the hash of the proposed block. -/
theorem finalises_once_iff (C : Crypto) (ce : ConsensusEngine) (block : Block) (validator : String)
    (now : ℤ) (calls : List VoteCall) :
    (∀ r ∈ List.scanl (vote C) (start ce block validator now) calls, r.FinalisedOnce C) ↔
      Run.Along (vote C) (Harmless C) (start ce block validator now) calls := by
  have hstart : (start ce block validator now).Consistent := ⟨rfl, by simp [start,
    ConsensusState.newRound]⟩
  have honce : (start ce block validator now).FinalisedOnce C := by simp [start, FinalisedOnce]
  have halong : Run.Along (vote C) (fun r _ => r.Consistent) (start ce block validator now) calls :=
    Run.along_of_invariant (fun r call h => h.vote call) hstart calls
  exact Run.forall_mem_scanl_iff (I := fun r => r.FinalisedOnce C)
    (fun r call h hconsistent => finalisedOnce_vote hconsistent h call) honce halong

/-- **Two agreeing votes finalise twice, and votes for other blocks finalise as well.** -/
theorem two_votes_finalise_twice :
    let r := start { validators := ConsensusEngine.threeValidators } {} "a" 0
    let twice := [VoteCall.process "a" true, .process "b" true].foldl (vote Crypto.sample) r
    let other := [VoteCall.submit "a" "other" true].foldl (vote Crypto.sample) r
    twice.engine.finalised.length = 2 ∧ other.engine.finalised.length = 1 ∧
      other.triggers = [{"other"}] ∧ other.proposedHash Crypto.sample ≠ "other" := by
  decide +kernel

end VoteRecord

end HybridChain
