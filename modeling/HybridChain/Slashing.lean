import HybridChain.ValidatorSelection

/-!
# Slashing

`SlashingManager` of `slashing.go` and the other functions that write the status of a validator:
`RecordValidation`, `UpdateValidatorScore` and `Start` of `validator.go`, and `UpdateValidatorSet`
of `blockchain.go`.

Validators are numbers for pointers: two of them may have the same address. Counters are unbounded.
Evidence and slashing events are not read; of the database only a failure is kept. The message about
a young stake leaves out the time.

## Main definitions

* `SlashingState`, `handleViolation`, `statusStep`
* `KeepsSlashed`: the operations that leave a validator slashed

## Main results

* `slashed_run_iff`: exactly these do
-/

namespace HybridChain

open KeyedLog (Store)

/-! ## Validators -/

def ValidatorPerformance.record (performance : ValidatorPerformance) (success : Bool) :
    ValidatorPerformance :=
  let performance := if success then
      { performance with blocksValidated := performance.blocksValidated + 1 }
    else { performance with missedValidations := performance.missedValidations + 1 }
  let total := performance.blocksValidated + performance.missedValidations
  if total > 0 then
    { performance with
      uptimePercentage := performance.blocksValidated.toFloat / total.toFloat * 100 }
  else performance

namespace ValidatorRecord

variable (v : ValidatorRecord)

def updateStatus : ValidatorRecord :=
  if v.score < 100 then { v with status := .probation }
  else if v.score ≥ 100 ∧ v.status ≠ .slashed then { v with status := .active }
  else v

def updateValidatorScore (now : ℤ) : ValidatorRecord :=
  match v.performance with
  | none => { v with performance := some { lastUpdate := now } }
  | some performance => { v with score := performance.score }.updateStatus

/-- The performance that `RecordValidation` starts from. -/
def currentPerformance : ValidatorPerformance := v.performance.getD { lastUpdate := zeroTime }

def recordValidation (success : Bool) (now : ℤ) : ValidatorRecord :=
  { v with
    performance := some (v.currentPerformance.record success)
    lastActive := if success then now else v.lastActive }.updateValidatorScore now

def start (syncing : Bool) : ValidatorRecord × Except String Unit :=
  if v.isValidating then (v, .ok ())
  else if v.status = .slashed then
    (v, .error "validator has been slashed and cannot participate")
  else if syncing then (v, .error "cannot start validation while blockchain is syncing")
  else ({ v with isValidating := true, status := .active }, .ok ())

end ValidatorRecord

/-! ## The slashing manager -/

def slashingPenaltyRate : Float := 0.5

def probationPeriod : ℤ := 24 * hour

/-- `SlashingEvidence`. No proof is ever attached. -/
structure SlashingEvidence where
  validatorAddress : String
  violationType : String
  blockHeight : UInt64
  timestamp : ℤ
  description : String

/-- The validators, the stakes and what the slashing manager keeps. -/
structure SlashingState where
  /-- The validator objects. -/
  validators : ℕ → ValidatorRecord := fun _ => {}
  /-- The objects in the map `Validators` of the blockchain. -/
  registered : Store String ℕ := ∅
  stakePool : StakePool := {}
  evidence : Store String (List SlashingEvidence) := ∅
  communityPool : Float := 0
  /-- A closed database fails every call. -/
  dbClosed : Bool := false

namespace SlashingState

variable (s : SlashingState)

def setValidator (p : ℕ) (v : ValidatorRecord) : SlashingState :=
  { s with validators := Function.update s.validators p v }

def slashValidator (p : ℕ) : SlashingState × Except String Unit :=
  let validator := s.validators p
  let address := validator.address
  match s.stakePool.stakes.lookup address with
  | none => (s, .error s!"no stake found for validator {address}")
  | some stake =>
    let penaltyAmount := stake.amount.toFloat * slashingPenaltyRate
    let stake := { stake with amount := stake.amount - penaltyAmount.toUInt64 }
    ({ s.setValidator p { validator with status := .slashed, score := 0 } with
        stakePool := { s.stakePool with stakes := s.stakePool.stakes.insert address stake }
        communityPool := s.communityPool + penaltyAmount },
      if s.dbClosed then .error "failed to record slashing event: database closed" else .ok ())

/-- The part of `HandleViolation` before the threshold is tested: the violation is counted and
evidence is stored. -/
def countViolation (p : ℕ) (violationType : String) (blockHeight : UInt64) (now : ℤ) :
    SlashingState :=
  let validator := { s.validators p with violations := (s.validators p).violations + 1 }
  let count := toString validator.violations
  let evidence : SlashingEvidence :=
    { validatorAddress := validator.address
      violationType := violationType
      blockHeight := blockHeight
      timestamp := now
      description := s!"Violation {count} of type {violationType}" }
  let known := (s.evidence.lookup validator.address).getD []
  { s.setValidator p validator with
    evidence := s.evidence.insert validator.address (known ++ [evidence]) }

/-- `HandleViolation`. `blockHeight` is the number of the latest block. -/
def handleViolation (validator : Option ℕ) (violationType : String) (blockHeight : UInt64)
    (now : ℤ) : SlashingState × Except String Unit :=
  match validator with
  | none => (s, .error "invalid validator")
  | some p =>
    let s := s.countViolation p violationType blockHeight now
    if (s.validators p).violations ≥ slashingThreshold then s.slashValidator p
    else
      (s.setValidator p { s.validators p with
        status := .probation
        probationEndTime := now + probationPeriod }, .ok ())

def clearExpiredProbation (p : ℕ) (now : ℤ) : SlashingState :=
  let validator := s.validators p
  if validator.status = .probation ∧ now > validator.probationEndTime then
    s.setValidator p { validator with status := .active, violations := 0 }
  else s

def verifyStake (address : String) (now : ℤ) : Except String Unit :=
  match s.stakePool.stakes.lookup address with
  | none => .error s!"no stake found for address: {address}"
  | some stake =>
    if now - stake.startTime < minStakeAge then .error "stake not mature yet" else .ok ()

def validateValidator (validator : ValidatorRecord) (now : ℤ) : Except String Unit :=
  match s.verifyStake validator.address now with
  | .error err => .error s!"stake verification failed: {err}"
  | .ok _ =>
    if validator.status = .slashed then .error "validator has been slashed"
    else if validator.status = .active ∧ validator.score < 100 then
      .error s!"validator score too low: {validator.score.toNat}"
    else .ok ()

/-- One turn of the loop of `UpdateValidatorSet`. -/
def refreshValidator (now : ℤ) (s : SlashingState) (address : String) : SlashingState :=
  match s.registered.lookup address with
  | none => s
  | some p =>
    match s.validateValidator (s.validators p) now with
    | .ok _ => s
    | .error _ => s.setValidator p { s.validators p with status := .probation }

/-- `UpdateValidatorSet`. `order` is the order in which the map of validators is enumerated. -/
def updateValidatorSet (order : List String) (now : ℤ) : SlashingState :=
  order.foldl (refreshValidator now) s

/-! ## Runs -/

/-- The operations that write the status of a validator. -/
inductive StatusOp where
  | handleViolation (validator : Option ℕ) (violationType : String) (blockHeight : UInt64)
  | slashValidator (p : ℕ)
  | clearExpiredProbation (p : ℕ)
  | recordValidation (p : ℕ) (success : Bool)
  | updateValidatorScore (p : ℕ)
  | updateValidatorSet (order : List String)
  | start (p : ℕ) (syncing : Bool)

def statusStep (s : SlashingState) (op : ℤ × StatusOp) : SlashingState :=
  match op.2 with
  | .handleViolation validator violationType blockHeight =>
    (s.handleViolation validator violationType blockHeight op.1).1
  | .slashValidator p => (s.slashValidator p).1
  | .clearExpiredProbation p => s.clearExpiredProbation p op.1
  | .recordValidation p success =>
    s.setValidator p ((s.validators p).recordValidation success op.1)
  | .updateValidatorScore p => s.setValidator p ((s.validators p).updateValidatorScore op.1)
  | .updateValidatorSet order => s.updateValidatorSet order op.1
  | .start p syncing => s.setValidator p ((s.validators p).start syncing).1

/-- The status of a validator object is `Slashed`. -/
def IsSlashed (p : ℕ) (s : SlashingState) : Prop := (s.validators p).status = .slashed

/-- **The operations that leave a slashed validator slashed**: a violation from the third on; a
validation or a new score if the score is at least 100; a refresh of the validator set if the
validator is not registered; and all others. -/
def KeepsSlashed (p : ℕ) (s : SlashingState) (op : ℤ × StatusOp) : Prop :=
  match op.2 with
  | .handleViolation validator _ _ =>
    validator = some p → slashingThreshold ≤ (s.validators p).violations + 1
  | .recordValidation q success =>
    q = p → 100 ≤ ((s.validators p).currentPerformance.record success).score
  | .updateValidatorScore q =>
    q = p → ∀ performance, (s.validators p).performance = some performance → 100 ≤ performance.score
  | .updateValidatorSet order => ∀ address ∈ order, s.registered.lookup address ≠ some p
  | .slashValidator _ => True
  | .clearExpiredProbation _ => True
  | .start _ _ => True

end SlashingState

/-! ## Slashed stays slashed -/

namespace ValidatorRecord

variable {v : ValidatorRecord}

lemma status_updateStatus : v.updateStatus.status = .slashed ↔ v.status = .slashed ∧
    100 ≤ v.score := by
  unfold updateStatus
  rw [← UInt64.not_lt]
  split_ifs with hlow hactive
  · simp [hlow]
  · simp [hactive.2]
  · simp [hlow]

lemma status_updateValidatorScore (h : v.status = .slashed) (now : ℤ) :
    (v.updateValidatorScore now).status = .slashed ↔
      ∀ performance, v.performance = some performance → 100 ≤ performance.score := by
  unfold updateValidatorScore
  cases hperformance : v.performance with
  | none => simp [h]
  | some performance =>
    rw [status_updateStatus]
    simp [h]

lemma status_recordValidation (h : v.status = .slashed) (success : Bool) (now : ℤ) :
    (v.recordValidation success now).status = .slashed ↔
      100 ≤ (v.currentPerformance.record success).score := by
  rw [recordValidation, status_updateValidatorScore (by exact h)]
  simp

lemma status_start (h : v.status = .slashed) (syncing : Bool) :
    (v.start syncing).1.status = .slashed := by
  unfold start
  split_ifs <;> exact h

end ValidatorRecord

namespace SlashingState

variable {s : SlashingState} {p : ℕ}

lemma validators_setValidator (q r : ℕ) (v : ValidatorRecord) :
    (s.setValidator q v).validators r = if r = q then v else s.validators r :=
  Function.update_apply s.validators q v r

variable {v : ValidatorRecord} (q : ℕ) (violationType : String) (now : ℤ) (blockHeight : UInt64)

lemma isSlashed_setValidator {q : ℕ} :
    IsSlashed p (s.setValidator q v) ↔ if q = p then v.status = .slashed else IsSlashed p s := by
  rw [IsSlashed, validators_setValidator]
  split_ifs with hp hq hq
  · rfl
  · exact absurd hp.symm hq
  · exact absurd hq.symm hp
  · rfl

lemma isSlashed_slashValidator : IsSlashed p (s.slashValidator q).1 ↔ IsSlashed p s ∨
      q = p ∧ ((s.stakePool.stakes.lookup (s.validators p).address).isSome = true) := by
  cases hstake : s.stakePool.stakes.lookup (s.validators q).address with
  | none =>
    simp only [slashValidator, hstake]
    refine ⟨Or.inl, ?_⟩
    rintro (h | ⟨rfl, h⟩)
    · exact h
    · simp [hstake] at h
  | some stake =>
    simp only [slashValidator, hstake]
    show IsSlashed p (s.setValidator q _) ↔ _
    rw [isSlashed_setValidator]
    split_ifs with hq
    · subst hq
      simp [hstake]
    · simp [hq]

lemma isSlashed_countViolation (now : ℤ) :
    IsSlashed p (s.countViolation q violationType blockHeight now) ↔ IsSlashed p s := by
  show IsSlashed p (s.setValidator q _) ↔ _
  rw [isSlashed_setValidator]
  split_ifs with hq
  · rw [hq, IsSlashed]
  · rfl

lemma violations_countViolation
    (now : ℤ) : ((s.countViolation q violationType blockHeight now).validators q).violations =
      (s.validators q).violations + 1 := by
  simp [countViolation, validators_setValidator]

lemma isSlashed_handleViolation (h : IsSlashed p s) (validator : Option ℕ) (violationType : String)
    (blockHeight : UInt64) (now : ℤ) :
    IsSlashed p (s.handleViolation validator violationType blockHeight now).1 ↔
      (validator = some p → slashingThreshold ≤ (s.validators p).violations + 1) := by
  cases validator with
  | none => simp [handleViolation, h]
  | some q =>
    have hcount := (isSlashed_countViolation q violationType blockHeight now).mpr h
    simp only [handleViolation, violations_countViolation]
    split_ifs with hthird
    · rw [isSlashed_slashValidator]
      refine iff_of_true (Or.inl hcount) fun heq => ?_
      rw [← Option.some.inj heq]
      exact hthird
    · rw [isSlashed_setValidator]
      split_ifs with hq
      · subst hq
        simp [hthird]
      · simp [hq, hcount]

lemma isSlashed_clearExpiredProbation (h : IsSlashed p s) (q : ℕ) (now : ℤ) :
    IsSlashed p (s.clearExpiredProbation q now) := by
  simp only [clearExpiredProbation]
  split_ifs with hexpired
  · rw [isSlashed_setValidator, if_neg]
    · exact h
    · rintro rfl
      exact absurd (h.symm.trans hexpired.1) (by decide)
  · exact h

lemma validateValidator_ne_ok (h : v.status = .slashed) (now : ℤ) :
    ∃ err, s.validateValidator v now = .error err := by
  unfold validateValidator
  cases s.verifyStake v.address now with
  | error err => exact ⟨_, rfl⟩
  | ok _ => exact ⟨_, if_pos h⟩

lemma registered_refreshValidator (address : String) :
    (s.refreshValidator now address).registered = s.registered := by
  unfold refreshValidator
  split
  · rfl
  · split <;> rfl

lemma isSlashed_refreshValidator (address : String) : IsSlashed p (s.refreshValidator now address) ↔
      IsSlashed p s ∧ s.registered.lookup address ≠ some p := by
  cases hq : s.registered.lookup address with
  | none => simp [refreshValidator, hq]
  | some q =>
    cases hvalid : s.validateValidator (s.validators q) now with
    | ok _ =>
      -- what passes is not slashed
      simp only [refreshValidator, hq, hvalid]
      refine ⟨fun h => ⟨h, fun heq => ?_⟩, And.left⟩
      obtain rfl := Option.some.inj heq
      obtain ⟨err, herr⟩ := validateValidator_ne_ok (s := s) h now
      simp [hvalid] at herr
    | error err =>
      simp only [refreshValidator, hq, hvalid]
      rw [isSlashed_setValidator]
      split_ifs with hqp <;> simp [hqp]

lemma isSlashed_updateValidatorSet (order : List String) (now : ℤ) :
    IsSlashed p (s.updateValidatorSet order now) ↔
      IsSlashed p s ∧ ∀ address ∈ order, s.registered.lookup address ≠ some p := by
  unfold updateValidatorSet
  induction order generalizing s with
  | nil => simp
  | cons address order ih =>
    rw [List.foldl_cons, ih, isSlashed_refreshValidator, registered_refreshValidator, and_assoc,
      List.forall_mem_cons]

/-- **One operation.** -/
lemma isSlashed_statusStep (h : IsSlashed p s) (op : ℤ × StatusOp) :
    IsSlashed p (s.statusStep op) ↔ KeepsSlashed p s op := by
  obtain ⟨now, op⟩ := op
  cases op with
  | handleViolation validator violationType blockHeight =>
    exact isSlashed_handleViolation h validator violationType blockHeight now
  | slashValidator q => exact iff_of_true ((isSlashed_slashValidator q).mpr (Or.inl h)) trivial
  | clearExpiredProbation q => exact iff_of_true (isSlashed_clearExpiredProbation h q now) trivial
  | recordValidation q success | updateValidatorScore q =>
    show IsSlashed p (s.setValidator q _) ↔ (q = p → _)
    rw [isSlashed_setValidator]
    split_ifs with hq
    · subst hq
      simp [ValidatorRecord.status_recordValidation h,
        ValidatorRecord.status_updateValidatorScore h]
    · simp [hq, h]
  | updateValidatorSet order =>
    exact (isSlashed_updateValidatorSet order now).trans (and_iff_right h)
  | start q syncing =>
    refine iff_of_true ?_ trivial
    show IsSlashed p (s.setValidator q _)
    rw [isSlashed_setValidator]
    split_ifs with hq
    · subst hq
      exact ValidatorRecord.status_start h syncing
    · exact h

/-- **When slashed validators stay slashed.** Along a run of operations, a validator that is
slashed in some state is slashed in every later one exactly when each operation that meets it
slashed is one that leaves it so. -/
theorem slashed_run_iff (s : SlashingState) (p : ℕ) (ops : List (ℤ × StatusOp)) :
    ((List.scanl statusStep s ops).Pairwise fun s t => IsSlashed p s → IsSlashed p t) ↔
      Run.Along statusStep (fun s op => IsSlashed p s → KeepsSlashed p s op) s ops := by
  rw [Run.pairwise_scanl_iff (R := fun s t => IsSlashed p s → IsSlashed p t)
    fun hab hbc ha => hbc (hab ha)]
  refine Run.Along.congr (P := fun _ _ => True) (fun s op _ => ?_) (Run.along_true s ops)
  exact forall_congr' fun h => isSlashed_statusStep h op

def oneValidator : SlashingState where
  validators _ := { address := "v", status := .active, isValidating := true }
  registered := Finmap.singleton "v" 0
  stakePool := { stakes := Finmap.singleton "v" (.fresh 10) }

/-- **A slashed validator comes back**: a missed validation, a refresh of the validator set or a
violation puts it on probation, and the end of a probation makes it active. -/
theorem slashed_validator_comes_back :
    let status := fun ops => ((List.foldl statusStep oneValidator ops).validators 0).status
    let slash : ℤ × StatusOp := (0, .slashValidator 0)
    status [slash] = .slashed ∧ status [slash, (1, .recordValidation 0 false)] = .probation ∧
      status [slash, (1, .updateValidatorSet ["v"])] = .probation ∧
      status [slash, (1, .handleViolation (some 0) "timeout" 0)] = .probation ∧
      status [slash, (1, .recordValidation 0 false), (2, .clearExpiredProbation 0)] = .active := by
  decide +kernel

end SlashingState

end HybridChain
