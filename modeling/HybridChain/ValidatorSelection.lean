import HybridChain.Lib.CumulativeWalk
import HybridChain.Mining

/-!
# The selection of a validator

`SelectValidator` of `validator_selection.go`: an eligible staker is picked by a walk over the
cumulative weights up to a target drawn from the block height and the previous hash. The list that
is walked comes out of a map.

Times are nanoseconds, and all calls of `time.Now` within one selection give the same time.
Percentages and weights are `Float`s; a conversion that does not fit into 64 bits gives the nearest
number that does, where Go leaves it open. Locks are left out.

## Main definitions

* `getEligibleValidators`, `calculateWeight`, `weightedSelection`, `selectValidator`
* `Enumerates`: an order of the map

## Main results

* `selectValidator_agree_iff`: when all orders lead to the same validator
-/

namespace HybridChain

open KeyedLog (Store)
open CumulativeWalk (walk pick Dominates)
open scoped BigOperators

/-! ## Validators -/

/-- The values of `Status`. -/
inductive ValidatorStatus where
  | pending
  | active
  | probation
  | slashed
  | inactive
  deriving DecidableEq

/-- A `SelectionProof` in memory, its time not yet written out as in a header. -/
structure TimedProof where
  seed : List UInt8
  timestamp : ℤ
  weight : UInt64
  score : UInt64
  deriving DecidableEq

/-- What is kept of a validator: the fields of the source's `Validator` that selection, slashing and
voting read or write. -/
structure ValidatorRecord where
  address : String := ""
  status : ValidatorStatus := .pending
  score : UInt64 := 0
  lastActive : ℤ := 0
  performance : Option ValidatorPerformance := none
  violations : ℤ := 0
  probationEndTime : ℤ := 0
  isValidating : Bool := false
  /-- The private flag, which is not the status of the same name. -/
  slashed : Bool := false
  isSelected : Bool := false
  selectionProof : Option TimedProof := none
  deriving DecidableEq

/-! ## Eligibility -/

def hour : ℤ := 3600000000000

def slashingThreshold : ℤ := 3

def minValidatorStake : UInt64 := 1

def maxInactivityPeriod : ℤ := 24 * hour

def maxStakeAge : ℤ := 365 * 24 * hour

def baseStakeWeight : UInt64 := 100

/-- The score that `calculateValidatorScore` and `UpdateValidatorScore` give for a performance. -/
def ValidatorPerformance.score (performance : ValidatorPerformance) : UInt64 :=
  let baseScore := performance.blocksValidated * 10
  let penalties := performance.missedValidations * 20
  let uptimeScore := (performance.uptimePercentage * 100).toUInt64
  if penalties > baseScore then 0 else baseScore - penalties + uptimeScore

namespace StakeInfo

def isEligible (now : ℤ) (stake : StakeInfo) : Bool :=
  if now - stake.startTime < minStakeAge then false
  else if stake.violations ≥ slashingThreshold then false
  else if stake.withdrawalReq ≠ none then false
  else if stake.amount < minValidatorStake then false
  else if now - stake.lastActive > maxInactivityPeriod then false
  else true

lemma isEligible_iff {now : ℤ} {stake : StakeInfo} :
    stake.isEligible now = true ↔ stake.startTime ≤ now ∧ stake.violations < slashingThreshold ∧
      stake.withdrawalReq = none ∧ minValidatorStake ≤ stake.amount ∧
      now ≤ stake.lastActive + maxInactivityPeriod := by
  unfold isEligible
  have hage : now - stake.startTime < minStakeAge ↔ ¬ stake.startTime ≤ now := by
    rw [minStakeAge]
    omega
  have hactive : now - stake.lastActive > maxInactivityPeriod ↔
      ¬ now ≤ stake.lastActive + maxInactivityPeriod := by omega
  rw [← UInt64.not_lt]
  split_ifs <;> simp_all

def calculateValidatorScore (stake : StakeInfo) : UInt64 :=
  (stake.performance.map ValidatorPerformance.score).getD 0

/-- The validator that `getEligibleValidators` makes of a stake. -/
def candidate (addr : String) (stake : StakeInfo) : ValidatorRecord where
  address := addr
  status := .active
  score := stake.calculateValidatorScore
  lastActive := stake.lastActive
  performance := stake.performance

/-- `Duration.Hours`, of a duration that is not negative. -/
def hours (age : ℤ) : Float := (UInt64.ofNat (age / hour).toNat).toFloat +
    (UInt64.ofNat (age % hour).toNat).toFloat / (UInt64.ofNat hour.toNat).toFloat

def getStakeWeight (now : ℤ) (stakeInfo : StakeInfo) : UInt64 :=
  let age := now - stakeInfo.startTime
  if age < minStakeAge then 0
  else
    let age := if age > maxStakeAge then maxStakeAge else age
    let ageWeight := (hours age / 24).toUInt64
    let baseWeight := stakeInfo.amount * baseStakeWeight / 1000000000
    baseWeight + baseWeight * ageWeight / 365

end StakeInfo

/-! ## Selection -/

def generateSeed (C : Crypto) (height : UInt64) (prevHash : String) : List UInt8 :=
  let bigEndian := (List.range 8).map fun i => UInt8.ofNat (height.toNat / 256 ^ (7 - i))
  (C.sha256 (bigEndian ++ Text.bytes prevHash)).toList

def generateRandomUint64 (C : Crypto) (seed : List UInt8) : UInt64 :=
  UInt64.ofNat (setBytes ((C.sha256 seed).toList.take 8))

/-- Why no validator is selected: an error, or a panic at the remainder by a total weight of
zero. -/
inductive SelectionError where
  | error (message : String)
  | divideByZero
  deriving DecidableEq

namespace StakePool

variable (C : Crypto) (sp : StakePool)

def performanceMultiplier (now : ℤ) (performance : ValidatorPerformance) : Float :=
  let multiplier : Float := 1
  let multiplier := if performance.uptimePercentage ≥ 99 then multiplier * 1.2 else multiplier
  let validationRatio := performance.blocksValidated.toFloat /
    (performance.blocksValidated + performance.missedValidations).toFloat
  let multiplier := if validationRatio ≥ 0.95 then multiplier * 1.1 else multiplier
  if now - performance.lastUpdate < hour then multiplier * 1.1 else multiplier

def calculateWeight (now : ℤ) (v : ValidatorRecord) : UInt64 :=
  match sp.stakes.lookup v.address with
  | none => 0
  | some stakeInfo =>
    let baseWeight := stakeInfo.getStakeWeight now
    match v.performance with
    | none => baseWeight
    | some performance => (baseWeight.toFloat * performanceMultiplier now performance).toUInt64

/-- `getEligibleValidators`. `order` is the order in which the map of stakes is enumerated. -/
def getEligibleValidators (order : List String) (now : ℤ) : List ValidatorRecord :=
  order.filterMap fun addr => (sp.stakes.lookup addr).bind fun stake =>
    if stake.isEligible now then some (stake.candidate addr) else none

def weightedSelection (validators : List ValidatorRecord) (seed : List UInt8) (now : ℤ) :
    Except SelectionError (Option (ValidatorRecord × TimedProof)) :=
  let weight := sp.calculateWeight now
  let totalWeight := (validators.map weight).sum
  if totalWeight = 0 then .error .divideByZero
  else
    let target := generateRandomUint64 C seed % totalWeight
    .ok ((walk weight target 0 validators).map fun stop =>
      (stop.1, { seed := seed, timestamp := now, weight := weight stop.1, score := stop.2 }))

/-- `SelectValidator`: the pool afterwards, and the validator with the proof of its selection. -/
def selectValidator (order : List String) (blockHeight : UInt64) (previousHash : String) (now : ℤ) :
    StakePool × Except SelectionError (ValidatorRecord × TimedProof) :=
  let seed := generateSeed C blockHeight previousHash
  let validators := sp.getEligibleValidators order now
  if validators.isEmpty then (sp, .error (.error "no eligible validators"))
  else
    match sp.weightedSelection C validators seed now with
    | .error err => (sp, .error err)
    | .ok none => (sp, .error (.error "validator selection failed"))
    | .ok (some (v, proof)) =>
      let selected :=
        { v with isSelected := true, selectionProof := some proof, lastActive := now }
      let stakes := match sp.stakes.lookup v.address with
        | none => sp.stakes
        | some stakeInfo => sp.stakes.insert v.address
            { stakeInfo with
              lastActive := now
              selectionCount := stakeInfo.selectionCount + 1 }
      ({ sp with stakes := stakes }, .ok (selected, proof))

/-- The address of the validator that a selection leads to. -/
def selectedAddress (order : List String) (blockHeight : UInt64) (previousHash : String)
    (now : ℤ) : Except SelectionError String :=
  (sp.selectValidator C order blockHeight previousHash now).2.map fun r => r.1.address

/-! ## A selection is a walk over addresses -/

/-- The orders in which the map of stakes may be enumerated. -/
def Enumerates (order : List String) : Prop := order.Nodup ∧ ∀ addr, addr ∈ order ↔ addr ∈ sp.stakes

/-- An address whose stake is eligible. -/
def EligibleAddress (now : ℤ) (addr : String) : Prop :=
  ∃ stake, sp.stakes.lookup addr = some stake ∧ stake.isEligible now = true

instance (now : ℤ) (addr : String) : Decidable (sp.EligibleAddress now addr) :=
  decidable_of_iff ((sp.stakes.lookup addr).any fun stake => stake.isEligible now) (by
    simp [EligibleAddress, Option.any_eq_true])

def eligibleAddresses (now : ℤ) : Finset String := sp.stakes.keys.filter (sp.EligibleAddress now)

def addressWeight (now : ℤ) (addr : String) : UInt64 :=
  match sp.stakes.lookup addr with
  | none => 0
  | some stake => sp.calculateWeight now (stake.candidate addr)

def selectionTarget (blockHeight : UInt64) (previousHash : String) (now : ℤ) : UInt64 :=
  generateRandomUint64 C (generateSeed C blockHeight previousHash) %
    ∑ addr ∈ sp.eligibleAddresses now, sp.addressWeight now addr

variable {C sp} {order : List String} {now : ℤ} {addr : String}

lemma mem_eligibleAddresses :
    addr ∈ sp.eligibleAddresses now ↔ sp.EligibleAddress now addr := by
  rw [eligibleAddresses, Finset.mem_filter, and_iff_right_iff_imp]
  rintro ⟨stake, hstake, -⟩
  exact Finmap.mem_keys.mpr (Finmap.mem_of_lookup_eq_some hstake)

lemma map_address_getEligibleValidators :
    (sp.getEligibleValidators order now).map ValidatorRecord.address =
      order.filter (· ∈ sp.eligibleAddresses now) := by
  induction order with
  | nil => rfl
  | cons addr order ih =>
    by_cases hmem : addr ∈ sp.eligibleAddresses now
    · obtain ⟨stake, hstake, heligible⟩ := mem_eligibleAddresses.mp hmem
      rw [List.filter_cons_of_pos (by simpa using hmem), ← ih, getEligibleValidators,
        List.filterMap_cons_some (b := stake.candidate addr) (by simp [hstake, heligible])]
      rfl
    · rw [List.filter_cons_of_neg (by simpa using hmem), ← ih, getEligibleValidators,
        List.filterMap_cons_none]
      · rfl
      · rw [Option.bind_eq_none_iff]
        intro stake hstake
        exact if_neg fun heligible => hmem (mem_eligibleAddresses.mpr ⟨stake, hstake, heligible⟩)

variable {v : ValidatorRecord}

lemma addressWeight_of_mem (hv : v ∈ sp.getEligibleValidators order now) :
    sp.addressWeight now v.address = sp.calculateWeight now v := by
  obtain ⟨addr, -, hv⟩ := List.mem_filterMap.mp hv
  obtain ⟨stake, hstake, hv⟩ := Option.bind_eq_some_iff.mp hv
  split_ifs at hv
  obtain rfl := Option.some.inj hv
  show (match sp.stakes.lookup addr with
    | none => 0
    | some stake => sp.calculateWeight now (stake.candidate addr)) = _
  rw [hstake]

def outcome (picked : Option String) : Except SelectionError String :=
  picked.elim (.error (.error "validator selection failed")) .ok

lemma outcome_injective : Function.Injective outcome := by
  intro a b h
  cases a <;> cases b <;> simp_all [outcome]

/-- **A selection is a walk over the eligible addresses**, in the order of the enumeration. -/
lemma selectedAddress_eq (blockHeight : UInt64) (previousHash : String) :
    sp.selectedAddress C order blockHeight previousHash now =
      let addrs := order.filter (· ∈ sp.eligibleAddresses now)
      let weight := sp.addressWeight now
      let target := generateRandomUint64 C (generateSeed C blockHeight previousHash) %
        (addrs.map weight).sum
      if addrs = [] then .error (.error "no eligible validators")
      else if (addrs.map weight).sum = 0 then .error .divideByZero
      else outcome (pick weight target addrs) := by
  have hweights : (sp.getEligibleValidators order now).map (sp.calculateWeight now) =
      (order.filter (· ∈ sp.eligibleAddresses now)).map (sp.addressWeight now) := by
    rw [← map_address_getEligibleValidators, List.map_map]
    exact List.map_congr_left fun v hv => (addressWeight_of_mem hv).symm
  have hwalk := fun t => CumulativeWalk.walk_map (t := t) (f := ValidatorRecord.address)
    (fun v (hv : v ∈ sp.getEligibleValidators order now) => addressWeight_of_mem hv) 0
  rw [map_address_getEligibleValidators] at hwalk
  have hempty : (sp.getEligibleValidators order now).isEmpty = true ↔
      order.filter (· ∈ sp.eligibleAddresses now) = [] := by
    rw [← map_address_getEligibleValidators, List.map_eq_nil_iff, List.isEmpty_iff]
  unfold selectedAddress selectValidator weightedSelection
  simp only [hweights, pick, hwalk, hempty]
  split_ifs
  · rfl
  · rfl
  · generalize generateRandomUint64 C _ % _ = target
    cases walk (sp.calculateWeight now) target 0 (sp.getEligibleValidators order now) <;> rfl

lemma eligibleAddress_of_mem
    (hv : v ∈ sp.getEligibleValidators order now) : sp.EligibleAddress now v.address := by
  have hmem := List.mem_map_of_mem (f := ValidatorRecord.address) hv
  rw [map_address_getEligibleValidators] at hmem
  exact mem_eligibleAddresses.mp (of_decide_eq_true (List.mem_filter.mp hmem).2)

lemma mem_of_weightedSelection {validators : List ValidatorRecord} {seed : List UInt8}
    {proof : TimedProof}
    (h : sp.weightedSelection C validators seed now = .ok (some (v, proof))) : v ∈ validators := by
  unfold weightedSelection at h
  simp only at h
  split_ifs at h
  obtain ⟨⟨v', cumulative⟩, hwalk, heq⟩ := Option.map_eq_some_iff.mp (Except.ok.inj h)
  obtain ⟨rfl, -⟩ := Prod.mk.inj heq
  obtain ⟨before, after, rfl, -⟩ := CumulativeWalk.walk_eq_some_iff.mp hwalk
  simp

/-- **A selection writes to the stake of an eligible address** or to nothing. -/
lemma selectValidator_fst (C : Crypto) (sp : StakePool) (order : List String)
    (blockHeight : UInt64) (previousHash : String) (now : ℤ) :
    (sp.selectValidator C order blockHeight previousHash now).1 = sp ∨
      ∃ addr stake, sp.EligibleAddress now addr ∧
        (sp.selectValidator C order blockHeight previousHash now).1 =
          { sp with stakes := sp.stakes.insert addr stake } := by
  cases hselect : sp.weightedSelection C (sp.getEligibleValidators order now)
      (generateSeed C blockHeight previousHash) now with
  | error err =>
    left
    simp only [selectValidator, hselect]
    split_ifs <;> rfl
  | ok selection =>
    cases selection with
    | none =>
      left
      simp only [selectValidator, hselect]
      split_ifs <;> rfl
    | some selection =>
      obtain ⟨v, proof⟩ := selection
      have hv := mem_of_weightedSelection hselect
      obtain ⟨stake, hstake, heligible⟩ := eligibleAddress_of_mem hv
      right
      refine ⟨v.address,
        { stake with lastActive := now, selectionCount := stake.selectionCount + 1 },
        ⟨stake, hstake, heligible⟩, ?_⟩
      have hsome : (sp.getEligibleValidators order now).isEmpty = false :=
        List.isEmpty_eq_false_iff.mpr (List.ne_nil_of_mem hv)
      simp only [selectValidator, hselect, hsome, hstake, Bool.false_eq_true, if_false]

/-! ## When the order does not matter -/

lemma Enumerates.toFinset_filter (h : sp.Enumerates order) :
    (order.filter (· ∈ sp.eligibleAddresses now)).toFinset = sp.eligibleAddresses now := by
  ext addr
  rw [List.mem_toFinset, List.mem_filter, h.2, decide_eq_true_eq, and_iff_right_iff_imp]
  intro hmem
  obtain ⟨stake, hstake, -⟩ := mem_eligibleAddresses.mp hmem
  exact Finmap.mem_of_lookup_eq_some hstake

lemma Enumerates.mem_map_address (h : sp.Enumerates order) :
    addr ∈ (sp.getEligibleValidators order now).map ValidatorRecord.address ↔
      sp.EligibleAddress now addr := by
  rw [map_address_getEligibleValidators, ← List.mem_toFinset, h.toFinset_filter,
    mem_eligibleAddresses]

lemma Enumerates.exists_filter_eq (h : sp.Enumerates order) {l : List String}
    (hl : l.Perm (order.filter (· ∈ sp.eligibleAddresses now))) :
    ∃ order', sp.Enumerates order' ∧ order'.filter (· ∈ sp.eligibleAddresses now) = l := by
  let rest := order.filter fun addr => !decide (addr ∈ sp.eligibleAddresses now)
  have hperm : (l ++ rest).Perm order :=
    (hl.append_right rest).trans (List.filter_append_perm _ order)
  refine ⟨l ++ rest, ⟨hperm.nodup_iff.mpr h.1, fun addr => ?_⟩, ?_⟩
  · rw [hperm.mem_iff, h.2]
  · have hrest : rest.filter (· ∈ sp.eligibleAddresses now) = [] := by
      rw [List.filter_eq_nil_iff]
      intro addr haddr
      have := (List.mem_filter.mp haddr).2
      simpa using this
    have hself : l.filter (· ∈ sp.eligibleAddresses now) = l := by
      rw [List.filter_eq_self]
      intro addr haddr
      exact (List.mem_filter.mp (hl.mem_iff.mp haddr)).2
    rw [List.filter_append, hself, hrest, List.append_nil]

lemma Enumerates.filter_perm {order' : List String} (h : sp.Enumerates order)
    (h' : sp.Enumerates order') : (order.filter (· ∈ sp.eligibleAddresses now)).Perm
      (order'.filter (· ∈ sp.eligibleAddresses now)) := by
  refine List.Perm.filter _ ((List.perm_ext_iff_of_nodup h.1 h'.1).mpr fun addr => ?_)
  rw [h.2, h'.2]

lemma Enumerates.sum_addressWeight (h : sp.Enumerates order) :
    ((order.filter (· ∈ sp.eligibleAddresses now)).map (sp.addressWeight now)).sum =
      ∑ addr ∈ sp.eligibleAddresses now, sp.addressWeight now addr := by
  rw [← List.sum_toFinset _ (h.1.filter _), h.toFinset_filter]

lemma Enumerates.filter_eq_nil_iff (h : sp.Enumerates order) :
    order.filter (· ∈ sp.eligibleAddresses now) = [] ↔ sp.eligibleAddresses now = ∅ := by
  rw [← List.toFinset_eq_empty_iff, h.toFinset_filter]

lemma Enumerates.selectedAddress_eq_outcome (h : sp.Enumerates order)
    (hempty : sp.eligibleAddresses now ≠ ∅)
    (hzero : ∑ addr ∈ sp.eligibleAddresses now, sp.addressWeight now addr ≠ 0)
    (blockHeight : UInt64) (previousHash : String) :
    sp.selectedAddress C order blockHeight previousHash now =
      outcome (pick (sp.addressWeight now) (sp.selectionTarget C blockHeight previousHash now)
        (order.filter (· ∈ sp.eligibleAddresses now))) := by
  simp only [selectedAddress_eq, h.filter_eq_nil_iff, h.sum_addressWeight, hempty, hzero, if_false]
  rfl

lemma enumerates_toList : sp.Enumerates sp.stakes.keys.toList :=
  ⟨Finset.nodup_toList _, fun addr => by rw [Finset.mem_toList, Finmap.mem_keys]⟩

/-- **When all orders lead to the same validator**: there is no eligible address, or the total
weight is zero and the selection panics, or one eligible address dominates the others: no sum of
weights of others reaches the target, and each one does with the weight of the address.

**Proof sketch.** The walk is over the eligible addresses in the order of the enumeration, and every
order of them occurs; so the rule for walks applies. -/
theorem selectValidator_agree_iff (C : Crypto) (sp : StakePool) (blockHeight : UInt64)
    (previousHash : String) (now : ℤ) :
    (∀ order₁ order₂, sp.Enumerates order₁ → sp.Enumerates order₂ →
      sp.selectedAddress C order₁ blockHeight previousHash now =
        sp.selectedAddress C order₂ blockHeight previousHash now) ↔
      sp.eligibleAddresses now = ∅ ∨
        ∑ addr ∈ sp.eligibleAddresses now, sp.addressWeight now addr = 0 ∨
        ∃ addr ∈ sp.eligibleAddresses now, Dominates (sp.addressWeight now)
          (sp.selectionTarget C blockHeight previousHash now) (sp.eligibleAddresses now) addr := by
  by_cases hempty : sp.eligibleAddresses now = ∅
  case pos =>
    refine iff_of_true (fun order₁ order₂ h₁ h₂ => ?_) (Or.inl hempty)
    simp only [selectedAddress_eq, h₁.filter_eq_nil_iff.mpr hempty,
      h₂.filter_eq_nil_iff.mpr hempty, if_true]
  by_cases hzero : ∑ addr ∈ sp.eligibleAddresses now, sp.addressWeight now addr = 0
  case pos =>
    refine iff_of_true (fun order₁ order₂ h₁ h₂ => ?_) (Or.inr (Or.inl hzero))
    simp only [selectedAddress_eq, h₁.filter_eq_nil_iff, h₂.filter_eq_nil_iff,
      h₁.sum_addressWeight, h₂.sum_addressWeight, hzero, if_true]
  have hall : sp.Enumerates sp.stakes.keys.toList := enumerates_toList
  have hreach : sp.selectionTarget C blockHeight previousHash now ≤ _ :=
    UInt64.le_of_lt (UInt64.mod_lt _ (UInt64.pos_iff_ne_zero.mpr hzero))
  have hagree := CumulativeWalk.agree_iff (hall.1.filter _)
    (mt hall.filter_eq_nil_iff.mp hempty) (by rwa [hall.sum_addressWeight])
  rw [hall.toFinset_filter] at hagree
  rw [or_iff_right hempty, or_iff_right hzero]
  constructor
  · intro h
    obtain ⟨addr, haddr, hdom⟩ := hagree.mp fun l₁ l₂ hl₁ hl₂ => by
      obtain ⟨order₁, h₁, rfl⟩ := hall.exists_filter_eq hl₁
      obtain ⟨order₂, h₂, rfl⟩ := hall.exists_filter_eq hl₂
      have hsame := h order₁ order₂ h₁ h₂
      rw [h₁.selectedAddress_eq_outcome hempty hzero,
        h₂.selectedAddress_eq_outcome hempty hzero] at hsame
      exact outcome_injective hsame
    refine ⟨addr, ?_, hdom⟩
    rwa [← hall.toFinset_filter, List.mem_toFinset]
  · rintro ⟨addr, haddr, hdom⟩ order₁ order₂ h₁ h₂
    rw [h₁.selectedAddress_eq_outcome hempty hzero, h₂.selectedAddress_eq_outcome hempty hzero]
    rw [← hall.toFinset_filter, List.mem_toFinset] at haddr
    exact congrArg outcome (hagree.mpr ⟨addr, haddr, hdom⟩ _ _ (h₁.filter_perm hall)
      (h₂.filter_perm hall))

def twoStakers : StakePool where
  stakes := (Finmap.singleton "alice" (.fresh 1000000000)).insert "bob" (.fresh 1000000000)

/-- **The first one in the order is picked**: for two stakers of weight 100 and the target one, the
two orders of the map lead to different validators. -/
theorem selectValidator_first_in_order :
    twoStakers.Enumerates ["alice", "bob"] ∧ twoStakers.Enumerates ["bob", "alice"] ∧
      twoStakers.selectedAddress Crypto.sample ["alice", "bob"] 1 "" 0 = .ok "alice" ∧
      twoStakers.selectedAddress Crypto.sample ["bob", "alice"] 1 "" 0 = .ok "bob" := by
  have hkeys : ∀ addr, addr ∈ twoStakers.stakes ↔ addr = "bob" ∨ addr = "alice" := fun addr => by
    rw [twoStakers, Finmap.mem_insert, Finmap.mem_singleton]
  refine ⟨⟨by decide, fun addr => ?_⟩, ⟨by decide, fun addr => ?_⟩, by decide +kernel,
    by decide +kernel⟩
  · rw [hkeys, List.mem_cons, List.mem_singleton, or_comm]
  · rw [hkeys, List.mem_cons, List.mem_singleton]

end StakePool

end HybridChain
