import HybridChain.StakeLedger

/-!
# The distribution of rewards

`rewards.go`: a validator gets seven tenths of the reward of a block, times a factor that depends on
its score; the stakers share three tenths, and get an annual reward besides.

All numbers are rational where the source has `float64`. `order` is the order in which the map of
stakes is enumerated. `AddBalance` never fails.

## Main definitions

* `distributeRewards`, `calculateValidatorReward`, `calculateStakeReward`
* `annualRewards`: the annual parts

## Main results

* `totalBalance_distributeRewards`: what is distributed
* `distribution_bounded_iff`: when it is not more than the reward
-/

namespace HybridChain

open List
open KeyedLog (Store)

def baseBlockReward : ℚ := 50

def stakeRewardRate : ℚ := 1 / 20

def validatorRewardShare : ℚ := 7 / 10

def stakerRewardShare : ℚ := 3 / 10

def rewardHalvingPeriod : UInt64 := 210000

def minStakeTime : ℤ := 24 * hour

def maxRewardMultiplier : ℚ := 2

/-- `time.Since`. A duration that does not fit into 64 bits is cut off. -/
def durationSince (now time : ℤ) : ℤ := max (-2 ^ 63) (min (2 ^ 63 - 1) (now - time))

/-- The times at which the clock is read for one staker. -/
structure StakeTimes where
  /-- For the age of the stake. -/
  age : ℤ
  /-- For the time since the last reward. -/
  reward : ℤ
  /-- For the new `LastRewardTime`. -/
  paid : ℤ
  /-- For the event. -/
  event : ℤ

/-- The times at which the clock is read in one distribution. -/
structure RewardClock where
  /-- For the event of the validator. -/
  validator : ℤ
  stakes : String → StakeTimes

/-- A clock that always shows the same time. -/
def RewardClock.still (now : ℤ) : RewardClock := ⟨now, fun _ => ⟨now, now, now, now⟩⟩

inductive RewardType where
  | validator
  | stake
  deriving DecidableEq

structure RewardEvent where
  address : String
  amount : ℚ
  rewardType : RewardType
  blockHeight : UInt64
  timestamp : ℤ
  deriving DecidableEq

/-- `RewardCalculator`, with the balances of its blockchain. -/
structure RewardCalculator where
  balances : Store String ℚ := ∅
  stakePool : StakePool := {}
  rewardHistory : Store String (List RewardEvent) := ∅

def StakePool.getTotalStake (sp : StakePool) : ℚ :=
  KeyedLog.total (fun _ stake => (stake.amount.toNat : ℚ)) sp.stakes

def StakePool.stakedBy (sp : StakePool) (addr : String) : ℚ :=
  KeyedLog.weight (fun _ stake => (stake.amount.toNat : ℚ)) sp.stakes addr

def StakeInfo.timeBasedReward (stake : StakeInfo) (now : ℤ) : ℚ :=
  let annualReward := stake.amount.toNat * stakeRewardRate
  annualReward * (durationSince now stake.lastRewardTime / hour) / (24 * 365)

namespace RewardCalculator

def calculateBlockReward (blockHeight : UInt64) : ℚ :=
  let halvings := blockHeight / rewardHalvingPeriod
  max (baseBlockReward / 2 ^ halvings.toNat) 0

def calculatePerformanceMultiplier (validator : ValidatorRecord) : ℚ :=
  if validator.score < 50 then 1 / 2
  else min (validator.score.toNat / 100) maxRewardMultiplier

def calculateValidatorReward (validator : Option ValidatorRecord) (blockReward : ℚ) : ℚ :=
  match validator with
  | none => 0
  | some validator =>
    blockReward * validatorRewardShare * calculatePerformanceMultiplier validator

variable (rc : RewardCalculator)

def calculateStakeReward (stake : Option StakeInfo) (blockReward : ℚ) (times : StakeTimes) : ℚ :=
  match stake with
  | none => 0
  | some stake =>
    if stake.amount = 0 then 0
    else if durationSince times.age stake.startTime < minStakeTime then 0
    else
      let totalStake := rc.stakePool.getTotalStake
      if totalStake = 0 then stake.timeBasedReward times.reward
      else
        stake.timeBasedReward times.reward +
          blockReward * stakerRewardShare * (stake.amount.toNat / totalStake)

def addBalance (address : String) (amount : ℚ) : RewardCalculator :=
  { rc with balances := rc.balances.insert address ((rc.balances.lookup address).getD 0 + amount) }

def recordRewardEvent (event : RewardEvent) : RewardCalculator :=
  let history := (rc.rewardHistory.lookup event.address).getD []
  { rc with rewardHistory := rc.rewardHistory.insert event.address (history ++ [event]) }

/-- The first part of `DistributeRewards`. -/
def distributeToValidator (block : Block) (validator : Option ValidatorRecord)
    (clock : RewardClock) : RewardCalculator :=
  let blockHeight := block.header.blockNumber
  let validatorReward := calculateValidatorReward validator (calculateBlockReward blockHeight)
  match validator with
  | none => rc
  | some validator =>
    if validatorReward > 0 then
      (rc.addBalance validator.address validatorReward).recordRewardEvent
        ⟨validator.address, validatorReward, .validator, blockHeight, clock.validator⟩
    else rc

/-- One turn of the loop of `DistributeRewards`. -/
def distributeToStake (block : Block) (clock : RewardClock) (addr : String) : RewardCalculator :=
  let blockHeight := block.header.blockNumber
  match rc.stakePool.stakes.lookup addr with
  | none => rc
  | some stake =>
    let times := clock.stakes addr
    let stakeReward := rc.calculateStakeReward (some stake) (calculateBlockReward blockHeight) times
    if stakeReward > 0 then
      let rc := rc.addBalance addr stakeReward
      let stakes := rc.stakePool.stakes.insert addr { stake with lastRewardTime := times.paid }
      let rc := { rc with stakePool := { rc.stakePool with stakes := stakes } }
      rc.recordRewardEvent ⟨addr, stakeReward, .stake, blockHeight, times.event⟩
    else rc

def distributeRewards (block : Block) (validator : Option ValidatorRecord) (order : List String)
    (clock : RewardClock) : RewardCalculator :=
  order.foldl (fun rc addr => rc.distributeToStake block clock addr)
    (rc.distributeToValidator block validator clock)

def totalBalance : ℚ := KeyedLog.total (fun _ balance => balance) rc.balances

/-! ## The credits -/

variable {rc} {block : Block} {clock : RewardClock} {addr : String}

lemma totalBalance_addBalance (address : String) (amount : ℚ) :
    (rc.addBalance address amount).totalBalance = rc.totalBalance + amount := by
  have hweight : KeyedLog.weight (fun _ balance => balance) rc.balances address =
      (rc.balances.lookup address).getD 0 := by
    rw [KeyedLog.weight]
    cases rc.balances.lookup address <;> rfl
  rw [totalBalance, addBalance, KeyedLog.total_insert, hweight, totalBalance]
  ring

lemma calculateBlockReward_pos (blockHeight : UInt64) : 0 < calculateBlockReward blockHeight := by
  refine lt_max_of_lt_left ?_
  rw [baseBlockReward]
  positivity

lemma calculatePerformanceMultiplier_nonneg (validator : ValidatorRecord) :
    0 ≤ calculatePerformanceMultiplier validator := by
  unfold calculatePerformanceMultiplier maxRewardMultiplier
  split_ifs
  · norm_num
  · positivity

variable {order : List String} (validator : Option ValidatorRecord)

lemma calculateValidatorReward_nonneg {blockReward : ℚ}
    (h : 0 ≤ blockReward) : 0 ≤ calculateValidatorReward validator blockReward := by
  cases validator with
  | none => exact le_rfl
  | some validator =>
    have hmultiplier := calculatePerformanceMultiplier_nonneg validator
    rw [calculateValidatorReward, validatorRewardShare]
    positivity

lemma totalBalance_distributeToValidator :
    (rc.distributeToValidator block validator clock).totalBalance = rc.totalBalance +
        calculateValidatorReward validator (calculateBlockReward block.header.blockNumber) := by
  have hnonneg := calculateValidatorReward_nonneg validator
    (calculateBlockReward_pos block.header.blockNumber).le
  cases validator with
  | none => exact (add_zero _).symm
  | some validator =>
    simp only [distributeToValidator]
    split_ifs with hpos
    · exact totalBalance_addBalance _ _
    · rw [le_antisymm (not_lt.mp hpos) hnonneg, add_zero]

lemma stakePool_distributeToValidator :
    (rc.distributeToValidator block validator clock).stakePool = rc.stakePool := by
  cases validator with
  | none => rfl
  | some validator =>
    simp only [distributeToValidator]
    split_ifs <;> rfl

def stakeReward (rc : RewardCalculator) (block : Block) (clock : RewardClock) (addr : String) : ℚ :=
  rc.calculateStakeReward (rc.stakePool.stakes.lookup addr)
    (calculateBlockReward block.header.blockNumber) (clock.stakes addr)

lemma totalBalance_distributeToStake (addr : String) :
    (rc.distributeToStake block clock addr).totalBalance =
      rc.totalBalance + max (rc.stakeReward block clock addr) 0 := by
  unfold stakeReward distributeToStake
  cases rc.stakePool.stakes.lookup addr with
  | none =>
    rw [calculateStakeReward, max_self]
    exact (add_zero _).symm
  | some stake =>
    simp only
    split_ifs with hpos
    · rw [max_eq_left hpos.le]
      exact totalBalance_addBalance addr _
    · rw [max_eq_right (not_lt.mp hpos), add_zero]

lemma stakes_distributeToStake (rc : RewardCalculator) (block : Block) (clock : RewardClock)
    (addr : String) :
    (rc.distributeToStake block clock addr).stakePool.stakes = rc.stakePool.stakes ∨
      ∃ stake, rc.stakePool.stakes.lookup addr = some stake ∧
        (rc.distributeToStake block clock addr).stakePool.stakes = rc.stakePool.stakes.insert addr
            { stake with lastRewardTime := (clock.stakes addr).paid } := by
  unfold distributeToStake
  cases hstake : rc.stakePool.stakes.lookup addr with
  | none => exact .inl rfl
  | some stake =>
    simp only
    split_ifs
    · exact .inr ⟨stake, rfl, rfl⟩
    · exact .inl rfl

lemma getTotalStake_distributeToStake (addr : String) :
    (rc.distributeToStake block clock addr).stakePool.getTotalStake =
      rc.stakePool.getTotalStake := by
  rw [StakePool.getTotalStake, StakePool.getTotalStake]
  rcases stakes_distributeToStake rc block clock addr with
    hsame | ⟨stake, hstake, hinsert⟩
  · rw [hsame]
  · rw [hinsert, KeyedLog.total_insert, KeyedLog.weight_of_lookup _ hstake, sub_add_cancel]

lemma stakeReward_distributeToStake {other : String} (hne : other ≠ addr) :
    (rc.distributeToStake block clock addr).stakeReward block clock other =
      rc.stakeReward block clock other := by
  have hlookup : (rc.distributeToStake block clock addr).stakePool.stakes.lookup other =
      rc.stakePool.stakes.lookup other := by
    rcases stakes_distributeToStake rc block clock addr with
      hsame | ⟨stake, -, hinsert⟩
    · rw [hsame]
    · rw [hinsert, Finmap.lookup_insert_of_ne _ hne]
  unfold stakeReward calculateStakeReward
  rw [hlookup, getTotalStake_distributeToStake]

/-- **The loop** credits every staker whose reward is positive. -/
lemma totalBalance_foldl (hnodup : order.Nodup) (rc : RewardCalculator) :
    (order.foldl (fun rc addr => rc.distributeToStake block clock addr) rc).totalBalance =
      rc.totalBalance + (order.map fun addr => max (rc.stakeReward block clock addr) 0).sum := by
  induction order generalizing rc with
  | nil => exact (add_zero _).symm
  | cons addr order ih =>
    obtain ⟨hnot, hnodup⟩ := nodup_cons.mp hnodup
    have hothers : (order.map fun other =>
        max ((rc.distributeToStake block clock addr).stakeReward block clock other) 0) =
        order.map fun other => max (rc.stakeReward block clock other) 0 := by
      refine map_congr_left fun other hother => ?_
      have hne : other ≠ addr := fun heq => hnot (heq ▸ hother)
      rw [stakeReward_distributeToStake hne]
    rw [foldl_cons, ih hnodup, hothers, totalBalance_distributeToStake, map_cons,
      sum_cons, add_assoc]

/-- **What a distribution credits**: the reward of the validator, and the positive rewards of the
stakers. -/
theorem totalBalance_distributeRewards (hnodup : order.Nodup)
    (rc : RewardCalculator) (block : Block) (validator : Option ValidatorRecord)
    (clock : RewardClock) :
    (rc.distributeRewards block validator order clock).totalBalance = rc.totalBalance +
        calculateValidatorReward validator (calculateBlockReward block.header.blockNumber) +
        (order.map fun addr => max (rc.stakeReward block clock addr) 0).sum := by
  have hsame : ∀ addr, (rc.distributeToValidator block validator clock).stakeReward block clock
      addr = rc.stakeReward block clock addr := by
    intro addr
    unfold stakeReward calculateStakeReward
    rw [stakePool_distributeToValidator]
  rw [distributeRewards, totalBalance_foldl hnodup, totalBalance_distributeToValidator]
  simp only [hsame]

/-! ## The parts of a reward -/

/-- The annual part of a reward that is credited. -/
def annualPart (rc : RewardCalculator) (block : Block) (clock : RewardClock) (addr : String) : ℚ :=
  if rc.stakeReward block clock addr > 0 then
    (rc.stakePool.stakes.lookup addr).elim 0 fun stake =>
      stake.timeBasedReward (clock.stakes addr).reward
  else 0

/-- The share in the reward of the block, in a reward that is credited. -/
def proportionalShare (rc : RewardCalculator) (block : Block) (clock : RewardClock)
    (addr : String) : ℚ :=
  if rc.stakeReward block clock addr > 0 then
    calculateBlockReward block.header.blockNumber * stakerRewardShare *
      (rc.stakePool.stakedBy addr / rc.stakePool.getTotalStake)
  else 0

/-- The annual parts of the rewards that are credited to the stakers. -/
def annualRewards (rc : RewardCalculator) (block : Block) (order : List String)
    (clock : RewardClock) : ℚ :=
  (order.map (rc.annualPart block clock)).sum

lemma max_stakeReward (rc : RewardCalculator) (block : Block) (clock : RewardClock)
    (addr : String) :
    max (rc.stakeReward block clock addr) 0 =
      rc.annualPart block clock addr + rc.proportionalShare block clock addr := by
  rw [annualPart, proportionalShare]
  split_ifs with hpos
  · rw [max_eq_left hpos.le]
    revert hpos
    rw [stakeReward, StakePool.stakedBy, KeyedLog.weight]
    cases rc.stakePool.stakes.lookup addr with
    | none => exact fun hpos => absurd hpos (lt_irrefl _)
    | some stake =>
      simp only [calculateStakeReward, Option.elim_some]
      split_ifs with hamount hyoung htotal
      · exact fun hpos => absurd hpos (lt_irrefl _)
      · exact fun hpos => absurd hpos (lt_irrefl _)
      · intro _
        rw [htotal, div_zero, mul_zero, add_zero]
      · exact fun _ => rfl
  · rw [max_eq_right (not_lt.mp hpos), add_zero]

/-- **The shares are at most three tenths of the reward.** -/
lemma sum_proportionalShare_le
    (horder : KeyedLog.ListsKeys order rc.stakePool.stakes) (block : Block) (clock : RewardClock) :
    (order.map (rc.proportionalShare block clock)).sum ≤
      calculateBlockReward block.header.blockNumber * stakerRewardShare := by
  have hpos : 0 ≤ calculateBlockReward block.header.blockNumber * stakerRewardShare :=
    mul_nonneg (calculateBlockReward_pos _).le (by norm_num [stakerRewardShare])
  have htotal : (order.map rc.stakePool.stakedBy).sum = rc.stakePool.getTotalStake :=
    horder.sum_weight _
  have hstake : ∀ addr, 0 ≤ rc.stakePool.stakedBy addr := by
    intro addr
    rw [StakePool.stakedBy, KeyedLog.weight]
    cases rc.stakePool.stakes.lookup addr with
    | none => exact le_rfl
    | some stake => exact Nat.cast_nonneg _
  have htotal_nonneg : 0 ≤ rc.stakePool.getTotalStake := by
    rw [← htotal]
    exact sum_nonneg (forall_mem_map.mpr fun addr _ => hstake addr)
  calc (order.map (rc.proportionalShare block clock)).sum
      ≤ (order.map fun addr => calculateBlockReward block.header.blockNumber *
          stakerRewardShare * (rc.stakePool.stakedBy addr / rc.stakePool.getTotalStake)).sum := by
        refine sum_le_sum fun addr _ => ?_
        rw [proportionalShare]
        split_ifs
        · exact le_rfl
        · exact mul_nonneg hpos (div_nonneg (hstake addr) htotal_nonneg)
    _ = calculateBlockReward block.header.blockNumber * stakerRewardShare *
          ((order.map rc.stakePool.stakedBy).sum / rc.stakePool.getTotalStake) := by
        simp only [div_eq_mul_inv, sum_map_mul_left, sum_map_mul_right]
    _ ≤ calculateBlockReward block.header.blockNumber * stakerRewardShare := by
        rw [htotal]
        exact mul_le_of_le_one_right hpos (div_self_le_one _)

/-! ## The bound -/

lemma calculatePerformanceMultiplier_le_one_iff {validator : ValidatorRecord} :
    calculatePerformanceMultiplier validator ≤ 1 ↔ validator.score ≤ 100 := by
  have hfifty : (50 : UInt64).toNat = 50 := rfl
  have hhundred : (100 : UInt64).toNat = 100 := rfl
  rw [UInt64.le_iff_toNat_le, hhundred, calculatePerformanceMultiplier, maxRewardMultiplier]
  split_ifs with hpoor
  · rw [UInt64.lt_iff_toNat_lt, hfifty] at hpoor
    exact iff_of_true (by norm_num) (by omega)
  · have hcast : (validator.score.toNat : ℚ) ≤ 100 ↔ validator.score.toNat ≤ 100 := by
      exact_mod_cast Iff.rfl
    rw [min_le_iff, div_le_one (by norm_num), hcast]
    exact or_iff_left (by norm_num)

lemma distributed_eq (hnodup : order.Nodup) (rc : RewardCalculator)
    (block : Block) (validator : Option ValidatorRecord) (clock : RewardClock) :
    (rc.distributeRewards block validator order clock).totalBalance - rc.totalBalance -
        rc.annualRewards block order clock =
      calculateValidatorReward validator (calculateBlockReward block.header.blockNumber) +
        (order.map (rc.proportionalShare block clock)).sum := by
  rw [totalBalance_distributeRewards hnodup, annualRewards]
  simp only [max_stakeReward, sum_map_add]
  ring

/-- A pool with one staker, who has been paid just now. -/
def oneStaker : RewardCalculator where
  stakePool :=
    { stakes := Finmap.singleton "staker"
        { amount := 1, startTime := 0, lastRewardTime := 24 * hour } }

lemma proportionalShare_oneStaker :
    oneStaker.proportionalShare {} (.still (24 * hour)) "staker" = 15 := by
  decide +kernel

/-- **When not more than the reward is distributed**: for all pools, blocks, orders and times, the
balances grow by at most the reward, without the annual parts, exactly if there is no validator or
its score is at most 100. -/
theorem distribution_bounded_iff (validator : Option ValidatorRecord) :
    (∀ (rc : RewardCalculator) (block : Block) (order : List String) (clock : RewardClock),
      KeyedLog.ListsKeys order rc.stakePool.stakes →
      (rc.distributeRewards block validator order clock).totalBalance - rc.totalBalance -
          rc.annualRewards block order clock ≤
        calculateBlockReward block.header.blockNumber) ↔
      ∀ v, validator = some v → v.score ≤ 100 := by
  constructor
  · intro hall v hv
    have hbounded := hall oneStaker {} ["staker"] (.still (24 * hour)) (by decide +kernel)
    rw [distributed_eq (nodup_singleton _), map_singleton, sum_singleton,
      proportionalShare_oneStaker, hv, calculateValidatorReward] at hbounded
    have hreward : calculateBlockReward (({} : Block).header.blockNumber) = 50 := by decide +kernel
    rw [hreward, validatorRewardShare] at hbounded
    rw [← calculatePerformanceMultiplier_le_one_iff]
    linarith
  · intro hscore rc block order clock horder
    have hpos := calculateBlockReward_pos block.header.blockNumber
    have hshares := sum_proportionalShare_le horder block clock
    rw [distributed_eq horder.1]
    rw [stakerRewardShare] at hshares
    cases validator with
    | none =>
      rw [calculateValidatorReward]
      linarith
    | some v =>
      have hmultiplier := calculatePerformanceMultiplier_le_one_iff.mpr (hscore v rfl)
      rw [calculateValidatorReward, validatorRewardShare]
      nlinarith

/-- A validator with a score of 200 gets 70 tokens and the one staker gets 15, of a reward of 50. -/
theorem distribution_exceeds :
    let rc := oneStaker.distributeRewards {} (some { address := "validator", score := 200 })
      ["staker"] (.still (24 * hour))
    KeyedLog.ListsKeys ["staker"] oneStaker.stakePool.stakes ∧
      calculateBlockReward 0 = 50 ∧ rc.balances.lookup "validator" = some 70 ∧
      rc.balances.lookup "staker" = some 15 ∧
      oneStaker.annualRewards {} ["staker"] (.still (24 * hour)) = 0 := by
  decide +kernel

end RewardCalculator

end HybridChain
