import HybridChain.Mining

/-!
# Gas prices and gas limits

`model.go` and `block_gas.go` of the package `gas`: price and limit follow the share of the gas
limit that is used, by a fifth and by a twentieth, and are clamped.

All numbers are rational; `GasRounding.lean` compares them with the floating-point numbers of the
source.

## Main definitions

* `GasModel`, `updateGasPrice`, `FollowsDemand`
* `BlockGasCalculator`, `calculateDynamicGasLimit`

## Main results

* `followsDemand_run_iff`, `price_falls_under_demand`
* `limitAfter_stable_responsive`
-/

namespace HybridChain

def utilization (gasUsed gasLimit : UInt64) : ℚ := gasUsed.toNat / gasLimit.toNat

/-! ## Gas prices -/

def targetBlockGas : ℚ := 4 / 5

def gasPriceAdjustmentFactor : ℚ := 1 / 5

/-- `GasModel`, without its lock. -/
structure GasModel where
  currentGasPrice : UInt64
  blockGasUsed : UInt64 := 0
  blockGasLimit : UInt64
  deriving DecidableEq, Repr

def newGasModel (initialGasPrice blockGasLimit : UInt64) : GasModel where
  currentGasPrice := if initialGasPrice < minGasPrice then 20 else initialGasPrice
  blockGasLimit := blockGasLimit

namespace GasModel

def updateGasPrice (g : GasModel) : GasModel :=
  let utilization := utilization g.blockGasUsed g.blockGasLimit
  let price : ℚ := g.currentGasPrice.toNat
  if utilization > targetBlockGas then
    let adjustment := price * gasPriceAdjustmentFactor
    { g with currentGasPrice := UInt64.ofNat ⌊min (price + adjustment) maxGasPrice.toNat⌋₊ }
  else if utilization < targetBlockGas / 2 then
    let adjustment := price * gasPriceAdjustmentFactor
    { g with currentGasPrice := UInt64.ofNat ⌊max (price - adjustment) minGasPrice.toNat⌋₊ }
  else g

/-- A block that uses some gas, and the update of the price after it. -/
def afterBlock (g : GasModel) (gasUsed : UInt64) : GasModel :=
  updateGasPrice { g with blockGasUsed := gasUsed }

/-- The price is between its bounds, and the next block does not make it fall if it is fuller than
the target nor rise if it is emptier than half the target. -/
structure FollowsDemand (g : GasModel) : Prop where
  min_le : minGasPrice ≤ g.currentGasPrice
  le_max : g.currentGasPrice ≤ maxGasPrice
  not_falls : ∀ gasUsed, targetBlockGas < utilization gasUsed g.blockGasLimit →
    g.currentGasPrice ≤ (g.afterBlock gasUsed).currentGasPrice
  not_rises : ∀ gasUsed, utilization gasUsed g.blockGasLimit < targetBlockGas / 2 →
    (g.afterBlock gasUsed).currentGasPrice ≤ g.currentGasPrice

def InRange (g : GasModel) : Prop := 10 ≤ g.currentGasPrice.toNat ∧ g.currentGasPrice.toNat ≤ 100

variable {g : GasModel} {gasUsed : UInt64}

lemma toNat_ofNat_floor {q : ℚ} (h : q ≤ 100) : (UInt64.ofNat ⌊q⌋₊).toNat = ⌊q⌋₊ := by
  have hfloor : ⌊q⌋₊ ≤ 100 := Nat.floor_le_of_le (by exact_mod_cast h)
  exact UInt64.toNat_ofNat_of_lt' (hfloor.trans_lt (by decide))

lemma InRange.cast (h : g.InRange) :
    (10 : ℚ) ≤ g.currentGasPrice.toNat ∧ (g.currentGasPrice.toNat : ℚ) ≤ 100 :=
  ⟨by exact_mod_cast h.1, by exact_mod_cast h.2⟩

lemma InRange.afterBlock_of_target_lt (h : g.InRange)
    (hfull : targetBlockGas < utilization gasUsed g.blockGasLimit) :
    g.currentGasPrice.toNat ≤ (g.afterBlock gasUsed).currentGasPrice.toNat ∧
      (g.afterBlock gasUsed).currentGasPrice.toNat ≤ 100 := by
  obtain ⟨hmin, hmax⟩ := h.cast
  set price : ℚ := (g.currentGasPrice.toNat : ℚ) with hprice
  have hnext : (g.afterBlock gasUsed).currentGasPrice =
      UInt64.ofNat ⌊min (price + price * gasPriceAdjustmentFactor) maxGasPrice.toNat⌋₊ := by
    rw [afterBlock, updateGasPrice]
    simp only [gt_iff_lt, hfull, if_true]
    rfl
  have hle : min (price + price * gasPriceAdjustmentFactor) (maxGasPrice.toNat : ℚ) ≤ 100 :=
    min_le_right _ _
  rw [hnext, toNat_ofNat_floor hle]
  refine ⟨Nat.le_floor (le_min ?_ hmax), Nat.floor_le_of_le (by exact_mod_cast hle)⟩
  rw [← hprice, gasPriceAdjustmentFactor]
  linarith

lemma InRange.afterBlock_of_lt_half (h : g.InRange)
    (hempty : utilization gasUsed g.blockGasLimit < targetBlockGas / 2) :
    10 ≤ (g.afterBlock gasUsed).currentGasPrice.toNat ∧
      (g.afterBlock gasUsed).currentGasPrice.toNat ≤ g.currentGasPrice.toNat := by
  obtain ⟨hmin, hmax⟩ := h.cast
  set price : ℚ := (g.currentGasPrice.toNat : ℚ) with hprice
  have hnot : ¬ targetBlockGas < utilization gasUsed g.blockGasLimit := by
    unfold targetBlockGas at hempty ⊢
    linarith
  have hnext : (g.afterBlock gasUsed).currentGasPrice =
      UInt64.ofNat ⌊max (price - price * gasPriceAdjustmentFactor) minGasPrice.toNat⌋₊ := by
    rw [afterBlock, updateGasPrice]
    simp only [gt_iff_lt, hnot, if_false, hempty, if_true]
    rfl
  have hle : max (price - price * gasPriceAdjustmentFactor) (minGasPrice.toNat : ℚ) ≤ price := by
    refine max_le ?_ hmin
    rw [gasPriceAdjustmentFactor]
    linarith
  rw [hnext, toNat_ofNat_floor (hle.trans hmax)]
  exact ⟨Nat.le_floor (le_max_right _ _), Nat.floor_le_of_le hle⟩

lemma afterBlock_of_between (hfull : ¬ targetBlockGas < utilization gasUsed g.blockGasLimit)
    (hempty : ¬ utilization gasUsed g.blockGasLimit < targetBlockGas / 2) :
    (g.afterBlock gasUsed).currentGasPrice = g.currentGasPrice := by
  rw [afterBlock, updateGasPrice]
  simp only [gt_iff_lt, hfull, if_false, hempty]

/-- **One block keeps the price between its bounds.** -/
lemma InRange.afterBlock (h : g.InRange) (gasUsed : UInt64) : (g.afterBlock gasUsed).InRange := by
  by_cases hfull : targetBlockGas < utilization gasUsed g.blockGasLimit
  · obtain ⟨hle, hmax⟩ := h.afterBlock_of_target_lt hfull
    exact ⟨h.1.trans hle, hmax⟩
  by_cases hempty : utilization gasUsed g.blockGasLimit < targetBlockGas / 2
  · obtain ⟨hmin, hle⟩ := h.afterBlock_of_lt_half hempty
    exact ⟨hmin, hle.trans h.2⟩
  · rwa [InRange, afterBlock_of_between hfull hempty]

lemma InRange.run (h : g.InRange) (usages : List UInt64) :
    (usages.foldl GasModel.afterBlock g).InRange :=
  List.foldlRecOn usages GasModel.afterBlock h fun _ hg gasUsed _ => hg.afterBlock gasUsed

lemma InRange.followsDemand (h : g.InRange) : g.FollowsDemand where
  min_le := UInt64.le_iff_toNat_le.mpr h.1
  le_max := UInt64.le_iff_toNat_le.mpr h.2
  not_falls := fun _ hfull => UInt64.le_iff_toNat_le.mpr (h.afterBlock_of_target_lt hfull).1
  not_rises := fun _ hempty => UInt64.le_iff_toNat_le.mpr (h.afterBlock_of_lt_half hempty).2

lemma inRange_newGasModel {initialGasPrice blockGasLimit : UInt64}
    (h : initialGasPrice ≤ maxGasPrice) : (newGasModel initialGasPrice blockGasLimit).InRange := by
  rw [InRange, newGasModel]
  split_ifs with hlow
  · exact ⟨Nat.le_of_ble_eq_true rfl, Nat.le_of_ble_eq_true rfl⟩
  · exact ⟨UInt64.le_iff_toNat_le.mp (UInt64.not_lt.mp hlow), UInt64.le_iff_toNat_le.mp h⟩

/-- **The price follows the demand within its bounds** exactly for models created with a price up to
the maximum: `NewGasModel` takes one above it as it is, and a full block makes it fall. -/
theorem followsDemand_run_iff {initialGasPrice blockGasLimit : UInt64}
    (_hlimit : 0 < blockGasLimit) : (∀ usages : List UInt64,
      (usages.foldl afterBlock (newGasModel initialGasPrice blockGasLimit)).FollowsDemand) ↔
        initialGasPrice ≤ maxGasPrice := by
  refine ⟨fun h => ?_, fun h usages => ((inRange_newGasModel h).run usages).followsDemand⟩
  have hmax : (newGasModel initialGasPrice blockGasLimit).currentGasPrice ≤ maxGasPrice :=
    (h []).le_max
  rw [newGasModel] at hmax
  split_ifs at hmax with hlow
  · exact UInt64.le_trans (UInt64.le_of_lt hlow) (by decide)
  · exact hmax

theorem followsDemand_run_twenty : (0 : UInt64) < 100000 ∧
    ∀ usages : List UInt64, (usages.foldl afterBlock (newGasModel 20 100000)).FollowsDemand :=
  ⟨by decide, (followsDemand_run_iff (by decide)).mpr (by decide)⟩

/-- A model with price 2000: a block that uses nine tenths of the limit lowers the price to 100. -/
theorem price_falls_under_demand :
    (newGasModel 2000 15000000).currentGasPrice = 2000 ∧ maxGasPrice < 2000 ∧
      targetBlockGas < utilization 13500000 15000000 ∧
      ((newGasModel 2000 15000000).afterBlock 13500000).currentGasPrice = 100 := by
  refine ⟨by decide, by decide, ?_, ?_⟩ <;> decide +kernel

end GasModel

/-! ## Gas limits -/

structure BlockGasCalculator where
  baseGasLimit : UInt64

def newBlockGasCalculator (baseLimit : UInt64) : BlockGasCalculator := ⟨baseLimit⟩

namespace BlockGasCalculator

def calculateDynamicGasLimit (bgc : BlockGasCalculator) (prevGasUsed prevGasLimit : UInt64) :
    UInt64 :=
  if prevGasLimit = 0 then bgc.baseGasLimit
  else
    let utilization := utilization prevGasUsed prevGasLimit
    if utilization > 4 / 5 then
      let newLimit := prevGasLimit + prevGasLimit / 20
      UInt64.ofNat ⌊min (newLimit.toNat : ℚ) (bgc.baseGasLimit * 2).toNat⌋₊
    else if utilization < 2 / 5 then
      let newLimit := prevGasLimit - prevGasLimit / 20
      UInt64.ofNat ⌊max (newLimit.toNat : ℚ) bgc.baseGasLimit.toNat⌋₊
    else prevGasLimit

def nextLimit (bgc : BlockGasCalculator) (gasLimit gasUsed : UInt64) : UInt64 :=
  bgc.calculateDynamicGasLimit gasUsed gasLimit

/-- The gas limit after blocks with the given usages, the first of which has the base limit. -/
def limitAfter (bgc : BlockGasCalculator) (usages : List UInt64) : UInt64 :=
  usages.foldl bgc.nextLimit bgc.baseGasLimit

/-- Every one of some blocks, the first of which has the given gas limit, uses a share of its own
gas limit that meets a condition. -/
def Use (bgc : BlockGasCalculator) (P : ℚ → Prop) (gasLimit : UInt64) (usages : List UInt64) :
    Prop :=
  Run.Along bgc.nextLimit (fun gasLimit gasUsed => P (utilization gasUsed gasLimit)) gasLimit usages

instance decidableUse (bgc : BlockGasCalculator) (P : ℚ → Prop) [DecidablePred P]
    (gasLimit : UInt64) (usages : List UInt64) : Decidable (bgc.Use P gasLimit usages) :=
  Run.decidableAlong _ _ gasLimit usages

/-- The gas limit is between the base limit and twice the base limit. -/
def InRange (bgc : BlockGasCalculator) (gasLimit : UInt64) : Prop :=
  bgc.baseGasLimit.toNat ≤ gasLimit.toNat ∧ gasLimit.toNat ≤ 2 * bgc.baseGasLimit.toNat

lemma toNat_floor_min (a b : UInt64) :
    (UInt64.ofNat ⌊min (a.toNat : ℚ) b.toNat⌋₊).toNat = min a.toNat b.toNat := by
  rw [← Nat.cast_min, Nat.floor_natCast]
  exact UInt64.toNat_ofNat_of_lt' ((min_le_left _ _).trans_lt a.toNat_lt)

lemma toNat_floor_max (a b : UInt64) :
    (UInt64.ofNat ⌊max (a.toNat : ℚ) b.toNat⌋₊).toNat = max a.toNat b.toNat := by
  rw [← Nat.cast_max, Nat.floor_natCast]
  exact UInt64.toNat_ofNat_of_lt' (max_lt a.toNat_lt b.toNat_lt)

lemma toNat_div_twenty (a : UInt64) : (a / 20).toNat = a.toNat / 20 := UInt64.toNat_div a 20

lemma toNat_sub_div_twenty (a : UInt64) : (a - a / 20).toNat = a.toNat - a.toNat / 20 := by
  have hle : a / 20 ≤ a := by
    rw [UInt64.le_iff_toNat_le, toNat_div_twenty]
    omega
  rw [UInt64.toNat_sub_of_le _ _ hle, toNat_div_twenty]

section Limits

variable {bgc : BlockGasCalculator} {gasLimit gasUsed : UInt64}
  (hlow : 20 ≤ bgc.baseGasLimit.toNat) (hhigh : bgc.baseGasLimit.toNat < 2 ^ 40)

include hlow in
lemma InRange.ne_zero (h : bgc.InRange gasLimit) : gasLimit ≠ 0 := by
  rintro rfl
  have hzero : (0 : UInt64).toNat = 0 := rfl
  have hbase := h.1
  omega

include hlow hhigh

lemma InRange.toNat_nextLimit_of_full (h : bgc.InRange gasLimit)
    (hfull : 4 / 5 < utilization gasUsed gasLimit) : (bgc.nextLimit gasLimit gasUsed).toNat =
      min (gasLimit.toNat + gasLimit.toNat / 20) (2 * bgc.baseGasLimit.toNat) := by
  have hnew : (gasLimit + gasLimit / 20).toNat = gasLimit.toNat + gasLimit.toNat / 20 := by
    have hrange := h.2
    rw [UInt64.toNat_add, toNat_div_twenty, Nat.mod_eq_of_lt (by omega)]
  have hbound : (bgc.baseGasLimit * 2).toNat = 2 * bgc.baseGasLimit.toNat := by
    have htwo : (2 : UInt64).toNat = 2 := rfl
    rw [UInt64.toNat_mul, htwo, Nat.mod_eq_of_lt (by omega), mul_comm]
  rw [nextLimit, calculateDynamicGasLimit, if_neg (h.ne_zero hlow)]
  simp only [gt_iff_lt, hfull, if_true]
  rw [toNat_floor_min, hnew, hbound]

omit hhigh in
lemma InRange.toNat_nextLimit_of_empty (h : bgc.InRange gasLimit)
    (hempty : utilization gasUsed gasLimit < 2 / 5) : (bgc.nextLimit gasLimit gasUsed).toNat =
      max (gasLimit.toNat - gasLimit.toNat / 20) bgc.baseGasLimit.toNat := by
  have hnot : ¬ 4 / 5 < utilization gasUsed gasLimit := by linarith
  rw [nextLimit, calculateDynamicGasLimit, if_neg (h.ne_zero hlow)]
  simp only [gt_iff_lt, hnot, if_false, hempty, if_true]
  rw [toNat_floor_max, toNat_sub_div_twenty]

omit hhigh in
lemma InRange.nextLimit_of_between (h : bgc.InRange gasLimit)
    (hfull : ¬ 4 / 5 < utilization gasUsed gasLimit)
    (hempty : ¬ utilization gasUsed gasLimit < 2 / 5) :
    bgc.nextLimit gasLimit gasUsed = gasLimit := by
  rw [nextLimit, calculateDynamicGasLimit, if_neg (h.ne_zero hlow)]
  simp only [gt_iff_lt, hfull, if_false, hempty]

/-- **One block** keeps the gas limit between its bounds and moves it by a twentieth at most. -/
lemma InRange.nextLimit (h : bgc.InRange gasLimit) (gasUsed : UInt64) :
    bgc.InRange (bgc.nextLimit gasLimit gasUsed) ∧
      (bgc.nextLimit gasLimit gasUsed).toNat ≤ gasLimit.toNat + gasLimit.toNat / 20 ∧
      gasLimit.toNat ≤ (bgc.nextLimit gasLimit gasUsed).toNat + gasLimit.toNat / 20 := by
  obtain ⟨hbase, htwice⟩ := h
  by_cases hfull : 4 / 5 < utilization gasUsed gasLimit
  · have hnext := InRange.toNat_nextLimit_of_full hlow hhigh ⟨hbase, htwice⟩ hfull
    unfold InRange
    omega
  by_cases hempty : utilization gasUsed gasLimit < 2 / 5
  · have hnext := InRange.toNat_nextLimit_of_empty hlow ⟨hbase, htwice⟩ hempty
    unfold InRange
    omega
  · rw [InRange.nextLimit_of_between hlow ⟨hbase, htwice⟩ hfull hempty]
    exact ⟨⟨hbase, htwice⟩, Nat.le_add_right _ _, Nat.le_add_right _ _⟩

lemma InRange.run (h : bgc.InRange gasLimit) (usages : List UInt64) :
    bgc.InRange (usages.foldl bgc.nextLimit gasLimit) :=
  List.foldlRecOn usages bgc.nextLimit h fun _ hlimit gasUsed _ =>
    (hlimit.nextLimit hlow hhigh gasUsed).1

/-- Full blocks bring the gas limit to twice the base limit: the distance gets smaller, since a
twentieth of a limit in range is at least one. -/
lemma InRange.reaches_twice {usages : List UInt64} (h : bgc.InRange gasLimit)
    (hfull : bgc.Use (4 / 5 < ·) gasLimit usages)
    (hlength : bgc.baseGasLimit.toNat ≤ usages.length) :
    (usages.foldl bgc.nextLimit gasLimit).toNat = 2 * bgc.baseGasLimit.toNat := by
  have hzero := Run.measure_foldl_eq_zero (I := bgc.InRange)
    (fun limit => 2 * bgc.baseGasLimit.toNat - limit.toNat) (fun limit gasUsed hused hs => by
      have hnext := hs.toNat_nextLimit_of_full hlow hhigh hused
      have hbase := hs.1
      exact ⟨(hs.nextLimit hlow hhigh gasUsed).1, by omega⟩) h hfull (by have := h.1; omega)
  have htwice := (h.run hlow hhigh usages).2
  omega

lemma InRange.reaches_base {usages : List UInt64} (h : bgc.InRange gasLimit)
    (hempty : bgc.Use (· < 2 / 5) gasLimit usages)
    (hlength : bgc.baseGasLimit.toNat ≤ usages.length) :
    (usages.foldl bgc.nextLimit gasLimit).toNat = bgc.baseGasLimit.toNat := by
  have hzero := Run.measure_foldl_eq_zero (I := bgc.InRange)
    (fun limit => limit.toNat - bgc.baseGasLimit.toNat) (fun limit gasUsed hused hs => by
      have hnext := hs.toNat_nextLimit_of_empty hlow hused
      have hbase := hs.1
      exact ⟨(hs.nextLimit hlow hhigh gasUsed).1, by omega⟩) h hempty (by have := h.2; omega)
  have hbase := (h.run hlow hhigh usages).1
  omega

/-- **Every reachable gas limit is between its bounds.** -/
lemma inRange_limitAfter (usages : List UInt64) : bgc.InRange (bgc.limitAfter usages) := by
  have hbase : bgc.InRange bgc.baseGasLimit := ⟨le_rfl, by omega⟩
  exact hbase.run hlow hhigh usages

end Limits

/-- **The gas limit is stable and responsive**: it stays between the base limit and its double, a
block changes it by a twentieth at most, and as many full or empty blocks as the base limit says
bring it to a bound.

**Proof sketch.** A twentieth of a limit in range is at least one: the distance to the bound is a
measure that every full, or empty, block lowers. -/
theorem limitAfter_stable_responsive (bgc : BlockGasCalculator)
    (hlow : 20 ≤ bgc.baseGasLimit.toNat) (hhigh : bgc.baseGasLimit.toNat < 2 ^ 40)
    (usages : List UInt64) : (bgc.baseGasLimit.toNat ≤ (bgc.limitAfter usages).toNat ∧
      (bgc.limitAfter usages).toNat ≤ 2 * bgc.baseGasLimit.toNat) ∧
    (∀ gasUsed, |((bgc.limitAfter (usages ++ [gasUsed])).toNat : ℚ) -
      (bgc.limitAfter usages).toNat| ≤ (bgc.limitAfter usages).toNat / 20) ∧
    (∃ n, ∀ later : List UInt64, n ≤ later.length →
      bgc.Use (4 / 5 < ·) (bgc.limitAfter usages) later →
        (bgc.limitAfter (usages ++ later)).toNat = 2 * bgc.baseGasLimit.toNat) ∧
    (∃ n, ∀ later : List UInt64, n ≤ later.length →
      bgc.Use (· < 2 / 5) (bgc.limitAfter usages) later →
        (bgc.limitAfter (usages ++ later)).toNat = bgc.baseGasLimit.toNat) := by
  have hrange := inRange_limitAfter hlow hhigh usages
  have happend : ∀ later : List UInt64, bgc.limitAfter (usages ++ later) =
      later.foldl bgc.nextLimit (bgc.limitAfter usages) := fun _ => List.foldl_append
  refine ⟨hrange, fun gasUsed => ?_, ⟨bgc.baseGasLimit.toNat, fun later hlength hfull => ?_⟩,
    ⟨bgc.baseGasLimit.toNat, fun later hlength hempty => ?_⟩⟩
  · obtain ⟨-, hup, hdown⟩ := hrange.nextLimit hlow hhigh gasUsed
    have hdiv : ((((bgc.limitAfter usages).toNat / 20 : ℕ) : ℕ) : ℚ) ≤
        (bgc.limitAfter usages).toNat / 20 := Nat.cast_div_le
    rw [happend, List.foldl_cons, List.foldl_nil, abs_le]
    have hup' : ((bgc.nextLimit (bgc.limitAfter usages) gasUsed).toNat : ℚ) ≤
        (bgc.limitAfter usages).toNat + ((bgc.limitAfter usages).toNat / 20 : ℕ) := by
      exact_mod_cast hup
    have hdown' : ((bgc.limitAfter usages).toNat : ℚ) ≤
        (bgc.nextLimit (bgc.limitAfter usages) gasUsed).toNat +
          ((bgc.limitAfter usages).toNat / 20 : ℕ) := by
      exact_mod_cast hdown
    constructor <;> linarith
  · rw [happend]
    exact hrange.reaches_twice hlow hhigh hfull hlength
  · rw [happend]
    exact hrange.reaches_base hlow hhigh hempty hlength

theorem limitAfter_stable_responsive_chain :
    (20 ≤ (15000000 : UInt64).toNat ∧ (15000000 : UInt64).toNat < 2 ^ 40) ∧
    Use ⟨15000000⟩ (4 / 5 < ·) 15000000 [15000000, 15750000] ∧
    (15000000 ≤ (limitAfter ⟨15000000⟩ [15000000, 0]).toNat ∧
      (limitAfter ⟨15000000⟩ [15000000, 0]).toNat ≤ 2 * 15000000) ∧
    (∃ n, ∀ later : List UInt64, n ≤ later.length →
      Use ⟨15000000⟩ (4 / 5 < ·) (limitAfter ⟨15000000⟩ [15000000, 0]) later →
        (limitAfter ⟨15000000⟩ ([15000000, 0] ++ later)).toNat = 2 * 15000000) := by
  obtain ⟨hrange, -, hfull, -⟩ := limitAfter_stable_responsive ⟨15000000⟩ (by decide) (by decide)
    [15000000, 0]
  exact ⟨by decide, by decide +kernel, hrange, hfull⟩

example : (limitAfter ⟨20⟩ (List.replicate 20 40)).toNat = 40 := by decide +kernel

example : (limitAfter ⟨20⟩ (List.replicate 20 40 ++ List.replicate 20 0)).toNat = 20 := by
  decide +kernel

end BlockGasCalculator

end HybridChain
