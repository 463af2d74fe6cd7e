import HybridChain.Gas
import HybridChain.Lib.Binary64

/-!
# Gas prices and gas limits with floating-point numbers

The functions of `Gas.lean` as the source computes them. Two shares of a gas limit up to `2 ^ 50`
that differ are further apart than the rounding can move them.

## Main definitions

* `utilizationFloat`, `updateGasPriceFloat`, `calculateDynamicGasLimitFloat`

## Main results

* `gas_float_exact`: the rounding changes nothing
-/

namespace HybridChain

open Binary64 (Denotes Rounds Representable)

/-! ## Shares of a gas limit -/

def utilizationFloat (gasUsed gasLimit : UInt64) : Float := gasUsed.toFloat / gasLimit.toFloat

section Shares

variable {gasUsed gasLimit : UInt64}

/-- The constants of the source have one mantissa. -/
lemma denotes_constant {x : Float} {e : ℕ} (he : 53 ≤ e ∧ e ≤ 54) (hunpack : x.toModel.unpack =
    .finite .positive 7205759403792794 (-e) (by norm_num)) :
    Denotes x (7205759403792794 / 2 ^ e) := by
  have hconst := Binary64.denotes_of_unpack hunpack (by norm_num) (by omega) (.inl (by norm_num))
  rwa [zpow_neg, ← div_eq_mul_inv] at hconst

lemma denotes_four_fifths : Denotes 0.8 (7205759403792794 / 2 ^ 53) :=
  denotes_constant (by decide) rfl

lemma denotes_two_fifths : Denotes 0.4 (7205759403792794 / 2 ^ 54) :=
  denotes_constant (by decide) rfl

lemma rounds_two_fifths : Rounds (2 / 5) (7205759403792794 / 2 ^ 54) := by
  have htwo : Denotes (2 : UInt64).toFloat ((2 : ℕ) : ℚ) := Binary64.denotes_toFloat (by decide)
  have hfive : Denotes (5 : UInt64).toFloat ((5 : ℕ) : ℚ) := Binary64.denotes_toFloat (by decide)
  obtain ⟨r, hr, hrounds⟩ := htwo.div hfive (by norm_num) (Binary64.le_size (by norm_num))
  have hsame : (2 : UInt64).toFloat / (5 : UInt64).toFloat = 0.4 := by decide +kernel
  have hconst := hsame ▸ denotes_two_fifths
  rw [hr.unique hconst] at hrounds
  exact_mod_cast hrounds

/-- The number on the other side of two fifths, equally far away, is not one of the format: its
denominator has a factor five. -/
lemma not_representable_mirror : ¬ Representable (2 * (2 / 5) - 7205759403792794 / 2 ^ 54) := by
  intro h
  obtain ⟨N, hN⟩ := h.exists_natCast
  have hpow : (2 : ℚ) ^ 1074 = 2 ^ 54 * 2 ^ 1020 := pow_add 2 54 1020
  have hscaled : ((36028797018963966 * 2 ^ 1020 : ℕ) : ℚ) = ((5 * N : ℕ) : ℚ) := by
    rw [hpow] at hN
    rw [Nat.cast_mul, Nat.cast_pow, Nat.cast_mul, Nat.cast_ofNat, Nat.cast_ofNat, Nat.cast_ofNat,
      ← hN]
    generalize (2 : ℚ) ^ 1020 = z
    ring
  have hdvd : 5 ∣ 36028797018963966 * 2 ^ 1020 := ⟨N, Nat.cast_injective hscaled⟩
  rcases (Nat.Prime.dvd_mul Nat.prime_five).mp hdvd with hfive | hfive
  · exact absurd hfive (by norm_num)
  · exact absurd (Nat.Prime.dvd_of_dvd_pow Nat.prime_five hfive) (by norm_num)

variable (hpos : 0 < gasLimit.toNat) (hsmall : gasLimit.toNat ≤ 2 ^ 50)
include hpos hsmall

lemma cast_bounds : (0 : ℚ) < gasLimit.toNat ∧ (gasLimit.toNat : ℚ) ≤ 2 ^ 50 := by
  exact_mod_cast And.intro hpos hsmall

lemma exists_rounds_utilization (gasUsed : UInt64) :
    ∃ q r, Denotes (utilizationFloat gasUsed gasLimit) r ∧ Rounds q r ∧
      (q = utilization gasUsed gasLimit ∨ 8 ≤ q ∧ 8 ≤ utilization gasUsed gasLimit) := by
  have hlimit := Binary64.denotes_toFloat (n := gasLimit) (by omega)
  obtain ⟨hpos', hsmall'⟩ := cast_bounds hpos hsmall
  have hone : (1 : ℚ) ≤ gasLimit.toNat := by exact_mod_cast hpos
  obtain ⟨used, hused, hrounds⟩ := Binary64.exists_denotes_toFloat gasUsed
  have hused_le : used ≤ 2 ^ 64 := by
    have hrep : Representable (2 ^ 64) := ⟨1, 64, by norm_num, by norm_num, by norm_num⟩
    exact hrounds.le_of_le hrep (by exact_mod_cast gasUsed.toNat_lt.le)
  have hquotient : used / gasLimit.toNat ≤ 2 ^ 64 := (div_le_self hused.nonneg hone).trans hused_le
  obtain ⟨r, hr, hshare⟩ := hused.div hlimit hpos'.ne' (Binary64.le_size hquotient)
  refine ⟨_, r, hr, hshare, ?_⟩
  rcases le_or_gt gasUsed.toNat (2 ^ 53) with hle | hgt
  · left
    rw [hrounds.eq_of_representable (Binary64.representable_natCast hle)]
    rfl
  · right
    have hlarge : ((2 ^ 53 : ℕ) : ℚ) ≤ gasUsed.toNat := by exact_mod_cast hgt.le
    have hlarge' := hrounds.natCast_le le_rfl hlarge
    push_cast at hlarge hlarge'
    rw [utilization, le_div_iff₀ hpos', le_div_iff₀ hpos']
    constructor <;> linarith

lemma add_le_utilization {k : ℕ} (h : (k : ℚ) / 5 < utilization gasUsed gasLimit) :
    (k : ℚ) / 5 + 1 / (5 * 2 ^ 50) ≤ utilization gasUsed gasLimit := by
  obtain ⟨hpos', hsmall'⟩ := cast_bounds hpos hsmall
  rw [utilization, div_lt_div_iff₀ (by norm_num) hpos'] at h
  have hnat : k * gasLimit.toNat + 1 ≤ gasUsed.toNat * 5 := by exact_mod_cast h
  have hnat' : (k : ℚ) * gasLimit.toNat + 1 ≤ gasUsed.toNat * 5 := by exact_mod_cast hnat
  rw [utilization, le_div_iff₀ hpos']
  linarith

lemma utilization_le_sub {k : ℕ} (h : utilization gasUsed gasLimit < (k : ℚ) / 5) :
    utilization gasUsed gasLimit ≤ (k : ℚ) / 5 - 1 / (5 * 2 ^ 50) := by
  obtain ⟨hpos', hsmall'⟩ := cast_bounds hpos hsmall
  rw [utilization, div_lt_div_iff₀ hpos' (by norm_num)] at h
  have hnat : gasUsed.toNat * 5 + 1 ≤ k * gasLimit.toNat := by exact_mod_cast h
  have hnat' : (gasUsed.toNat : ℚ) * 5 + 1 ≤ k * gasLimit.toNat := by exact_mod_cast hnat
  rw [utilization, div_le_iff₀ hpos']
  linarith

/-- **Above the target**: the comparison is exact. -/
lemma lt_utilizationFloat_iff :
    0.8 < utilizationFloat gasUsed gasLimit ↔ 4 / 5 < utilization gasUsed gasLimit := by
  obtain ⟨q, r, hr, hrounds, hq | ⟨hq, hlarge⟩⟩ := exists_rounds_utilization hpos hsmall gasUsed
  · rw [denotes_four_fifths.lt_iff hr, ← not_iff_not, not_lt, not_lt]
    constructor
    · intro hle
      by_contra hlt
      -- the next number after the constant is still below the share
      have habove : ((4 : ℕ) : ℚ) / 5 < utilization gasUsed gasLimit := by
        push_cast
        linarith
      have hgap := add_le_utilization hpos hsmall habove
      have hrep : Representable (7205759403792795 / 2 ^ 53) :=
        ⟨7205759403792795, -53, by norm_num, by norm_num, by norm_num⟩
      have hge := hrounds.ge_of_ge hrep (by rw [hq]; push_cast at hgap; linarith)
      linarith
    · intro hle
      exact hrounds.le_of_le denotes_four_fifths.representable (by rw [hq]; linarith)
  · have hge := hrounds.natCast_le (n := 8) (by norm_num) hq
    push_cast at hge
    rw [denotes_four_fifths.lt_iff hr]
    exact iff_of_true (by linarith) (by linarith)

/-- **Below half the target**: the comparison is exact. -/
lemma utilizationFloat_lt_iff :
    utilizationFloat gasUsed gasLimit < 0.4 ↔ utilization gasUsed gasLimit < 2 / 5 := by
  obtain ⟨q, r, hr, hrounds, hq | ⟨hq, hlarge⟩⟩ := exists_rounds_utilization hpos hsmall gasUsed
  · rw [hr.lt_iff denotes_two_fifths]
    rcases lt_trichotomy (utilization gasUsed gasLimit) (2 / 5) with hlt | heq | hgt
    · -- the number before the constant is not below the share
      have hgap := utilization_le_sub (k := 2) hpos hsmall hlt
      have hrep : Representable (7205759403792793 / 2 ^ 54) :=
        ⟨7205759403792793, -54, by norm_num, by norm_num, by norm_num⟩
      have hle := hrounds.le_of_le hrep (by rw [hq]; push_cast at hgap; linarith)
      exact iff_of_true (by linarith) hlt
    · rw [hq, heq] at hrounds
      have hsame := hrounds.eq_of_not_representable rounds_two_fifths hr.representable
        denotes_two_fifths.representable not_representable_mirror
      exact iff_of_false (by rw [hsame]; exact lt_irrefl _) (by rw [heq]; exact lt_irrefl _)
    · have hgap := add_le_utilization (k := 2) hpos hsmall hgt
      have hge := hrounds.ge_of_ge denotes_two_fifths.representable
        (by rw [hq]; push_cast at hgap; linarith)
      exact iff_of_false (not_lt.mpr hge) (not_lt.mpr hgt.le)
  · have hge := hrounds.natCast_le (n := 8) (by norm_num) hq
    push_cast at hge
    rw [hr.lt_iff denotes_two_fifths]
    exact iff_of_false (by linarith) (by linarith)

end Shares

/-! ## Gas prices -/

namespace GasModel

/-- `UpdateGasPrice` with floating-point numbers. `TargetBlockGas/2` is a constant, 0.4. -/
def updateGasPriceFloat (g : GasModel) : GasModel :=
  let utilization := utilizationFloat g.blockGasUsed g.blockGasLimit
  let price := g.currentGasPrice.toFloat
  if utilization > 0.8 then
    let adjustment := price * 0.2
    { g with currentGasPrice := (min (price + adjustment) maxGasPrice.toFloat).toUInt64 }
  else if utilization < 0.4 then
    let adjustment := price * 0.2
    { g with currentGasPrice := (max (price - adjustment) minGasPrice.toFloat).toUInt64 }
  else g

/-- A block that uses some gas, and the update of the price after it. -/
def afterBlockFloat (g : GasModel) (gasUsed : UInt64) : GasModel :=
  updateGasPriceFloat { g with blockGasUsed := gasUsed }

lemma raise_float : ∀ n ∈ Finset.Icc 10 100,
    (min ((UInt64.ofNat n).toFloat + (UInt64.ofNat n).toFloat * 0.2) maxGasPrice.toFloat).toUInt64 =
      UInt64.ofNat ⌊min ((n : ℚ) + n * gasPriceAdjustmentFactor) maxGasPrice.toNat⌋₊ := by
  decide +kernel

lemma lower_float : ∀ n ∈ Finset.Icc 10 100,
    (max ((UInt64.ofNat n).toFloat - (UInt64.ofNat n).toFloat * 0.2) minGasPrice.toFloat).toUInt64 =
      UInt64.ofNat ⌊max ((n : ℚ) - n * gasPriceAdjustmentFactor) minGasPrice.toNat⌋₊ := by
  decide +kernel

variable {g : GasModel}

/-- **The update of a price between its bounds is exact.** -/
lemma updateGasPriceFloat_eq (h : g.InRange) (hpos : 0 < g.blockGasLimit.toNat)
    (hsmall : g.blockGasLimit.toNat ≤ 2 ^ 50) : g.updateGasPriceFloat = g.updateGasPrice := by
  have hprice : UInt64.ofNat g.currentGasPrice.toNat = g.currentGasPrice := UInt64.ofNat_toNat
  have hmem : g.currentGasPrice.toNat ∈ Finset.Icc 10 100 := Finset.mem_Icc.mpr h
  have hraise := raise_float _ hmem
  have hlower := lower_float _ hmem
  have hhalf : targetBlockGas / 2 = 2 / 5 := by norm_num [targetBlockGas]
  rw [hprice] at hraise hlower
  unfold updateGasPriceFloat updateGasPrice
  simp only [gt_iff_lt, lt_utilizationFloat_iff hpos hsmall, utilizationFloat_lt_iff hpos hsmall,
    hraise, hlower, hhalf]
  rfl

lemma blockGasLimit_afterBlock (g : GasModel) (gasUsed : UInt64) :
    (g.afterBlock gasUsed).blockGasLimit = g.blockGasLimit := by
  unfold afterBlock updateGasPrice
  simp only
  split_ifs <;> rfl

/-- **The prices are exact** along every run that starts between the bounds. -/
theorem run_float (usages : List UInt64) (h : g.InRange) (hpos : 0 < g.blockGasLimit.toNat)
    (hsmall : g.blockGasLimit.toNat ≤ 2 ^ 50) :
    usages.foldl afterBlockFloat g = usages.foldl afterBlock g := by
  induction usages generalizing g with
  | nil => rfl
  | cons gasUsed usages ih =>
    have hstep : g.afterBlockFloat gasUsed = g.afterBlock gasUsed :=
      updateGasPriceFloat_eq (g := { g with blockGasUsed := gasUsed }) h hpos hsmall
    have hlimit := g.blockGasLimit_afterBlock gasUsed
    rw [List.foldl_cons, List.foldl_cons, hstep]
    exact ih (h.afterBlock gasUsed) (by rwa [hlimit]) (by rwa [hlimit])

end GasModel

/-! ## Gas limits -/

namespace BlockGasCalculator

/-- `CalculateDynamicGasLimit` with floating-point numbers. -/
def calculateDynamicGasLimitFloat (bgc : BlockGasCalculator) (prevGasUsed prevGasLimit : UInt64) :
    UInt64 :=
  if prevGasLimit = 0 then bgc.baseGasLimit
  else
    let utilization := utilizationFloat prevGasUsed prevGasLimit
    if utilization > 0.8 then
      let newLimit := prevGasLimit + prevGasLimit / 20
      (min newLimit.toFloat (bgc.baseGasLimit * 2).toFloat).toUInt64
    else if utilization < 0.4 then
      let newLimit := prevGasLimit - prevGasLimit / 20
      (max newLimit.toFloat bgc.baseGasLimit.toFloat).toUInt64
    else prevGasLimit

def nextLimitFloat (bgc : BlockGasCalculator) (gasLimit gasUsed : UInt64) : UInt64 :=
  bgc.calculateDynamicGasLimitFloat gasUsed gasLimit

lemma toUInt64_min {a b : UInt64} (ha : a.toNat ≤ 2 ^ 53) (hb : b.toNat ≤ 2 ^ 53) :
    (min a.toFloat b.toFloat).toUInt64 = UInt64.ofNat ⌊min (a.toNat : ℚ) b.toNat⌋₊ := by
  have hmin := (Binary64.denotes_toFloat ha).min (Binary64.denotes_toFloat hb)
  have hfits : min (a.toNat : ℚ) b.toNat < 2 ^ 64 :=
    (min_le_left _ _).trans_lt (by exact_mod_cast a.toNat_lt)
  rw [← hmin.toUInt64 hfits, UInt64.ofNat_toNat]

lemma toUInt64_max {a b : UInt64} (ha : a.toNat ≤ 2 ^ 53) (hb : b.toNat ≤ 2 ^ 53) :
    (max a.toFloat b.toFloat).toUInt64 = UInt64.ofNat ⌊max (a.toNat : ℚ) b.toNat⌋₊ := by
  have hmax := (Binary64.denotes_toFloat ha).max (Binary64.denotes_toFloat hb)
  have hfits : max (a.toNat : ℚ) b.toNat < 2 ^ 64 :=
    max_lt (by exact_mod_cast a.toNat_lt) (by exact_mod_cast b.toNat_lt)
  rw [← hmax.toUInt64 hfits, UInt64.ofNat_toNat]

variable {bgc : BlockGasCalculator} {gasLimit : UInt64}

/-- **The next gas limit is exact.** -/
lemma nextLimitFloat_eq (hbase : bgc.baseGasLimit.toNat ≤ 2 ^ 50)
    (hlimit : gasLimit.toNat ≤ 2 ^ 50) (gasUsed : UInt64) :
    bgc.nextLimitFloat gasLimit gasUsed = bgc.nextLimit gasLimit gasUsed := by
  unfold nextLimitFloat nextLimit calculateDynamicGasLimitFloat calculateDynamicGasLimit
  by_cases hzero : gasLimit = 0
  · rw [if_pos hzero, if_pos hzero]
  have hpos : 0 < gasLimit.toNat := Nat.pos_of_ne_zero fun h => hzero (UInt64.toNat_inj.mp h)
  have hup : (gasLimit + gasLimit / 20).toNat ≤ 2 ^ 53 := by
    rw [UInt64.toNat_add, toNat_div_twenty]
    exact (Nat.mod_le _ _).trans (by omega)
  have hdown : (gasLimit - gasLimit / 20).toNat ≤ 2 ^ 53 := by
    rw [toNat_sub_div_twenty]
    omega
  have htwice : (bgc.baseGasLimit * 2).toNat ≤ 2 ^ 53 := by
    have htwo : (2 : UInt64).toNat = 2 := rfl
    rw [UInt64.toNat_mul, htwo]
    omega
  rw [if_neg hzero, if_neg hzero]
  simp only [gt_iff_lt, lt_utilizationFloat_iff hpos hlimit, utilizationFloat_lt_iff hpos hlimit,
    toUInt64_min hup htwice, toUInt64_max hdown (by omega : bgc.baseGasLimit.toNat ≤ 2 ^ 53)]

/-- **The gas limits are exact** along every run that starts between the bounds. -/
theorem run_float (hlow : 20 ≤ bgc.baseGasLimit.toNat) (hhigh : bgc.baseGasLimit.toNat < 2 ^ 40)
    (usages : List UInt64) :
    usages.foldl bgc.nextLimitFloat bgc.baseGasLimit = bgc.limitAfter usages := by
  have hrun : ∀ (usages : List UInt64) (gasLimit : UInt64), bgc.InRange gasLimit →
      usages.foldl bgc.nextLimitFloat gasLimit = usages.foldl bgc.nextLimit gasLimit := by
    intro usages
    induction usages with
    | nil => exact fun _ _ => rfl
    | cons gasUsed usages ih =>
      intro gasLimit h
      have hbound := h.2
      rw [List.foldl_cons, List.foldl_cons, nextLimitFloat_eq (by omega) (by omega)]
      exact ih _ (h.nextLimit hlow hhigh gasUsed).1
  exact hrun usages _ ⟨le_rfl, by omega⟩

end BlockGasCalculator

/-- **Rounding never shows**: from the usual start, prices and limits computed with floating-point
numbers are those computed exactly, after any blocks. -/
theorem gas_float_exact {initialGasPrice blockGasLimit base : UInt64}
    (hprice : initialGasPrice ≤ maxGasPrice) (hpos : 0 < blockGasLimit.toNat)
    (hsmall : blockGasLimit.toNat ≤ 2 ^ 50) (hlow : 20 ≤ base.toNat) (hhigh : base.toNat < 2 ^ 40)
    (usages : List UInt64) :
    usages.foldl GasModel.afterBlockFloat (newGasModel initialGasPrice blockGasLimit) =
        usages.foldl GasModel.afterBlock (newGasModel initialGasPrice blockGasLimit) ∧
      usages.foldl (newBlockGasCalculator base).nextLimitFloat base =
        (newBlockGasCalculator base).limitAfter usages :=
  ⟨GasModel.run_float usages (GasModel.inRange_newGasModel hprice) hpos hsmall,
    BlockGasCalculator.run_float hlow hhigh usages⟩

theorem gas_float_exact_twenty : [90, 10].foldl GasModel.afterBlockFloat (newGasModel 20 100) =
        [90, 10].foldl GasModel.afterBlock (newGasModel 20 100) ∧
      [90, 10].foldl (newBlockGasCalculator 100).nextLimitFloat 100 =
        (newBlockGasCalculator 100).limitAfter [90, 10] :=
  gas_float_exact (by decide) (by decide) (by decide) (by decide) (by decide) [90, 10]

end HybridChain
