import HybridChain.Lib.Binary64
import HybridChain.SelectionShares

/-!
# The weight of a stake

`GetStakeWeight` of `stake_pool.go`: a hundred times the amount, divided by a billion, and raised by
the part of a year that the stake is old. Only the first product can wrap. `calculateWeight`
multiplies by a factor between one and two.

## Main definitions

* `baseWeight`, `ageWeight`
* `Unwrapped`: the product has not spoilt the weight

## Main results

* `getStakeWeight_ordered_iff`: when weights follow the amounts
* `weightedSelection_total_ne_zero_iff`: when the total is not zero
-/

namespace HybridChain

open Binary64 (Denotes Rounds denotes_toFloat le_size)

namespace StakeInfo

variable {now : ℤ} {stake : StakeInfo}

/-! ## The parts of a weight -/

/-- The `baseWeight` of `GetStakeWeight`. -/
def baseWeight (stake : StakeInfo) : UInt64 := stake.amount * baseStakeWeight / 1000000000

/-- The `ageWeight` of `GetStakeWeight`: days. -/
def ageWeight (now : ℤ) (stake : StakeInfo) : UInt64 :=
  let age := now - stake.startTime
  (hours (if age > maxStakeAge then maxStakeAge else age) / 24).toUInt64

lemma getStakeWeight_eq (h : stake.startTime ≤ now) : stake.getStakeWeight now =
    stake.baseWeight + stake.baseWeight * stake.ageWeight now / 365 := by
  have hmature : ¬ now - stake.startTime < minStakeAge := by
    rw [minStakeAge]
    omega
  rw [getStakeWeight]
  simp only [if_neg hmature]
  rfl

lemma getStakeWeight_of_lt (h : now < stake.startTime) : stake.getStakeWeight now = 0 := by
  have hyoung : now - stake.startTime < minStakeAge := by
    rw [minStakeAge]
    omega
  rw [getStakeWeight]
  simp only [if_pos hyoung]

lemma toNat_baseWeight (stake : StakeInfo) :
    stake.baseWeight.toNat = stake.amount.toNat * 100 % 2 ^ 64 / 1000000000 := by
  rw [baseWeight, UInt64.toNat_div, UInt64.toNat_mul]
  rfl

lemma baseWeight_le (stake : StakeInfo) : stake.baseWeight.toNat ≤ 18446744073 := by
  rw [toNat_baseWeight]
  omega

lemma denotes_hours {age : ℤ} (hnonneg : 0 ≤ age) (hmax : age ≤ maxStakeAge) :
    ∃ q, Denotes (hours age) q ∧ q ≤ 8760 := by
  have hmax' : age ≤ 8760 * 3600000000000 := hmax
  have hwhole : (UInt64.ofNat (age / hour).toNat).toNat = (age / 3600000000000).toNat :=
    UInt64.toNat_ofNat_of_lt' (by rw [hour]; change _ < 2 ^ 64; omega)
  have hpart : (UInt64.ofNat (age % hour).toNat).toNat = (age % 3600000000000).toNat :=
    UInt64.toNat_ofNat_of_lt' (by rw [hour]; change _ < 2 ^ 64; omega)
  have hfull : (UInt64.ofNat hour.toNat).toNat = 3600000000000 := rfl
  have dwhole := denotes_toFloat (n := UInt64.ofNat (age / hour).toNat) (by omega)
  have dpart := denotes_toFloat (n := UInt64.ofNat (age % hour).toNat) (by omega)
  have dfull := denotes_toFloat (n := UInt64.ofNat hour.toNat) (by omega)
  rw [hwhole] at dwhole
  rw [hpart] at dpart
  rw [hfull] at dfull
  have hquotient : ((age % 3600000000000).toNat : ℚ) / (3600000000000 : ℕ) ≤ (1 : ℕ) := by
    rw [div_le_iff₀ (by norm_num), Nat.cast_one, one_mul]
    exact_mod_cast (by omega : (age % 3600000000000).toNat ≤ 3600000000000)
  obtain ⟨f, df, rf⟩ := dpart.div dfull (by norm_num) (le_size (hquotient.trans (by norm_num)))
  -- the part of an hour is zero in the last hour, and at most one before it
  have hsum : ((age / 3600000000000).toNat : ℚ) + f ≤ (8760 : ℕ) := by
    rcases Nat.lt_or_ge (age / 3600000000000).toNat 8760 with hlt | hge
    · have hf : f ≤ (1 : ℕ) := rf.le_natCast (by norm_num) hquotient
      have hle : ((age / 3600000000000).toNat : ℚ) ≤ 8759 := by
        exact_mod_cast Nat.le_of_lt_succ hlt
      push_cast at hf ⊢
      linarith
    · have hzero : (age % 3600000000000).toNat = 0 := by omega
      have hf : f ≤ (0 : ℕ) := rf.le_natCast (by norm_num) (by rw [hzero]; norm_num)
      have hle : ((age / 3600000000000).toNat : ℚ) ≤ 8760 := by
        exact_mod_cast (by omega : (age / 3600000000000).toNat ≤ 8760)
      push_cast at hf ⊢
      linarith
  obtain ⟨q, dq, rq⟩ := dwhole.add df (le_size (hsum.trans (by norm_num)))
  exact ⟨q, dq, rq.le_natCast (n := 8760) (by norm_num) hsum⟩

/-- **An age counts for 365 days at most.** -/
lemma ageWeight_le (h : stake.startTime ≤ now) : (stake.ageWeight now).toNat ≤ 365 := by
  set age := if now - stake.startTime > maxStakeAge then maxStakeAge else now - stake.startTime
    with hage
  have hnonneg : 0 ≤ age := by
    rw [hage]
    unfold maxStakeAge hour
    split_ifs <;> omega
  have hmax : age ≤ maxStakeAge := by
    rw [hage]
    split_ifs <;> omega
  obtain ⟨q, dq, hq⟩ := denotes_hours hnonneg hmax
  have d24 : Denotes 24 ((24 : ℕ) : ℚ) := denotes_toFloat (n := 24) (by decide)
  have hdays : q / ((24 : ℕ) : ℚ) ≤ (365 : ℕ) := by
    rw [div_le_iff₀ (by norm_num)]
    norm_num
    linarith
  obtain ⟨d, dd, rd⟩ := dq.div d24 (by norm_num) (le_size (hdays.trans (by norm_num)))
  have hd : d ≤ (365 : ℕ) := rd.le_natCast (by norm_num) hdays
  rw [ageWeight, dd.toUInt64 (lt_of_le_of_lt hd (by norm_num))]
  exact Nat.floor_le_of_le hd

/-- **A weight with natural numbers**: only the base can have wrapped. -/
lemma toNat_getStakeWeight (h : stake.startTime ≤ now) : (stake.getStakeWeight now).toNat =
    stake.baseWeight.toNat + stake.baseWeight.toNat * (stake.ageWeight now).toNat / 365 := by
  have hage := ageWeight_le h
  have hbase := baseWeight_le stake
  have hproduct : stake.baseWeight.toNat * (stake.ageWeight now).toNat ≤ 18446744073 * 365 :=
    Nat.mul_le_mul hbase hage
  have hdays : (365 : UInt64).toNat = 365 := rfl
  rw [getStakeWeight_eq h, UInt64.toNat_add, UInt64.toNat_div, UInt64.toNat_mul, hdays]
  omega

lemma getStakeWeight_bounds (h : stake.startTime ≤ now) :
    stake.baseWeight.toNat ≤ (stake.getStakeWeight now).toNat ∧
      (stake.getStakeWeight now).toNat ≤ 2 * stake.baseWeight.toNat := by
  have hage := Nat.mul_le_mul_left stake.baseWeight.toNat (ageWeight_le h)
  rw [toNat_getStakeWeight h]
  omega

/-! ## Weights and amounts -/

/-- The weight is between the hundredfold amount in billions, rounded down, and twice that. -/
def WithinFactorTwo (now : ℤ) (stake : StakeInfo) : Prop :=
  stake.amount.toNat * 100 / 1000000000 ≤ (stake.getStakeWeight now).toNat ∧
    (stake.getStakeWeight now).toNat ≤ 2 * (stake.amount.toNat * 100 / 1000000000)

/-- The product with 100 has not spoilt the weight: it does not wrap, or it wraps once, comes out
near the end of the range again and the age makes up for the rest. -/
def Unwrapped (now : ℤ) (stake : StakeInfo) : Prop := stake.amount.toNat * 100 < 2 ^ 64 ∨
    stake.ageWeight now = 365 ∧ 2 ^ 64 + 18446744073000000000 ≤ stake.amount.toNat * 100 ∧
      stake.amount.toNat * 100 < 2 ^ 64 + 18446744073290448384

instance (stake : StakeInfo) : Decidable (stake.WithinFactorTwo now) :=
  inferInstanceAs (Decidable (_ ∧ _))

instance (stake : StakeInfo) : Decidable (stake.Unwrapped now) :=
  inferInstanceAs (Decidable (_ ∨ _))

lemma wrapped_add_le {n : ℕ} (h : 2 ^ 64 ≤ n) :
    n % 2 ^ 64 / 1000000000 + 18446744073 ≤ n / 1000000000 := by
  rw [← Nat.add_mul_div_right _ _ (by norm_num)]
  exact Nat.div_le_div_right (by omega)

lemma eq_of_le_mul_div {b w : ℕ} (hb : b ≤ 18446744073) (hw : w ≤ 365)
    (h : 18446744073 ≤ b * w / 365) : b = 18446744073 ∧ w = 365 := by
  rw [Nat.le_div_iff_mul_le (by norm_num)] at h
  have hb' : b * w ≤ b * 365 := Nat.mul_le_mul_left b hw
  have hw' : b * w ≤ 18446744073 * w := Nat.mul_le_mul_right w hb
  omega

lemma wrapped_eq_iff {n : ℕ} (h : 2 ^ 64 ≤ n) :
    n % 2 ^ 64 / 1000000000 = 18446744073 ∧ n / 1000000000 ≤ 36893488146 ↔
      2 ^ 64 + 18446744073000000000 ≤ n ∧ n < 2 ^ 64 + 18446744073290448384 := by
  omega

/-- **A weight is within a factor of two exactly if the product has not spoilt it.** -/
lemma withinFactorTwo_iff (h : stake.startTime ≤ now) :
    stake.WithinFactorTwo now ↔ stake.Unwrapped now := by
  have hage := ageWeight_le h
  have hbase := baseWeight_le stake
  have hweight := toNat_getStakeWeight h
  have heq := toNat_baseWeight stake
  have hdays : (365 : UInt64).toNat = 365 := rfl
  unfold WithinFactorTwo Unwrapped
  constructor
  · rintro ⟨hlower, -⟩
    by_cases hfits : stake.amount.toNat * 100 < 2 ^ 64
    · exact .inl hfits
    · have hlacks := wrapped_add_le (not_lt.mp hfits)
      obtain ⟨hb, hw⟩ := eq_of_le_mul_div hbase hage (by omega)
      rw [hb, hw] at hweight
      exact .inr ⟨UInt64.toNat.inj hw, (wrapped_eq_iff (not_lt.mp hfits)).mp ⟨by omega, by omega⟩⟩
  · rintro (hfits | ⟨hw, hwindow⟩)
    · have hbounds := getStakeWeight_bounds h
      rw [heq, Nat.mod_eq_of_lt hfits] at hbounds
      exact hbounds
    · have hwraps : 2 ^ 64 ≤ stake.amount.toNat * 100 := by omega
      have hlacks := wrapped_add_le hwraps
      obtain ⟨hb, hF⟩ := (wrapped_eq_iff hwraps).mpr hwindow
      rw [heq, hb, hw, hdays] at hweight
      omega

lemma withinFactorTwo_iff_of_lt (h : now < stake.startTime) :
    stake.WithinFactorTwo now ↔ stake.amount.toNat < 10000000 := by
  rw [WithinFactorTwo, getStakeWeight_of_lt h, UInt64.toNat_zero]
  omega

lemma getStakeWeight_le {other : StakeInfo} (hstart : stake.startTime = other.startTime)
    (h : stake.startTime ≤ now) (hle : stake.amount ≤ other.amount) (hother : other.Unwrapped now) :
    stake.getStakeWeight now ≤ other.getStakeWeight now := by
  have h' : other.startTime ≤ now := hstart ▸ h
  have hle' : stake.amount.toNat ≤ other.amount.toNat := hle
  have hbase := baseWeight_le stake
  rw [UInt64.le_iff_toNat_le]
  rcases hother with hfits | ⟨hw, hlow, hhigh⟩
  · have hages : stake.ageWeight now = other.ageWeight now := by rw [ageWeight, hstart, ageWeight]
    have hbases : stake.baseWeight.toNat ≤ other.baseWeight.toNat := by
      rw [toNat_baseWeight, toNat_baseWeight, Nat.mod_eq_of_lt hfits, Nat.mod_eq_of_lt (by omega)]
      exact Nat.div_le_div_right (Nat.mul_le_mul_right 100 hle')
    rw [toNat_getStakeWeight h, toNat_getStakeWeight h', hages]
    exact Nat.add_le_add hbases (Nat.div_le_div_right (Nat.mul_le_mul_right _ hbases))
  · -- the weight of `other` is the largest there is
    have hupper := (getStakeWeight_bounds h).2
    have hlower := ((withinFactorTwo_iff h').mpr (.inr ⟨hw, hlow, hhigh⟩)).1
    omega

/-- **When weights follow the amounts.** Of two stakes of the same age the smaller weighs at most
as much, and both weights are between the hundredfold amount in billions, rounded down, and twice
that, exactly if neither product with 100 has spoilt its weight; before the stakes have started,
exactly if the larger one is below ten million.

**Proof sketch.** The age adds at most the base again, so an unwrapped base gives both bounds and
the order. A wrapped product lacks at least as much as the largest base there is. -/
theorem getStakeWeight_ordered_iff (now : ℤ) (stake other : StakeInfo)
    (hstart : stake.startTime = other.startTime) (hle : stake.amount ≤ other.amount) :
    (stake.getStakeWeight now ≤ other.getStakeWeight now ∧
      stake.WithinFactorTwo now ∧ other.WithinFactorTwo now) ↔
    if stake.startTime ≤ now then stake.Unwrapped now ∧ other.Unwrapped now
    else other.amount.toNat < 10000000 := by
  have hle' : stake.amount.toNat ≤ other.amount.toNat := hle
  split_ifs with h
  · rw [withinFactorTwo_iff h, withinFactorTwo_iff (hstart ▸ h)]
    exact ⟨fun hall => hall.2, fun hall => ⟨getStakeWeight_le hstart h hle hall.2, hall⟩⟩
  · have h' : now < stake.startTime := not_le.mp h
    rw [withinFactorTwo_iff_of_lt h', withinFactorTwo_iff_of_lt (hstart ▸ h'),
      getStakeWeight_of_lt h', getStakeWeight_of_lt (hstart ▸ h')]
    constructor
    · exact fun hall => hall.2.2
    · exact fun hsmall => ⟨UInt64.le_refl 0, by omega, hsmall⟩

theorem getStakeWeight_ordered_billions :
    let one : StakeInfo := .fresh 1000000000
    let two : StakeInfo := .fresh 2000000000
    one.getStakeWeight 0 = 100 ∧ two.getStakeWeight 0 = 200 ∧
      one.WithinFactorTwo 0 ∧ two.WithinFactorTwo 0 := by
  intro one two
  refine ⟨by decide +kernel, by decide +kernel, ?_⟩
  have hunwrapped : one.Unwrapped 0 ∧ two.Unwrapped 0 := ⟨.inl (by decide), .inl (by decide)⟩
  exact ((getStakeWeight_ordered_iff 0 one two rfl (by decide)).mpr
    ((if_pos le_rfl).mpr hunwrapped)).2

/-- **One unit more and the weight is gone**: the product with 100 fits for an amount of
184467440737095516, and wraps to 84 for the next one. -/
theorem getStakeWeight_one_more :
    let stake : StakeInfo := .fresh 184467440737095516
    let other : StakeInfo := .fresh 184467440737095517
    stake.amount ≤ other.amount ∧ stake.getStakeWeight 0 = 18446744073 ∧
      other.getStakeWeight 0 = 0 ∧ ¬ other.WithinFactorTwo 0 := by
  decide +kernel

end StakeInfo

/-! ## The total weight of a selection -/

namespace StakePool

variable {sp : StakePool} {now : ℤ} {order : List String} {v : ValidatorRecord}
  {stake : StakeInfo}

lemma exists_denotes_of_unpack {x : Float} {m : ℕ} {hpos : 0 < m}
    (hunpack : x.toModel.unpack = .finite .positive m (-52) hpos) (hlow : 2 ^ 52 ≤ m)
    (hhigh : m < 2 ^ 53) : ∃ q, Denotes x q ∧ 1 ≤ q ∧ q ≤ 2 := by
  refine ⟨_, Binary64.denotes_of_unpack hunpack hhigh (by norm_num) (.inl hlow), ?_, ?_⟩
  · rw [zpow_neg, ← div_eq_mul_inv, le_div_iff₀ (by positivity)]
    exact_mod_cast hlow
  · rw [zpow_neg, ← div_eq_mul_inv, div_le_iff₀ (by positivity)]
    exact_mod_cast (by omega : m ≤ 2 * 2 ^ 52)

lemma denotes_performanceMultiplier (now : ℤ) (performance : ValidatorPerformance) :
    ∃ q, Denotes (performanceMultiplier now performance) q ∧ 1 ≤ q ∧ q ≤ 2 := by
  have hall : ∃ q, Denotes (1 * 1.2 * 1.1 * 1.1) q ∧ 1 ≤ q ∧ q ≤ 2 :=
    exists_denotes_of_unpack (m := 6539226658941961) rfl (by norm_num) (by norm_num)
  have hhigh : ∃ q, Denotes (1 * 1.2 * 1.1) q ∧ 1 ≤ q ∧ q ≤ 2 :=
    exists_denotes_of_unpack (m := 5944751508129055) rfl (by norm_num) (by norm_num)
  have huptime : ∃ q, Denotes (1 * 1.2) q ∧ 1 ≤ q ∧ q ≤ 2 :=
    exists_denotes_of_unpack (m := 5404319552844595) rfl (by norm_num) (by norm_num)
  have htwo : ∃ q, Denotes (1 * 1.1 * 1.1) q ∧ 1 ≤ q ∧ q ≤ 2 :=
    exists_denotes_of_unpack (m := 5449355549118301) rfl (by norm_num) (by norm_num)
  have hone : ∃ q, Denotes (1 * 1.1) q ∧ 1 ≤ q ∧ q ≤ 2 :=
    exists_denotes_of_unpack (m := 4953959590107546) rfl (by norm_num) (by norm_num)
  have hnone : ∃ q, Denotes 1 q ∧ 1 ≤ q ∧ q ≤ 2 :=
    exists_denotes_of_unpack (m := 4503599627370496) rfl (by norm_num) (by norm_num)
  unfold performanceMultiplier
  simp only
  split_ifs
  exacts [hall, htwo, hhigh, hone, hhigh, hone, huptime, hnone]

lemma toNat_getStakeWeight_lt (now : ℤ) (stake : StakeInfo) :
    (stake.getStakeWeight now).toNat < 2 ^ 36 := by
  rcases lt_or_ge now stake.startTime with h | h
  · rw [StakeInfo.getStakeWeight_of_lt h]
    decide
  · have hupper := (StakeInfo.getStakeWeight_bounds h).2
    have hbase := stake.baseWeight_le
    omega

/-- **The performance of a validator raises its weight, at most to twice that of the stake.** -/
lemma natWeight_bounds (now : ℤ) (hstake : sp.stakes.lookup v.address = some stake) :
    (stake.getStakeWeight now).toNat ≤ sp.natWeight now v ∧
      sp.natWeight now v ≤ 2 * (stake.getStakeWeight now).toNat := by
  have hsmall := toNat_getStakeWeight_lt now stake
  unfold natWeight calculateWeight
  simp only [hstake]
  cases hperf : v.performance with
  | none => exact ⟨le_rfl, by simp only; omega⟩
  | some performance =>
    simp only
    generalize hw : (stake.getStakeWeight now).toNat = w at hsmall
    obtain ⟨q, dq, hone, htwo⟩ := denotes_performanceMultiplier now performance
    have dw := denotes_toFloat (n := stake.getStakeWeight now) (by omega)
    rw [hw] at dw
    have hlower : (w : ℚ) ≤ w * q := le_mul_of_one_le_right (by positivity) hone
    have hupper : (w : ℚ) * q ≤ (2 * w : ℕ) := by
      rw [mul_comm, Nat.cast_mul, Nat.cast_ofNat]
      exact mul_le_mul_of_nonneg_right htwo (by positivity)
    have hfits : ((2 * w : ℕ) : ℚ) < 2 ^ 64 := by exact_mod_cast (by omega : 2 * w < 2 ^ 64)
    obtain ⟨r, dr, rr⟩ := dw.mul dq (le_size (hupper.trans hfits.le))
    have hr : r ≤ (2 * w : ℕ) := rr.le_natCast (by omega) hupper
    have hr' : (w : ℚ) ≤ r := rr.natCast_le (by omega) hlower
    rw [dr.toUInt64 (lt_of_le_of_lt hr hfits)]
    exact ⟨Nat.le_floor hr', Nat.floor_le_of_le hr⟩

lemma natWeight_eq_zero_iff (hstake : sp.stakes.lookup v.address = some stake)
    (hstarted : stake.startTime ≤ now) :
    sp.natWeight now v = 0 ↔ stake.amount.toNat * 100 % 2 ^ 64 < 1000000000 := by
  have hweight := natWeight_bounds now hstake
  have hbase := StakeInfo.getStakeWeight_bounds hstarted
  rw [← Nat.div_eq_zero_iff_lt (by norm_num), ← stake.toNat_baseWeight]
  omega

lemma sum_calculateWeight_eq_zero_iff (validators : List ValidatorRecord) :
    (validators.map (sp.calculateWeight now)).sum = 0 ↔ 2 ^ 64 ∣ sp.totalWeight now validators := by
  have hsum := CumulativeWalk.toNat_sum_map_mod (sp.calculateWeight now) validators
  rw [← UInt64.toNat_inj, hsum, UInt64.toNat_zero, Nat.dvd_iff_mod_eq_zero]
  rfl

variable {validators : List ValidatorRecord}

lemma weightedSelection_eq_divideByZero_iff {C : Crypto}
    {seed : List UInt8} : sp.weightedSelection C validators seed now = .error .divideByZero ↔
      (validators.map (sp.calculateWeight now)).sum = 0 := by
  unfold weightedSelection
  simp only
  split_ifs with hzero <;> simp [hzero]

lemma totalWeight_ne_zero_iff :
    sp.totalWeight now validators ≠ 0 ↔ ∃ v ∈ validators, sp.natWeight now v ≠ 0 := by
  rw [totalWeight, Ne, List.sum_eq_zero_iff]
  simp

lemma totalWeight_lt (hfew : (sp.getEligibleValidators order now).length < 2 ^ 27) :
    sp.totalWeight now (sp.getEligibleValidators order now) < 2 ^ 64 := by
  have hall : ∀ w ∈ (sp.getEligibleValidators order now).map (sp.natWeight now), w ≤ 2 ^ 37 := by
    intro w hw
    obtain ⟨v, hv, rfl⟩ := List.mem_map.mp hw
    obtain ⟨stake, hstake, -⟩ := eligibleAddress_of_mem hv
    have hupper := (natWeight_bounds now hstake).2
    have hsmall := toNat_getStakeWeight_lt now stake
    omega
  have hsum := List.sum_le_card_nsmul _ _ hall
  rw [List.length_map, smul_eq_mul] at hsum
  unfold totalWeight
  omega

lemma exists_base_iff (horder : sp.Enumerates order) :
    (∃ addr stake, sp.stakes.lookup addr = some stake ∧ stake.isEligible now = true ∧
      1000000000 ≤ stake.amount.toNat * 100 % 2 ^ 64) ↔
      sp.totalWeight now (sp.getEligibleValidators order now) ≠ 0 := by
  rw [totalWeight_ne_zero_iff]
  constructor
  · rintro ⟨addr, stake, hstake, heligible, hbase⟩
    obtain ⟨v, hv, rfl⟩ := List.mem_map.mp (horder.mem_map_address.mpr ⟨stake, hstake, heligible⟩)
    refine ⟨v, hv, fun hzero => ?_⟩
    rw [natWeight_eq_zero_iff hstake (StakeInfo.isEligible_iff.mp heligible).1] at hzero
    omega
  · rintro ⟨v, hv, hne⟩
    obtain ⟨stake, hstake, heligible⟩ := eligibleAddress_of_mem hv
    rw [Ne, natWeight_eq_zero_iff hstake (StakeInfo.isEligible_iff.mp heligible).1, not_lt] at hne
    exact ⟨v.address, stake, hstake, heligible, hne⟩

/-- **When the total weight is not zero**, so that `weightedSelection` does not divide by it:
exactly if some eligible stake has a base weight, that is its hundredfold amount, wrapped to 64
bits, is a billion at least; and, with `2 ^ 27` eligible validators or more, the weights do not add
up to a multiple of `2 ^ 64`.

**Proof sketch.** Age and performance raise a weight to four times the base at most, so it is zero
exactly if the base is, and fewer than `2 ^ 27` weights do not wrap. -/
theorem weightedSelection_total_ne_zero_iff (C : Crypto) (sp : StakePool) (now : ℤ)
    (order : List String) (horder : sp.Enumerates order) (seed : List UInt8) :
    sp.weightedSelection C (sp.getEligibleValidators order now) seed now ≠ .error .divideByZero ↔
      (∃ addr stake, sp.stakes.lookup addr = some stake ∧ stake.isEligible now = true ∧
        1000000000 ≤ stake.amount.toNat * 100 % 2 ^ 64) ∧
      ((sp.getEligibleValidators order now).length < 2 ^ 27 ∨
        ¬ 2 ^ 64 ∣ sp.totalWeight now (sp.getEligibleValidators order now)) := by
  rw [Ne, weightedSelection_eq_divideByZero_iff, sum_calculateWeight_eq_zero_iff,
    exists_base_iff horder]
  constructor
  · intro hdvd
    exact ⟨fun hzero => hdvd (hzero ▸ dvd_zero _), .inr hdvd⟩
  · rintro ⟨hne, hfew | hdvd⟩
    · exact fun hdvd => hne (Nat.eq_zero_of_dvd_of_lt hdvd (totalWeight_lt hfew))
    · exact hdvd

def oneStaker (amount : UInt64) : StakePool where
  stakes := Finmap.singleton "alice" (.fresh amount)

lemma enumerates_oneStaker (amount : UInt64) : (oneStaker amount).Enumerates ["alice"] := by
  refine ⟨List.nodup_singleton _, fun addr => ?_⟩
  rw [oneStaker, Finmap.mem_singleton, List.mem_singleton]

theorem weightedSelection_total_billion : (oneStaker 1000000000).weightedSelection Crypto.sample
      ((oneStaker 1000000000).getEligibleValidators ["alice"] 0) [] 0 ≠ .error .divideByZero := by
  rw [weightedSelection_total_ne_zero_iff Crypto.sample _ 0 _ (enumerates_oneStaker 1000000000)]
  exact ⟨⟨"alice", .fresh 1000000000, Finmap.lookup_singleton_eq, by decide, by decide⟩,
    .inl (by decide +kernel)⟩

/-- **The smallest eligible stake has no weight**: the selection among a staker of one unit alone
divides by zero. -/
theorem weightedSelection_one_unit : (oneStaker 1).Enumerates ["alice"] ∧
      (oneStaker 1).getEligibleValidators ["alice"] 0 ≠ [] ∧
      (((oneStaker 1).getEligibleValidators ["alice"] 0).map
        ((oneStaker 1).calculateWeight 0)).sum = 0 ∧ (oneStaker 1).weightedSelection Crypto.sample
        ((oneStaker 1).getEligibleValidators ["alice"] 0) [] 0 = .error .divideByZero := by
  have hsum : (((oneStaker 1).getEligibleValidators ["alice"] 0).map
      ((oneStaker 1).calculateWeight 0)).sum = 0 := by decide +kernel
  exact ⟨enumerates_oneStaker 1, by decide +kernel, hsum,
    weightedSelection_eq_divideByZero_iff.mpr hsum⟩

end StakePool

end HybridChain
