import Mathlib

/-!
# Floating-point arithmetic

Lean's `Float` has a model in which every operation rounds the exact result to a nearest number of
the format. All numbers here are finite and not negative.

## Main definitions

* `Denotes`: the number that a `Float` stands for
* `Rounds`: rounding to nearest

## Main results

* `Denotes.add`, `Denotes.mul`, `Denotes.div`: results are rounded
* `Denotes.lt_iff`, `Denotes.toUInt64`: comparisons and conversions
-/

namespace Binary64

open Float.Model Float.Model.UnpackedFloat
open Format (binary64)

/-! ## Numbers of the format -/

/-- An unpacked number of the format that is not negative, and the number it stands for. -/
inductive Stands : UnpackedFloat → ℚ → Prop
  | zero : Stands (.zero .positive) 0
  | finite {m : ℕ} {e : ℤ} (hpos : 0 < m) (hm : m < 2 ^ 53) (he : -1074 ≤ e)
    (hcan : 2 ^ 52 ≤ m ∨ e = -1074) : Stands (.finite .positive m e hpos) (m * 2 ^ e)

/-- A `Float` stands for a number that is not negative. -/
def Denotes (x : Float) (q : ℚ) : Prop := Stands x.toModel.unpack q

/-- The numbers of the format, of any size. -/
def Representable (c : ℚ) : Prop := ∃ (n : ℕ) (t : ℤ), n ≤ 2 ^ 53 ∧ -1074 ≤ t ∧ c = n * 2 ^ t

/-- **Rounding to nearest**: no number of the format is closer. -/
def Rounds (q r : ℚ) : Prop := ∀ c, Representable c → |q - r| ≤ |q - c|

variable {n : ℕ}

lemma representable_natCast (h : n ≤ 2 ^ 53) : Representable n := ⟨n, 0, h, by norm_num, by simp⟩

lemma representable_half (h : n ≤ 2 ^ 53) : Representable (n / 2) :=
  ⟨n, -1, h, by norm_num, by rw [zpow_neg_one]; rfl⟩

lemma Representable.exists_natCast {c : ℚ} (h : Representable c) : ∃ N : ℕ, c * 2 ^ 1074 = N := by
  obtain ⟨n, t, -, ht, rfl⟩ := h
  refine ⟨n * 2 ^ (t + 1074).toNat, ?_⟩
  have hexp : ((t + 1074).toNat : ℤ) = t + (1074 : ℕ) := by
    push_cast
    omega
  rw [Nat.cast_mul, Nat.cast_pow, Nat.cast_ofNat, ← zpow_natCast 2 (t + 1074).toNat, hexp,
    zpow_add₀ (by norm_num), zpow_natCast, mul_assoc]

variable {q r : ℚ}

/-- **A representable result is exact.** -/
lemma Rounds.eq_of_representable (h : Rounds q r) (hq : Representable q) : r = q := by
  have hzero := h q hq
  rw [sub_self, abs_zero, abs_nonpos_iff, sub_eq_zero] at hzero
  exact hzero.symm

lemma Rounds.le_of_le {c : ℚ} (h : Rounds q r) (hc : Representable c) (hq : q ≤ c) : r ≤ c := by
  by_contra hlt
  have hle := h c hc
  rw [abs_of_nonpos (by linarith), abs_of_nonpos (by linarith)] at hle
  linarith

lemma Rounds.ge_of_ge {c : ℚ} (h : Rounds q r) (hc : Representable c) (hq : c ≤ q) : c ≤ r := by
  by_contra hlt
  have hle := h c hc
  rw [abs_of_nonneg (by linarith), abs_of_nonneg (by linarith)] at hle
  linarith

lemma Rounds.le_natCast (h : Rounds q r) (hn : n ≤ 2 ^ 53) (hq : q ≤ n) :
    r ≤ n := h.le_of_le (representable_natCast hn) hq

lemma Rounds.natCast_le (h : Rounds q r) (hn : n ≤ 2 ^ 53) (hq : n ≤ q) :
    n ≤ r := h.ge_of_ge (representable_natCast hn) hq

lemma Rounds.eq_of_not_representable {r' : ℚ} (h : Rounds q r) (h' : Rounds q r')
    (hr : Representable r) (hr' : Representable r') (htie : ¬ Representable (2 * q - r')) :
    r = r' := by
  have hdist : |q - r| = |q - r'| := le_antisymm (h r' hr') (h' r hr)
  rcases abs_eq_abs.mp hdist with heq | heq
  · linarith
  · exact absurd (by rwa [show 2 * q - r' = r by linarith]) htie

variable {u : UnpackedFloat}

lemma Stands.nonneg (h : Stands u q) : 0 ≤ q := by
  cases h with
  | zero => exact le_rfl
  | finite => positivity

lemma Stands.representable (h : Stands u q) : Representable q := by
  cases h with
  | zero => exact ⟨0, 0, by norm_num, by norm_num, by norm_num⟩
  | @finite m e hpos hm he => exact ⟨m, e, hm.le, he, rfl⟩

variable {x : Float}

lemma Denotes.representable (h : Denotes x q) : Representable q :=
  Stands.representable h

lemma Denotes.nonneg (h : Denotes x q) : 0 ≤ q := Stands.nonneg h

lemma Stands.unique {p : ℚ} (hp : Stands u p) (hq : Stands u q) : p = q := by
  cases hp <;> cases hq <;> rfl

lemma Denotes.unique {p : ℚ} (hp : Denotes x p) (hq : Denotes x q) : p = q :=
  Stands.unique hp hq

variable {m : ℕ}

lemma denotes_of_unpack {e : ℤ} {hpos : 0 < m}
    (h : x.toModel.unpack = .finite .positive m e hpos) (hm : m < 2 ^ 53) (he : -1074 ≤ e)
    (hcan : 2 ^ 52 ≤ m ∨ e = -1074) : Denotes x (m * 2 ^ e) := by
  rw [Denotes, h]
  exact Stands.finite hpos hm he hcan

/-! ## Packing -/

lemma toNat_ofNat_fraction (hn : n < 2 ^ 52) : (BitVec.ofNat 52 n).toNat = n := by
  rw [BitVec.toNat_ofNat, Nat.mod_eq_of_lt hn]

lemma unpack_normal (e : BitVec 11) (hzero : e ≠ 0#11) (htop : e ≠ -1#11)
    (hn : n < 2 ^ 52) : UnpackedFloat.unpack binary64
      (packComponents binary64 .positive e (BitVec.ofNat 52 n)) =
        .finite .positive (2 ^ 52 + n) (e.toNat - 1075) (by positivity) := by
  have hm : (1#1 ++ BitVec.ofNat 52 n).toNat = 2 ^ 52 + n := by
    rw [BitVec.toNat_append, toNat_ofNat_fraction hn, ← Nat.shiftLeft_add_eq_or_of_lt hn]
    rfl
  simp only [UnpackedFloat.unpack, unpackExponent_packComponents, unpackMantissa_packComponents,
    unpackSign_packComponents, Sign.ofBitVec_toBitVec, if_neg hzero, if_neg htop, hm]
  rfl

lemma unpack_subnormal (hpos : 0 < n) (hn : n < 2 ^ 52) : UnpackedFloat.unpack binary64
      (packComponents binary64 .positive 0#11 (BitVec.ofNat 52 n)) =
        .finite .positive n (-1074) hpos := by
  have hne : BitVec.ofNat 52 n ≠ 0#52 := by
    intro h
    have hzero := congrArg BitVec.toNat h
    rw [toNat_ofNat_fraction hn] at hzero
    exact hpos.ne' hzero
  have htop : ¬ (0#11 = -1#11) := by decide
  simp only [UnpackedFloat.unpack, unpackExponent_packComponents, unpackMantissa_packComponents,
    unpackSign_packComponents, Sign.ofBitVec_toBitVec, if_neg htop, if_true, dif_neg hne,
    toNat_ofNat_fraction hn]
  rfl

/-- **A number of the format is packed without loss**, unless its exponent is too large. -/
lemma unpack_pack {e : ℤ} (hpos : 0 < m) (hm : m < 2 ^ 53) (he : -1074 ≤ e)
    (he' : e ≤ 971) (hcan : 2 ^ 52 ≤ m ∨ e = -1074) :
    (Float.Model.pack (.finite .positive m e hpos)).unpack = .finite .positive m e hpos := by
  have hfits : ¬ 2 ^ 11 ≤ (e + (1023 : ℕ) + (52 : ℕ)).toNat + 1 := by omega
  show UnpackedFloat.unpack binary64 (UnpackedFloat.pack _ _) = _
  have hbias : binary64.exponentBias = 1023 := rfl
  have hbits : binary64.mantissaBits = 53 := rfl
  simp only [UnpackedFloat.pack, hbias, hbits, if_neg hfits]
  by_cases hnormal : 2 ^ 52 ≤ m
  · have hlog : m.log2 + 1 = 53 := by
      rw [(Nat.log2_eq_iff hpos.ne').mpr ⟨hnormal, hm⟩]
    obtain ⟨n, rfl⟩ := Nat.exists_eq_add_of_le hnormal
    have hn : n < 2 ^ 52 := by omega
    have hbiased : (BitVec.ofNat 11 (e + (1023 : ℕ) + (52 : ℕ)).toNat).toNat =
        (e + 1075).toNat := by
      rw [BitVec.toNat_ofNat, Nat.mod_eq_of_lt (by omega)]
      omega
    have hfraction : BitVec.ofNat 52 (2 ^ 52 + n) = BitVec.ofNat 52 n := by
      apply BitVec.eq_of_toNat_eq
      rw [BitVec.toNat_ofNat, BitVec.toNat_ofNat, Nat.add_mod_left]
    rw [if_pos hlog, hfraction, unpack_normal _ ?_ ?_ hn]
    · congr 1
      rw [hbiased]
      omega
    · intro h
      have hzero := congrArg BitVec.toNat h
      rw [hbiased] at hzero
      simp only [BitVec.toNat_ofNat] at hzero
      omega
    · intro h
      have htop := congrArg BitVec.toNat h
      rw [hbiased] at htop
      have hmax : (-1#11).toNat = 2047 := by decide
      omega
  · have hlog : m.log2 < 52 := (Nat.log2_lt hpos.ne').mpr (by omega)
    obtain rfl := hcan.resolve_left hnormal
    rw [if_neg (by omega)]
    exact unpack_subnormal hpos (by omega)

/-! ## Rounding a mantissa -/

section Mantissa

lemma roundedMantissa_bounds (em : ExtendedMantissa) :
    em.mantissa ≤ em.roundedMantissa ∧ em.roundedMantissa ≤ em.mantissa + 1 := by
  obtain ⟨m, round, sticky⟩ := em
  cases round <;> cases sticky <;>
    simp only [ExtendedMantissa.roundedMantissa, ExtendedMantissa.accuracy,
      Accuracy.roundToNearestEven] <;> omega

lemma shiftRight_succ (em : ExtendedMantissa) (k : ℕ) :
    em >>> (k + 1) = (em >>> k).shiftRightOne := rfl

lemma mantissa_shiftRight (em : ExtendedMantissa) (k : ℕ) :
    (em >>> k).mantissa = em.mantissa / 2 ^ k := by
  induction k with
  | zero => exact (Nat.div_one _).symm
  | succ k ih => rw [shiftRight_succ, ExtendedMantissa.shiftRightOne, ih, Nat.div_div_eq_div_mul,
      pow_succ]

/-- What the rounding bits of a mantissa say about the exact number. -/
def Fits : ExtendedMantissa → ℚ → Prop
  | ⟨m, false, false⟩, x => x = m
  | ⟨m, false, true⟩, x => m < x ∧ x < m + 1 / 2
  | ⟨m, true, false⟩, x => x = m + 1 / 2
  | ⟨m, true, true⟩, x => m + 1 / 2 < x ∧ x < m + 1

variable {em : ExtendedMantissa} {x : ℚ}

lemma Fits.bounds (h : Fits em x) : em.mantissa ≤ x ∧ x < em.mantissa + 1 ∧
    (x = em.mantissa ↔ (em.roundBit || em.stickyBit) = false) := by
  obtain ⟨m, round, sticky⟩ := em
  cases round <;> cases sticky <;> simp only [Fits] at h <;> refine ⟨by linarith, by linarith, ?_⟩
  · simpa using h
  · simpa using h.1.ne'
  · simp [h]
  · simp only [Bool.or_self, Bool.true_eq_false, iff_false]
    linarith

lemma fits_of_lt_half {f : ℕ} {sticky : Bool} (hlow : f ≤ x) (hup : x < f + 1 / 2)
    (hexact : x = f ↔ sticky = false) : Fits ⟨f, false, sticky⟩ x := by
  cases sticky with
  | false => exact hexact.mpr rfl
  | true => exact ⟨hlow.lt_of_ne fun heq => by simpa using hexact.mp heq.symm, hup⟩

lemma fits_of_half_le {f : ℕ} {sticky : Bool} (hlow : f + 1 / 2 ≤ x) (hup : x < f + 1)
    (hexact : x = f + 1 / 2 ↔ sticky = false) : Fits ⟨f, true, sticky⟩ x := by
  cases sticky with
  | false => exact hexact.mpr rfl
  | true => exact ⟨hlow.lt_of_ne fun heq => by simpa using hexact.mp heq.symm, hup⟩

lemma Fits.half (h : Fits em x) : Fits em.shiftRightOne (x / 2) := by
  obtain ⟨hlow, hup, hexact⟩ := h.bounds
  have hsplit : (em.mantissa : ℚ) = 2 * (em.mantissa / 2 : ℕ) + (em.mantissa % 2 : ℕ) := by
    exact_mod_cast (Nat.div_add_mod em.mantissa 2).symm
  unfold ExtendedMantissa.shiftRightOne
  rcases Nat.mod_two_eq_zero_or_one em.mantissa with hbit | hbit <;> rw [hbit] at hsplit ⊢
  · rw [Nat.cast_zero, add_zero] at hsplit
    refine fits_of_lt_half (by linarith) (by linarith) (Iff.trans ?_ hexact)
    constructor <;> intro heq <;> linarith
  · rw [Nat.cast_one] at hsplit
    refine fits_of_half_le (by linarith) (by linarith) (Iff.trans ?_ hexact)
    constructor <;> intro heq <;> linarith

lemma Fits.shiftRight (h : Fits em x) (k : ℕ) : Fits (em >>> k) (x / 2 ^ k) := by
  induction k with
  | zero =>
    rw [pow_zero, div_one]
    exact h
  | succ k ih =>
    rw [shiftRight_succ, pow_succ, ← div_div]
    exact ih.half

/-- **The rounded mantissa is a nearest integer.** -/
lemma Fits.nearest (h : Fits em x) (N : ℕ) : |x - em.roundedMantissa| ≤ |x - N| := by
  obtain ⟨hlow, hup, -⟩ := h.bounds
  have hfar : x - em.mantissa ≤ |x - N| ∨ em.mantissa + 1 - x ≤ |x - N| := by
    rcases Nat.lt_or_ge em.mantissa N with hlt | hge
    · right
      have hN : (em.mantissa : ℚ) + 1 ≤ N := by exact_mod_cast hlt
      linarith [neg_abs_le (x - N)]
    · left
      have hN : (N : ℚ) ≤ em.mantissa := by exact_mod_cast hge
      linarith [le_abs_self (x - N)]
  obtain ⟨m, round, sticky⟩ := em
  simp only at hlow hup hfar
  unfold ExtendedMantissa.roundedMantissa ExtendedMantissa.accuracy Accuracy.roundToNearestEven
  cases round <;> cases sticky <;> simp only [Fits] at h ⊢
  · rw [h, sub_self, abs_zero]
    exact abs_nonneg _
  · rw [abs_of_nonneg (by linarith)]
    rcases hfar with hfar | hfar <;> linarith
  · -- halfway: the even one of the two neighbours
    have hhalf : |x - ((m + m % 2 : ℕ) : ℚ)| = 1 / 2 := by
      rcases Nat.mod_two_eq_zero_or_one m with hbit | hbit <;> rw [hbit, h] <;> push_cast
      · rw [abs_of_nonneg] <;> linarith
      · rw [abs_of_nonpos] <;> linarith
    rw [hhalf]
    rcases hfar with hfar | hfar <;> linarith
  · rw [Nat.cast_add, Nat.cast_one, abs_of_nonpos (by linarith)]
    rcases hfar with hfar | hfar <;> linarith

end Mantissa

/-! ## Rounding a number -/

section Rounding

/-- The exponent that a number is rounded to. -/
def target (m : ℕ) (e : ℤ) : ℤ := max (m.log2 + e - 52) (-1074)

lemma targetExponent_eq (m : ℕ) (e : ℤ) :
    binary64.targetExponent (totalExponent m e) = target m e := by
  have hbits : binary64.mantissaBits = 53 := rfl
  have hmin : binary64.minExponent = -1074 := rfl
  rw [Format.targetExponent, hbits, hmin, totalExponent, target]
  omega

/-- A mantissa with its rounding bits, at the target exponent. -/
def shifted (m : ℕ) (e : ℤ) (a : Accuracy) : ExtendedMantissa :=
  ExtendedMantissa.ofMantissaAndAccuracy m a >>> (target m e - e).toNat

lemma mantissa_ofMantissaAndAccuracy (m : ℕ) (a : Accuracy) :
    (ExtendedMantissa.ofMantissaAndAccuracy m a).mantissa = m := by
  cases a with
  | exact => rfl
  | inexact o => cases o <;> rfl

lemma mantissa_shifted (m : ℕ) (e : ℤ) (a : Accuracy) :
    (shifted m e a).mantissa = m / 2 ^ (target m e - e).toNat := by
  rw [shifted, mantissa_shiftRight, mantissa_ofMantissaAndAccuracy]

lemma shiftToTargetExponent_eq (m : ℕ) (e : ℤ) (a : Accuracy) :
    shiftToTargetExponent binary64 m e a = (shifted m e a, e + (target m e - e).toNat) := by
  rw [shiftToTargetExponent, targetExponent_eq]
  rfl

variable {m : ℕ} {e : ℤ} {a : Accuracy} {q : ℚ}

/-- A mantissa has enough bits: bits are only dropped to reach the target exponent. -/
def Enough (m : ℕ) (e : ℤ) : Prop := 2 ^ 52 ≤ m ∨ e ≤ -1074

lemma Enough.le_target (h : Enough m e) : e ≤ target m e := by
  unfold target
  rcases h with h | h
  · have hlog : 52 ≤ m.log2 := (Nat.le_log2 (by rintro rfl; simp at h)).mpr h
    omega
  · omega

lemma Enough.add_shift (h : Enough m e) : e + ((target m e - e).toNat : ℤ) = target m e := by
  have := h.le_target
  omega

lemma mantissa_shifted_lt (m : ℕ) (e : ℤ) (a : Accuracy) : (shifted m e a).mantissa < 2 ^ 53 := by
  have hlog : m.log2 + 1 ≤ (target m e - e).toNat + 53 := by
    unfold target
    omega
  rw [mantissa_shifted, Nat.div_lt_iff_lt_mul (by positivity), ← pow_add, add_comm 53]
  exact lt_of_lt_of_le Nat.lt_log2_self (Nat.pow_le_pow_right (by norm_num) hlog)

lemma le_mantissa_shifted (h : Enough m e) (a : Accuracy) (hT : target m e ≠ -1074) :
    2 ^ 52 ≤ (shifted m e a).mantissa := by
  have hle := h.le_target
  have hlog : 52 + (target m e - e).toNat = m.log2 := by
    unfold target at hT hle ⊢
    omega
  have hm : m ≠ 0 := by
    rintro rfl
    rw [Nat.log2_zero] at hlog
    omega
  rw [mantissa_shifted, Nat.le_div_iff_mul_le (by positivity), ← pow_add, hlog]
  exact Nat.log2_self_le hm

/-- The last part of rounding: a mantissa that has been rounded up to `2 ^ 53` is shifted once. -/
def carried (r : ℕ) (T : ℤ) : UnpackedFloat :=
  let final := shiftToTargetExponent binary64 r T .exact
  if h : final.1.mantissa = 0 then .zero .positive
  else .finite .positive final.1.mantissa final.2 (Nat.pos_of_ne_zero h)

variable {T : ℤ} {r : ℕ}

lemma carried_of_lt (hpos : 0 < r) (hr : r < 2 ^ 53) (hmin : -1074 ≤ T) :
    carried r T = .finite .positive r T hpos := by
  have hlog : r.log2 < 53 := (Nat.log2_lt hpos.ne').mpr hr
  have hshift : (target r T - T).toNat = 0 := by
    unfold target
    omega
  have hfinal : shiftToTargetExponent binary64 r T .exact = (⟨r, false, false⟩, T) := by
    rw [shiftToTargetExponent_eq, shifted, hshift, Nat.cast_zero, add_zero]
    rfl
  simp only [carried, hfinal, dif_neg hpos.ne']

lemma carried_two_pow (hmin : -1074 ≤ T) :
    carried (2 ^ 53) T = .finite .positive (2 ^ 52) (T + 1) (by positivity) := by
  have hshift : (target (2 ^ 53) T - T).toNat = 1 := by
    unfold target
    rw [Nat.log2_two_pow]
    omega
  have hfinal : shiftToTargetExponent binary64 (2 ^ 53) T .exact =
      (⟨2 ^ 52, false, false⟩, T + 1) := by
    rw [shiftToTargetExponent_eq, shifted, hshift, Nat.cast_one]
    rfl
  simp only [carried, hfinal]
  rw [dif_neg (by norm_num)]

lemma stands_carried (hr : r ≤ 2 ^ 53) (hmin : -1074 ≤ T) (hT : T ≤ 970)
    (hcan : T ≠ -1074 → 2 ^ 52 ≤ r) :
    Stands (Float.Model.pack (carried r T)).unpack (r * 2 ^ T) := by
  rcases Nat.eq_zero_or_pos r with rfl | hpos
  · have hzero : carried 0 T = .zero .positive := by
      simp only [carried, shiftToTargetExponent_eq, mantissa_shifted, Nat.zero_div, dite_true]
    rw [hzero, Nat.cast_zero, zero_mul]
    exact Stands.zero
  rcases hr.lt_or_eq with hlt | rfl
  · have hcan' : 2 ^ 52 ≤ r ∨ T = -1074 := by
      by_cases hleast : T = -1074
      · exact .inr hleast
      · exact .inl (hcan hleast)
    rw [carried_of_lt hpos hlt hmin, unpack_pack hpos hlt hmin (by omega) hcan']
    exact Stands.finite hpos hlt hmin hcan'
  · have hvalue : ((2 ^ 53 : ℕ) : ℚ) * 2 ^ T = ((2 ^ 52 : ℕ) : ℚ) * 2 ^ (T + 1) := by
      rw [zpow_add_one₀ (by norm_num)]
      push_cast
      ring
    rw [carried_two_pow hmin, hvalue,
      unpack_pack _ (by norm_num) (by omega) (by omega) (.inl le_rfl)]
    exact Stands.finite _ (by norm_num) (by omega) (.inl le_rfl)

/-- **The result of rounding**, packed: the rounded mantissa at the target exponent. -/
lemma stands_roundWithAccuracy (h : Enough m e) (a : Accuracy) (hT : target m e ≤ 970) :
    Stands (Float.Model.pack (roundWithAccuracy binary64 .positive m e a)).unpack
      ((shifted m e a).roundedMantissa * 2 ^ target m e) := by
  have hround : roundWithAccuracy binary64 .positive m e a =
      carried (shifted m e a).roundedMantissa (target m e) := by
    rw [roundWithAccuracy, shiftToTargetExponent_eq, h.add_shift]
    rfl
  have hlt := mantissa_shifted_lt m e a
  have hup := (roundedMantissa_bounds (shifted m e a)).2
  rw [hround]
  refine stands_carried (by omega) (le_max_right _ _) hT fun hne => ?_
  exact (le_mantissa_shifted h a hne).trans (roundedMantissa_bounds _).1

/-- A mantissa, an exponent and what is known about the rest say where a number lies. -/
def Locates (m : ℕ) (e : ℤ) (a : Accuracy) (q : ℚ) : Prop :=
  ∃ x, q = x * 2 ^ e ∧ Fits (.ofMantissaAndAccuracy m a) x

lemma locates_exact (m : ℕ) (e : ℤ) : Locates m e .exact (m * 2 ^ e) := ⟨m, rfl, rfl⟩

lemma Locates.lower (hq : Locates m e a q) : m * 2 ^ e ≤ q := by
  obtain ⟨x, rfl, hx⟩ := hq
  have hle := hx.bounds.1
  rw [mantissa_ofMantissaAndAccuracy] at hle
  gcongr

lemma Locates.shifted (hq : Locates m e a q) (h : Enough m e) :
    ∃ x, q = x * 2 ^ target m e ∧ Fits (shifted m e a) x := by
  obtain ⟨x, rfl, hx⟩ := hq
  refine ⟨_, ?_, hx.shiftRight (target m e - e).toNat⟩
  rw [div_mul_eq_mul_div, eq_div_iff (by positivity), mul_assoc, ← zpow_natCast,
    ← zpow_add₀ (by norm_num), h.add_shift]

lemma le_of_exponent_lt {n f : ℕ} {t T : ℤ} (hn : n ≤ 2 ^ 53) (hf : 2 ^ 52 ≤ f) (h : t < T) :
    (n : ℚ) * 2 ^ t ≤ f * 2 ^ T := by
  calc (n : ℚ) * 2 ^ t ≤ 2 ^ 53 * 2 ^ t := by
        gcongr
        exact_mod_cast hn
    _ = 2 ^ 52 * 2 ^ (t + 1) := by
        rw [zpow_add_one₀ (by norm_num)]
        ring
    _ ≤ f * 2 ^ T := by
        gcongr
        · exact_mod_cast hf
        · norm_num
        · omega

/-- **A rounded mantissa gives a nearest number of the format.** -/
lemma rounds_roundedMantissa (hq : Locates m e a q) (h : Enough m e) :
    Rounds q ((shifted m e a).roundedMantissa * 2 ^ target m e) := by
  obtain ⟨x, rfl, hx⟩ := hq.shifted h
  have hlow := hx.bounds.1
  have hlead := le_mantissa_shifted h a
  generalize shifted m e a = em at *
  generalize target m e = T at *
  have hpos : (0 : ℚ) < 2 ^ T := by positivity
  have hnearest : ∀ N : ℕ, |x * 2 ^ T - em.roundedMantissa * 2 ^ T| ≤ |x * 2 ^ T - N * 2 ^ T| := by
    intro N
    rw [← sub_mul, ← sub_mul, abs_mul, abs_mul]
    exact mul_le_mul_of_nonneg_right (hx.nearest N) (abs_nonneg _)
  rintro c ⟨n, t, hn, ht, rfl⟩
  rcases le_or_gt T t with hTt | hTt
  · have hc : (n : ℚ) * 2 ^ t = ((n * 2 ^ (t - T).toNat : ℕ) : ℚ) * 2 ^ T := by
      push_cast
      rw [mul_assoc, ← zpow_natCast, ← zpow_add₀ (by norm_num)]
      congr 2
      omega
    rw [hc]
    exact hnearest _
  · have hcf := le_of_exponent_lt hn (hlead (by omega)) hTt
    have hxf : (em.mantissa : ℚ) * 2 ^ T ≤ x * 2 ^ T := by gcongr
    refine (hnearest em.mantissa).trans ?_
    rw [abs_of_nonneg (by linarith), abs_of_nonneg (by linarith)]
    linarith

lemma target_le (h : Enough m e) (hsize : (m : ℚ) * 2 ^ e ≤ 2 ^ 1000) : target m e ≤ 970 := by
  rcases Nat.eq_zero_or_pos m with rfl | hm
  · have he : e ≤ -1074 := h.resolve_left (by norm_num)
    rw [target, Nat.log2_zero]
    omega
  · have hlog : (2 : ℚ) ^ m.log2 ≤ m := by exact_mod_cast Nat.log2_self_le hm.ne'
    have hexp : (2 : ℚ) ^ ((m.log2 : ℤ) + e) ≤ 2 ^ (1000 : ℤ) := by
      rw [zpow_add₀ (by norm_num), zpow_natCast]
      refine le_trans ?_ hsize
      gcongr
    have hle := (zpow_le_zpow_iff_right₀ (by norm_num : (1 : ℚ) < 2)).mp hexp
    unfold target
    omega

/-- The result of an operation, once it is packed, is a nearest number of the format. -/
def PacksTo (u : UnpackedFloat) (q : ℚ) : Prop :=
  ∃ r, Stands (Float.Model.pack u).unpack r ∧ Rounds q r

/-- **Rounding and packing.** -/
theorem roundWithAccuracy_spec (hq : Locates m e a q) (h : Enough m e) (hsize : q ≤ 2 ^ 1000) :
    PacksTo (roundWithAccuracy binary64 .positive m e a) q :=
  ⟨_, stands_roundWithAccuracy h a (target_le h (hq.lower.trans hsize)),
    rounds_roundedMantissa hq h⟩

lemma shiftLeft_value (m k : ℕ) (e : ℤ) : ((m <<< k : ℕ) : ℚ) * 2 ^ (e - k) = m * 2 ^ e := by
  rw [Nat.shiftLeft_eq, Nat.cast_mul, mul_assoc, Nat.cast_pow, Nat.cast_ofNat, ← zpow_natCast,
    ← zpow_add₀ (by norm_num)]
  congr 2
  omega

lemma log2_shiftLeft (hm : 0 < m) (k : ℕ) : (m <<< k).log2 = m.log2 + k := by
  rw [Nat.shiftLeft_eq, Nat.log2_eq_iff (by positivity), pow_add, pow_succ, pow_add, mul_right_comm]
  refine ⟨Nat.mul_le_mul_right _ (Nat.log2_self_le hm.ne'), ?_⟩
  refine Nat.mul_lt_mul_of_pos_right ?_ (by positivity)
  rw [← pow_succ]
  exact Nat.lt_log2_self

/-- **Rounding a number with any mantissa.** -/
theorem round_spec (hm : 0 < m) (hsize : (m : ℚ) * 2 ^ e ≤ 2 ^ 1000) :
    PacksTo (round binary64 .positive m e) (m * 2 ^ e) := by
  have hvalue := shiftLeft_value m (e - target m e).toNat e
  have henough : Enough (m <<< (e - target m e).toNat) (e - (e - target m e).toNat) := by
    rw [Enough, ← Nat.le_log2 (by rw [Nat.shiftLeft_eq]; positivity), log2_shiftLeft hm]
    unfold target
    omega
  have hround : round binary64 .positive m e = roundWithAccuracy binary64 .positive
      (m <<< (e - target m e).toNat) (e - (e - target m e).toNat) .exact := by
    rw [UnpackedFloat.round, targetExponent_eq]
    rfl
  have hlocates := locates_exact (m <<< (e - target m e).toNat) (e - (e - target m e).toNat)
  rw [hvalue] at hlocates
  rw [hround]
  exact roundWithAccuracy_spec hlocates henough hsize

end Rounding

/-! ## Operations -/

section Operations

variable {u v : UnpackedFloat} {p q : ℚ}

lemma rounds_self (q : ℚ) : Rounds q q := by
  intro c _
  rw [sub_self, abs_zero]
  exact abs_nonneg _

lemma Stands.unpack_pack (hu : Stands u q) (hsize : q ≤ 2 ^ 1000) :
    Stands (Float.Model.pack u).unpack q := by
  cases hu with
  | zero => exact Stands.zero
  | @finite m e hpos hm he hcan =>
    have hT := target_le (hcan.imp_right le_of_eq) hsize
    have hexp : e ≤ 970 := le_trans (Enough.le_target (hcan.imp_right le_of_eq)) hT
    rw [Binary64.unpack_pack hpos hm he (by omega) hcan]
    exact Stands.finite hpos hm he hcan

lemma normalize_natCast (hm : 0 < m) (e : ℤ) (s : Sign) :
    normalize binary64 (m : ℤ) e s = round binary64 .positive m e := by
  have hcompare : compare (m : ℤ) 0 = .gt := Int.compare_eq_gt.mpr (by omega)
  rw [UnpackedFloat.normalize, hcompare, Int.toNat_natCast]

lemma Stands.add (hu : Stands u p) (hv : Stands v q) (hsize : p + q ≤ 2 ^ 1000) :
    PacksTo (UnpackedFloat.add binary64 u v) (p + q) := by
  cases hu with
  | zero =>
    rw [zero_add] at hsize ⊢
    have hadd : UnpackedFloat.add binary64 (.zero .positive) v = v := by
      cases hv <;> rfl
    rw [hadd]
    exact ⟨q, hv.unpack_pack hsize, rounds_self q⟩
  | @finite m e hpos hm he hcan =>
    cases hv with
    | zero =>
      rw [add_zero] at hsize ⊢
      exact ⟨_, (Stands.finite hpos hm he hcan).unpack_pack hsize, rounds_self _⟩
    | @finite m' e' hpos' hm' he' hcan' =>
      -- the sum of the mantissas at the smaller exponent
      have hvalue := shiftLeft_value m (e - min e e').toNat e
      have hvalue' := shiftLeft_value m' (e' - min e e').toNat e'
      have hexp : e - ((e - min e e').toNat : ℤ) = min e e' := by omega
      have hexp' : e' - ((e' - min e e').toNat : ℤ) = min e e' := by omega
      have hadd : UnpackedFloat.add binary64 (.finite .positive m e hpos)
          (.finite .positive m' e' hpos') = normalize binary64
            ((m <<< (e - min e e').toNat + m' <<< (e' - min e e').toNat : ℕ) : ℤ)
            (min e e') .positive := by
        rw [Nat.cast_add]
        rfl
      have hsum : (m : ℚ) * 2 ^ e + m' * 2 ^ e' =
          ((m <<< (e - min e e').toNat + m' <<< (e' - min e e').toNat : ℕ) : ℚ) * 2 ^ min e e' := by
        rw [hexp] at hvalue
        rw [hexp'] at hvalue'
        rw [Nat.cast_add, add_mul, hvalue, hvalue']
      have hmantissa : 0 < m <<< (e - min e e').toNat + m' <<< (e' - min e e').toNat := by
        rw [Nat.shiftLeft_eq]
        positivity
      rw [hsum] at hsize ⊢
      rw [hadd, normalize_natCast hmantissa]
      exact round_spec hmantissa hsize

lemma Stands.mul (hu : Stands u p) (hv : Stands v q) (hsize : p * q ≤ 2 ^ 1000) :
    PacksTo (UnpackedFloat.mul binary64 u v) (p * q) := by
  cases hu with
  | zero =>
    have hmul : UnpackedFloat.mul binary64 (.zero .positive) v = .zero .positive := by
      cases hv <;> rfl
    rw [zero_mul, hmul]
    exact ⟨0, Stands.zero, rounds_self 0⟩
  | @finite m e hpos hm he hcan =>
    cases hv with
    | zero =>
      have hmul : UnpackedFloat.mul binary64 (.finite .positive m e hpos)
          (.zero .positive) = .zero .positive := rfl
      rw [mul_zero, hmul]
      exact ⟨0, Stands.zero, rounds_self 0⟩
    | @finite m' e' hpos' hm' he' hcan' =>
      have hvalue : (m : ℚ) * 2 ^ e * (m' * 2 ^ e') = ((m * m' : ℕ) : ℚ) * 2 ^ (e + e') := by
        rw [zpow_add₀ (by norm_num), Nat.cast_mul]
        ring
      have henough : Enough (m * m') (e + e') := by
        rcases hcan with hbits | hleast
        · exact .inl (hbits.trans (Nat.le_mul_of_pos_right m hpos'))
        rcases hcan' with hbits' | hleast'
        · exact .inl (hbits'.trans (Nat.le_mul_of_pos_left m' hpos))
        · exact .inr (by omega)
      rw [hvalue] at hsize ⊢
      exact roundWithAccuracy_spec (locates_exact _ _) henough hsize

/-- Where a quotient of mantissas lies: the remainder is compared with half of the divisor. -/
lemma locates_div {M : ℕ} (hm : 0 < m) (e : ℤ) :
    Locates (M / m) e (accuracyOfFraction (M % m) m) ((M : ℚ) / m * 2 ^ e) := by
  have hpos : (0 : ℚ) < m := by exact_mod_cast hm
  have hsplit : (M : ℚ) / m = (M / m : ℕ) + (M % m : ℕ) / m := by
    rw [eq_comm, add_div' _ _ _ hpos.ne', div_left_inj' hpos.ne']
    exact_mod_cast Nat.div_add_mod' M m
  have hrest : ((M % m : ℕ) : ℚ) / m < 1 := by
    rw [div_lt_one hpos]
    exact_mod_cast Nat.mod_lt M hm
  refine ⟨_, rfl, ?_⟩
  rw [hsplit]
  generalize M / m = f
  generalize M % m = n at hrest ⊢
  by_cases hzero : n = 0
  · rw [accuracyOfFraction, if_pos hzero, hzero, Nat.cast_zero, zero_div, add_zero]
    rfl
  have hn : (0 : ℚ) < (n : ℚ) / m := div_pos (by exact_mod_cast Nat.pos_of_ne_zero hzero) hpos
  rw [accuracyOfFraction, if_neg hzero]
  rcases lt_trichotomy (2 * n) m with hlt | heq | hgt
  · have hhalf : (n : ℚ) / m < 1 / 2 := by
      rw [div_lt_div_iff₀ hpos (by norm_num)]
      exact_mod_cast (by omega : n * 2 < 1 * m)
    rw [compare_lt_iff_lt.mpr hlt]
    exact ⟨by linarith, by linarith⟩
  · have hhalf : (n : ℚ) / m = 1 / 2 := by
      rw [div_eq_div_iff hpos.ne' (by norm_num)]
      exact_mod_cast (by omega : n * 2 = 1 * m)
    rw [compare_eq_iff_eq.mpr heq, hhalf]
    rfl
  · have hhalf : 1 / 2 < (n : ℚ) / m := by
      rw [div_lt_div_iff₀ (by norm_num) hpos]
      exact_mod_cast (by omega : 1 * m < n * 2)
    rw [compare_gt_iff_gt.mpr hgt]
    exact ⟨by linarith, by linarith⟩

lemma le_div_of_log2 {M : ℕ} (hm : 0 < m) (hM : M ≠ 0) (hlog : m.log2 + 53 ≤ M.log2) :
    2 ^ 52 ≤ M / m := by
  rw [Nat.le_div_iff_mul_le hm]
  calc 2 ^ 52 * m ≤ 2 ^ 52 * 2 ^ (m.log2 + 1) := Nat.mul_le_mul_left _ Nat.lt_log2_self.le
    _ = 2 ^ (m.log2 + 53) := by ring
    _ ≤ M := (Nat.le_log2 hM).mp hlog

lemma Stands.div (hu : Stands u p) (hv : Stands v q) (hq : q ≠ 0) (hsize : p / q ≤ 2 ^ 1000) :
    PacksTo (UnpackedFloat.div binary64 u v) (p / q) := by
  cases hv with
  | zero => exact absurd rfl hq
  | @finite m' e' hpos' hm' he' hcan' =>
    cases hu with
    | zero =>
      have hdiv : UnpackedFloat.div binary64 (.zero .positive)
          (.finite .positive m' e' hpos') = .zero .positive := rfl
      rw [zero_div, hdiv]
      exact ⟨0, Stands.zero, rounds_self 0⟩
    | @finite m e hpos hm he hcan =>
      -- `E` is the exponent of the quotient of the mantissas
      obtain ⟨E, hE⟩ : ∃ E, E = min (e - e')
          (binary64.targetExponent (totalExponent m e - totalExponent m' e')) := ⟨_, rfl⟩
      have hdiv : UnpackedFloat.div binary64 (.finite .positive m e hpos)
          (.finite .positive m' e' hpos') = roundWithAccuracy binary64 .positive
            ((m <<< (e - e' - E).toNat) / m') E
            (accuracyOfFraction ((m <<< (e - e' - E).toNat) % m') m') := by
        rw [hE]
        rfl
      have hbits : binary64.mantissaBits = 53 := rfl
      have hmin : binary64.minExponent = -1074 := rfl
      rw [Format.targetExponent, hbits, hmin, totalExponent, totalExponent] at hE
      have hvalue : (m : ℚ) * 2 ^ e / (m' * 2 ^ e') =
          ((m <<< (e - e' - E).toNat : ℕ) : ℚ) / m' * 2 ^ E := by
        have hshift := shiftLeft_value m (e - e' - E).toNat (e - e')
        have hexp : e - e' - ((e - e' - E).toNat : ℤ) = E := by omega
        rw [hexp] at hshift
        rw [mul_div_mul_comm, ← zpow_sub₀ (by norm_num), div_mul_eq_mul_div, ← hshift,
          div_mul_eq_mul_div]
      have henough : Enough ((m <<< (e - e' - E).toNat) / m') E := by
        by_cases hleast : E ≤ -1074
        · exact .inr hleast
        · left
          refine le_div_of_log2 hpos' (by rw [Nat.shiftLeft_eq]; positivity) ?_
          rw [log2_shiftLeft hpos]
          omega
      rw [hvalue] at hsize ⊢
      rw [hdiv]
      exact roundWithAccuracy_spec (locates_div hpos' E) henough hsize

lemma lt_of_exponent_lt {m' : ℕ} {e e' : ℤ} (hm : m < 2 ^ 53) (hm' : 2 ^ 52 ≤ m') (h : e < e') :
    (m : ℚ) * 2 ^ e < m' * 2 ^ e' := by
  calc (m : ℚ) * 2 ^ e < ((2 ^ 53 : ℕ) : ℚ) * 2 ^ e := by gcongr
    _ ≤ m' * 2 ^ e' := le_of_exponent_lt le_rfl hm' h

/-- **Numbers of the format compare by their exponents first.** -/
lemma Stands.compare_eq (hu : Stands u p) (hv : Stands v q) : u.compare v = some (compare p q) := by
  cases hu with
  | zero =>
    cases hv with
    | zero =>
      rw [compare_eq_iff_eq.mpr rfl]
      rfl
    | @finite m' e' hpos' hm' he' hcan' =>
      rw [compare_lt_iff_lt.mpr (by positivity)]
      rfl
  | @finite m e hpos hm he hcan =>
    cases hv with
    | zero =>
      rw [compare_gt_iff_gt.mpr (by positivity)]
      rfl
    | @finite m' e' hpos' hm' he' hcan' =>
      show some ((compare e e').then (compare m m')) = _
      rcases lt_trichotomy e e' with hlt | rfl | hgt
      · have hless := lt_of_exponent_lt hm (hcan'.resolve_right (by omega)) hlt
        rw [compare_lt_iff_lt.mpr hlt, compare_lt_iff_lt.mpr hless]
        rfl
      · have hscale : (0 : ℚ) < 2 ^ e := by positivity
        have hmantissas : compare ((m : ℚ) * 2 ^ e) (m' * 2 ^ e) = compare m m' := by
          rcases lt_trichotomy m m' with hlt | rfl | hgt
          · rw [compare_lt_iff_lt.mpr hlt, compare_lt_iff_lt]
            gcongr
          · rw [compare_eq_iff_eq.mpr rfl, compare_eq_iff_eq.mpr rfl]
          · rw [compare_gt_iff_gt.mpr hgt, compare_gt_iff_gt]
            gcongr
        rw [compare_eq_iff_eq.mpr rfl, hmantissas]
        rfl
      · have hless := lt_of_exponent_lt hm' (hcan.resolve_right (by omega)) hgt
        rw [compare_gt_iff_gt.mpr hgt, compare_gt_iff_gt.mpr hless]
        rfl

end Operations

/-! ## Floating-point numbers -/

section Floats

variable {x y : Float} {p q : ℚ}

lemma le_size (h : q ≤ 2 ^ 64) : q ≤ 2 ^ 1000 :=
  h.trans (pow_le_pow_right₀ (by norm_num) (by norm_num))

/-- **The sum of two numbers is rounded.** -/
theorem Denotes.add (hx : Denotes x p) (hy : Denotes y q) (hsize : p + q ≤ 2 ^ 1000) :
    ∃ r, Denotes (x + y) r ∧ Rounds (p + q) r :=
  Stands.add hx hy hsize

/-- **The product of two numbers is rounded.** -/
theorem Denotes.mul (hx : Denotes x p) (hy : Denotes y q) (hsize : p * q ≤ 2 ^ 1000) :
    ∃ r, Denotes (x * y) r ∧ Rounds (p * q) r :=
  Stands.mul hx hy hsize

/-- **The quotient of two numbers is rounded.** -/
theorem Denotes.div (hx : Denotes x p) (hy : Denotes y q) (hq : q ≠ 0)
    (hsize : p / q ≤ 2 ^ 1000) : ∃ r, Denotes (x / y) r ∧ Rounds (p / q) r :=
  Stands.div hx hy hq hsize

/-- **Numbers compare as the exact numbers do.** -/
theorem Denotes.lt_iff (hx : Denotes x p) (hy : Denotes y q) : x < y ↔ p < q := by
  have hlt : x < y ↔ x.toModel.unpack.lt y.toModel.unpack = true := decide_eq_true_iff
  rw [hlt, UnpackedFloat.lt, Stands.compare_eq hx hy, beq_iff_eq, Option.some.injEq,
    compare_lt_iff_lt]

/-- **Comparisons are exact.** -/
theorem Denotes.le_iff (hx : Denotes x p) (hy : Denotes y q) : x ≤ y ↔ p ≤ q := by
  have hle : x ≤ y ↔ x.toModel.unpack.le y.toModel.unpack = true := decide_eq_true_iff
  rw [hle, UnpackedFloat.le, Stands.compare_eq hx hy, Option.any_some, ← compare_le_iff_le,
    Ordering.isLE_iff_ne_gt]

protected lemma Denotes.min (hx : Denotes x p) (hy : Denotes y q) :
    Denotes (min x y) (min p q) := by
  by_cases hle : p ≤ q
  · have hmin : min x y = x := if_pos ((hx.le_iff hy).mpr hle)
    rwa [hmin, min_eq_left hle]
  · have hmin : min x y = y := if_neg (mt (hx.le_iff hy).mp hle)
    rwa [hmin, min_eq_right (le_of_not_ge hle)]

protected lemma Denotes.max (hx : Denotes x p) (hy : Denotes y q) :
    Denotes (max x y) (max p q) := by
  by_cases hle : p ≤ q
  · have hmax : max x y = y := if_pos ((hx.le_iff hy).mpr hle)
    rwa [hmax, max_eq_right hle]
  · have hmax : max x y = x := if_neg (mt (hx.le_iff hy).mp hle)
    rwa [hmax, max_eq_left (le_of_not_ge hle)]

/-- **Integers are rounded.** -/
theorem exists_denotes_toFloat (n : UInt64) : ∃ r, Denotes n.toFloat r ∧ Rounds n.toNat r := by
  show PacksTo (normalize binary64 (n.toNat : ℤ) 0 .positive) n.toNat
  rcases Nat.eq_zero_or_pos n.toNat with hzero | hpos
  · rw [hzero, Nat.cast_zero]
    exact ⟨0, Stands.zero, rounds_self 0⟩
  · have hsize : (n.toNat : ℚ) * 2 ^ (0 : ℤ) ≤ 2 ^ 1000 := by
      rw [zpow_zero, mul_one]
      exact le_size (by exact_mod_cast n.toNat_lt.le)
    have hround := round_spec hpos hsize
    rwa [zpow_zero, mul_one, ← normalize_natCast hpos] at hround

/-- **Integers up to `2 ^ 53` are exact.** -/
theorem denotes_toFloat {n : UInt64} (hn : n.toNat ≤ 2 ^ 53) : Denotes n.toFloat n.toNat := by
  obtain ⟨r, hr, hrounds⟩ := exists_denotes_toFloat n
  rwa [hrounds.eq_of_representable (representable_natCast hn)] at hr

lemma roundToInt_positive (m : ℕ) (e : ℤ) :
    roundToInt .positive m e = (⌊(m : ℚ) * 2 ^ e⌋₊ : ℤ) := by
  have hround : roundToInt .positive m e = ((m * 2 ^ e.toNat / 2 ^ (-e).toNat : ℕ) : ℤ) := by
    have hshift : (0 - (e - (e.toNat : ℤ))).toNat = (-e).toNat := by omega
    simp only [roundToInt, decreaseExponent, shiftToExponent, Int.sub_zero, hshift,
      mantissa_shiftRight, Sign.apply, ExtendedMantissa.ofMantissaAndAccuracy, Nat.shiftLeft_eq]
  have hvalue : (m : ℚ) * 2 ^ e = ((m * 2 ^ e.toNat : ℕ) : ℚ) / ((2 ^ (-e).toNat : ℕ) : ℚ) := by
    push_cast
    rw [mul_div_assoc, ← zpow_natCast, ← zpow_natCast, ← zpow_sub₀ (by norm_num)]
    congr 2
    omega
  rw [hround, hvalue, Nat.floor_div_eq_div]

/-- **The conversion to an integer drops the fraction**, where the integer fits. -/
theorem Denotes.toUInt64 (hx : Denotes x q) (hfits : q < 2 ^ 64) : x.toUInt64.toNat = ⌊q⌋₊ := by
  have hclamp : ∀ n : ℕ, n < 2 ^ 64 → (UInt64.ofNatClamp n).toNat = n := fun n hn => by
    rw [UInt64.ofNatClamp, dif_pos (show n < UInt64.size from hn)]
    rfl
  show (UInt64.ofNatClamp (x.toModel.unpack.toInt 0 (UInt64.size - 1)).toNat).toNat = _
  unfold Denotes at hx
  generalize x.toModel.unpack = u at hx
  have hint : u.toInt 0 (UInt64.size - 1) = (⌊q⌋₊ : ℤ) := by
    cases hx with
    | zero => simp [UnpackedFloat.toInt]
    | @finite m e => exact roundToInt_positive m e
  rw [hint, Int.toNat_natCast, hclamp]
  rw [Nat.floor_lt (hx.nonneg)]
  exact_mod_cast hfits

end Floats

end Binary64
