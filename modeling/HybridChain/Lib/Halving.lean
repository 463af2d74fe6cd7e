import Mathlib.Algebra.BigOperators.Group.Finset.Basic
import Mathlib.Algebra.Order.Field.Basic
import Mathlib.Algebra.BigOperators.Ring.Finset
import Mathlib.Tactic

/-!
# Rewards that are halved at intervals

A reward that is halved after every interval of some length.

## Main definitions

* `subsidy`

## Main results

* `sum_le`: all sums are bounded by twice the first interval
-/

namespace Halving

open Finset

variable {K : Type} [Field K]

/-- The reward of step `n`, if there have been `i` halvings before step 0. -/
def subsidy (initial : K) (interval i n : ℕ) : K := initial / 2 ^ (i + n / interval)

variable {initial : K} {interval i : ℕ}

lemma sum_of_le {m : ℕ} (hm : m ≤ interval) :
    ∑ n ∈ range m, subsidy initial interval i n = m * (initial / 2 ^ i) := by
  have hsame : ∀ n ∈ range m, subsidy initial interval i n = initial / 2 ^ i := by
    intro n hn
    have hlt : n < interval := (mem_range.mp hn).trans_le hm
    rw [subsidy, Nat.div_eq_of_lt hlt, add_zero]
  rw [sum_congr rfl hsame, sum_const, card_range, nsmul_eq_mul]

lemma sum_add (hpos : 0 < interval) (k : ℕ) :
    ∑ n ∈ range (interval + k), subsidy initial interval i n =
      interval * (initial / 2 ^ i) + ∑ n ∈ range k, subsidy initial interval (i + 1) n := by
  have hrest : ∀ n ∈ range k,
      subsidy initial interval i (interval + n) = subsidy initial interval (i + 1) n := by
    intro n _
    rw [subsidy, subsidy, Nat.add_div_left n hpos, add_comm (n / interval), add_assoc]
  rw [sum_range_add, sum_of_le le_rfl, sum_congr rfl hrest]

/-- **All sums are bounded** by twice the sum over the first interval.

**Proof sketch.** Induction: the first interval gives half of the bound, and the rest is bounded
with the halved reward. -/
theorem sum_le [LinearOrder K] [IsStrictOrderedRing K] (hinitial : 0 ≤ initial)
    (hpos : 0 < interval) (N i : ℕ) :
    ∑ n ∈ range N, subsidy initial interval i n ≤ 2 * (interval * (initial / 2 ^ i)) := by
  induction N using Nat.strong_induction_on generalizing i with
  | h N ih =>
    have hreward : 0 ≤ initial / 2 ^ i := by positivity
    rcases le_or_gt N interval with hle | hgt
    · have hcast : (N : K) ≤ interval := by exact_mod_cast hle
      rw [sum_of_le hle]
      nlinarith
    · obtain ⟨k, rfl⟩ := Nat.exists_eq_add_of_lt hgt
      have hrest := ih (k + 1) (by omega) (i + 1)
      have hhalf : 2 * (interval * (initial / 2 ^ (i + 1))) = interval * (initial / 2 ^ i) := by
        rw [pow_succ]
        field_simp
      rw [add_assoc, sum_add hpos]
      linarith

end Halving
