import HybridChain.ValidatorSelection

/-!
# The shares of the validators in a selection

`weightedSelection` of `validator_selection.go` draws a target below the total weight and walks
until a cumulative weight is at least the target. So the first validator, of weight `w`, has the
targets in `[0, w]`, a later one of weight `w'` those in `(s, s + w']`, and the last one lacks a
target.

## Main definitions

* `selectedAt`, `targetCount`

## Main results

* `selection_proportional_iff`: when shares are weights
-/

namespace HybridChain

namespace StakePool

open CumulativeWalk (pick share)

variable (sp : StakePool) (now : ℤ) (validators : List ValidatorRecord)

/-- The validator at which the loop of `weightedSelection` stops for a target. -/
def selectedAt (target : UInt64) : Option ValidatorRecord :=
  pick (sp.calculateWeight now) target validators

/-- The weight of a validator as a natural number. -/
def natWeight (v : ValidatorRecord) : ℕ := (sp.calculateWeight now v).toNat

def totalWeight : ℕ := (validators.map (sp.natWeight now)).sum

/-- The number of targets below the total weight at which a validator is selected. -/
def targetCount (v : ValidatorRecord) : ℕ :=
  ((Finset.range (sp.totalWeight now validators)).filter fun target =>
    sp.selectedAt now validators (UInt64.ofNat target) = some v).card

variable {sp now validators}

/-! ## Weights as natural numbers -/

section Fits
variable {target : ℕ} (hfits : sp.totalWeight now validators < 2 ^ 64)
include hfits

lemma selectedAt_ofNat (htarget : target < 2 ^ 64) :
    sp.selectedAt now validators (UInt64.ofNat target) =
      pick (sp.natWeight now) target validators := by
  have hzero : (0 : UInt64).toNat + sp.totalWeight now validators < 2 ^ 64 := by
    rwa [UInt64.toNat_zero, zero_add]
  have hwalk : sp.selectedAt now validators (UInt64.ofNat target) = _ :=
    CumulativeWalk.walk_toNat 0 hzero
  rw [UInt64.toNat_ofNat_of_lt' htarget, UInt64.toNat_zero] at hwalk
  exact hwalk

lemma targetCount_eq_share (v : ValidatorRecord) :
    sp.targetCount now validators v = share (sp.natWeight now) validators v := by
  unfold targetCount share
  congr 1
  refine Finset.filter_congr fun target htarget => ?_
  rw [selectedAt_ofNat hfits (lt_trans (Finset.mem_range.mp htarget) hfits)]

/-! ## Selections -/

lemma toNat_sum_calculateWeight : (validators.map (sp.calculateWeight now)).sum.toNat =
    sp.totalWeight now validators := CumulativeWalk.toNat_sum_map hfits

lemma mod_sum_eq_ofNat (drawn : UInt64) (hpos : 0 < sp.totalWeight now validators) :
    drawn % (validators.map (sp.calculateWeight now)).sum =
      UInt64.ofNat (drawn.toNat % sp.totalWeight now validators) := by
  apply UInt64.toNat.inj
  rw [UInt64.toNat_mod, toNat_sum_calculateWeight hfits,
    UInt64.toNat_ofNat_of_lt' (lt_trans (Nat.mod_lt _ hpos) hfits)]

/-- **A selection is the one at the drawn target**, if the total weight is positive and fits. -/
lemma weightedSelection_eq (C : Crypto) (seed : List UInt8)
    (hpos : 0 < sp.totalWeight now validators) :
    (sp.weightedSelection C validators seed now).map (Option.map Prod.fst) =
      .ok (sp.selectedAt now validators (UInt64.ofNat
        ((generateRandomUint64 C seed).toNat % sp.totalWeight now validators))) := by
  have hne : (validators.map (sp.calculateWeight now)).sum ≠ 0 := by
    intro hzero
    have hsum := toNat_sum_calculateWeight hfits
    rw [hzero, UInt64.toNat_zero] at hsum
    omega
  rw [← mod_sum_eq_ofNat hfits _ hpos]
  simp only [weightedSelection, if_neg hne, Except.map, selectedAt, pick, Option.map_map]
  rfl

lemma exists_selectedAt (htarget : target < sp.totalWeight now validators) :
    ∃ v ∈ validators, sp.selectedAt now validators (UInt64.ofNat target) = some v := by
  rw [selectedAt_ofNat hfits (lt_trans htarget hfits)]
  refine CumulativeWalk.exists_pick ?_ (le_of_lt htarget)
  rintro rfl
  exact Nat.not_lt_zero _ htarget

end Fits

lemma selectedAt_ne_of_targetCount_eq_zero {v : ValidatorRecord} {target : ℕ}
    (h : sp.targetCount now validators v = 0)
    (htarget : target < sp.totalWeight now validators) :
    sp.selectedAt now validators (UInt64.ofNat target) ≠ some v := by
  rw [targetCount, Finset.card_eq_zero, Finset.filter_eq_empty_iff] at h
  exact h (Finset.mem_range.mpr htarget)

/-- **When the selection is proportional to the weights.** For distinct validators whose total
weight is positive and fits into 64 bits, `weightedSelection` returns the validator at the drawn
target; and every validator is selected at as many targets as its weight exactly if the first one
has all the weight.

**Proof sketch.** The first validator owns the target zero besides the targets up to its weight, so
its share is its weight only if the others leave no target above. -/
theorem selection_proportional_iff (C : Crypto) (sp : StakePool) (now : ℤ)
    (validators : List ValidatorRecord) (hdistinct : (validators.map ValidatorRecord.address).Nodup)
    (hpos : 0 < sp.totalWeight now validators) (hfits : sp.totalWeight now validators < 2 ^ 64) :
    (∀ seed, (sp.weightedSelection C validators seed now).map (Option.map Prod.fst) =
      .ok (sp.selectedAt now validators (UInt64.ofNat
        ((generateRandomUint64 C seed).toNat % sp.totalWeight now validators)))) ∧
    (((∀ v ∈ validators, sp.targetCount now validators v = sp.natWeight now v) ∧
      (∀ v ∈ validators, sp.natWeight now v = 0 → ∀ target < sp.totalWeight now validators,
        sp.selectedAt now validators (UInt64.ofNat target) ≠ some v) ∧
      (∀ target < sp.totalWeight now validators, ∃ v ∈ validators,
        sp.selectedAt now validators (UInt64.ofNat target) = some v)) ↔
      validators.head?.map (sp.natWeight now) = some (sp.totalWeight now validators)) := by
  refine ⟨fun seed => weightedSelection_eq hfits C seed hpos, ?_⟩
  have hnodup : validators.Nodup := List.Nodup.of_map _ hdistinct
  have hshares : (∀ v ∈ validators, sp.targetCount now validators v = sp.natWeight now v) ↔
      validators.head?.map (sp.natWeight now) = some (sp.totalWeight now validators) := by
    cases validators with
    | nil => exact absurd hpos (Nat.lt_irrefl 0)
    | cons v rest =>
      simp only [targetCount_eq_share hfits, List.head?_cons, Option.map_some, Option.some.injEq]
      exact CumulativeWalk.forall_share_eq_iff hnodup
  rw [← hshares]
  constructor
  · intro h
    exact h.1
  · intro h
    refine ⟨h, fun v hv hzero target htarget => ?_, fun target => exists_selectedAt hfits⟩
    exact selectedAt_ne_of_targetCount_eq_zero ((h v hv).trans hzero) htarget

def validatorAt (addr : String) : ValidatorRecord := { address := addr }

/-- A staker before someone without a stake. -/
theorem selection_proportional_first :
    let validators := [validatorAt "alice", validatorAt "carol"]
    twoStakers.totalWeight 0 validators = 100 ∧
      twoStakers.targetCount 0 validators (validatorAt "alice") = 100 ∧
      twoStakers.targetCount 0 validators (validatorAt "carol") = 0 := by
  intro validators
  have halice : twoStakers.natWeight 0 (validatorAt "alice") = 100 := by decide +kernel
  have hcarol : twoStakers.natWeight 0 (validatorAt "carol") = 0 := by decide +kernel
  have htotal : twoStakers.totalWeight 0 validators = 100 := by decide +kernel
  obtain ⟨-, h⟩ := selection_proportional_iff Crypto.sample twoStakers 0 validators
    (by decide) (by rw [htotal]; decide) (by rw [htotal]; decide)
  have hhead : validators.head?.map (twoStakers.natWeight 0) =
      some (twoStakers.totalWeight 0 validators) := by
    rw [htotal, ← halice]
    rfl
  have hshares := (h.mpr hhead).1
  refine ⟨htotal, ?_, ?_⟩
  · exact (hshares (validatorAt "alice") List.mem_cons_self).trans halice
  · exact (hshares (validatorAt "carol") (List.mem_cons_of_mem _ List.mem_cons_self)).trans hcarol

/-- **The first one has a target too many**: of two stakers of weight 100 the first is selected at
101 of the 200 targets and the second at 99, and someone without a stake who stands first in the
list is selected at the target zero. -/
theorem selection_not_proportional :
    let alice := validatorAt "alice"
    let bob := validatorAt "bob"
    let carol := validatorAt "carol"
    (twoStakers.totalWeight 0 [alice, bob] = 200 ∧
      twoStakers.natWeight 0 alice = 100 ∧ twoStakers.natWeight 0 bob = 100 ∧
      twoStakers.targetCount 0 [alice, bob] alice = 101 ∧
      twoStakers.targetCount 0 [alice, bob] bob = 99) ∧
    (twoStakers.totalWeight 0 [carol, alice] = 100 ∧ twoStakers.natWeight 0 carol = 0 ∧
      twoStakers.selectedAt 0 [carol, alice] 0 = some carol) := by
  decide +kernel

end StakePool

end HybridChain
