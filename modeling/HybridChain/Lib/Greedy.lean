import HybridChain.Lib.Run
import Mathlib.Algebra.Order.BigOperators.Group.List
import Mathlib.Data.List.Sort
import Mathlib.Data.UInt

/-!
# Taking elements until a target or a limit is reached

Elements of a list are taken one after another, and their weights added up.

## Main definitions

* `takeUntil`: until the sum reaches a target
* `takeWithin`: as long as it does not pass a limit, where each element taken changes a state that
  may rule out later ones

## Main results

* `target_le_iff`, `sum_dropLast_lt`: the target is reached if it can be, and not before the last
  element
* `along_takeWithin`, `sum_takeWithin_le`: each element is allowed where it is taken, within the
  limit
-/

namespace Greedy

open List

/-! ## Until a target -/

section Until

variable {α M : Type} [AddCommMonoid M] [LinearOrder M] (w : α → M) (target : M)

/-- The elements taken from a list when the weights taken before add up to `acc`. -/
def takeUntil : List α → M → List α
  | [], _ => []
  | a :: as, acc => if target ≤ acc + w a then [a] else a :: takeUntil as (acc + w a)

lemma exists_eq_takeUntil_append (as : List α) (acc : M) :
    ∃ rest, as = takeUntil w target as acc ++ rest ∧
      (rest = [] ∨ target ≤ acc + ((takeUntil w target as acc).map w).sum) := by
  induction as generalizing acc with
  | nil => exact ⟨[], rfl, .inl rfl⟩
  | cons a as ih =>
    by_cases hreach : target ≤ acc + w a
    · refine ⟨as, ?_, .inr ?_⟩
      · rw [takeUntil, if_pos hreach, singleton_append]
      · simp [takeUntil, hreach]
    · obtain ⟨rest, hsplit, hrest⟩ := ih (acc + w a)
      refine ⟨rest, ?_, hrest.imp_right fun h => ?_⟩
      · rw [takeUntil, if_neg hreach, cons_append, ← hsplit]
      · simpa [takeUntil, hreach, add_assoc] using h

lemma takeUntil_sublist (as : List α) (acc : M) : (takeUntil w target as acc).Sublist as := by
  obtain ⟨rest, hsplit, -⟩ := exists_eq_takeUntil_append w target as acc
  have hfront := sublist_append_left (takeUntil w target as acc) rest
  rwa [← hsplit] at hfront

/-- **Without the last element the target is missed.** -/
lemma sum_dropLast_lt {acc : M} (hacc : acc < target) (as : List α) :
    acc + ((takeUntil w target as acc).dropLast.map w).sum < target := by
  induction as generalizing acc with
  | nil => simpa [takeUntil] using hacc
  | cons a as ih =>
    by_cases hreach : target ≤ acc + w a
    · simpa [takeUntil, hreach] using hacc
    · rw [takeUntil, if_neg hreach]
      have hrest := ih (not_le.mp hreach)
      cases htaken : takeUntil w target as (acc + w a) with
      | nil => simpa using hacc
      | cons b bs =>
        rw [htaken] at hrest
        simpa [add_assoc] using hrest

variable [IsOrderedAddMonoid M]

lemma sum_le_of_sublist {as bs : List α} (h : bs.Sublist as) (hw : ∀ a ∈ as, 0 ≤ w a) :
    (bs.map w).sum ≤ (as.map w).sum :=
  (h.map w).sum_le_sum fun x hx => by
    obtain ⟨a, ha, rfl⟩ := mem_map.mp hx
    exact hw a ha

/-- **When the target is reached**: if the weights are nonnegative, exactly if the whole list
reaches it. -/
lemma target_le_iff {as : List α} (hw : ∀ a ∈ as, 0 ≤ w a) (acc : M) :
    target ≤ acc + ((takeUntil w target as acc).map w).sum ↔ target ≤ acc + (as.map w).sum := by
  constructor
  · intro h
    have hle := sum_le_of_sublist w (takeUntil_sublist w target as acc) hw
    exact h.trans (by gcongr)
  · intro h
    obtain ⟨rest, hsplit, rfl | hreach⟩ := exists_eq_takeUntil_append w target as acc
    · rw [append_nil] at hsplit
      rwa [← hsplit]
    · exact hreach

end Until

/-! ## Within a limit -/

section Within

variable {α σ M : Type} [Add M] [LT M] [DecidableLT M] (cost : α → M) (limit : M)
  (allowed : σ → α → Bool) (step : σ → α → σ)

/-- The elements taken from a list when those taken before cost `spent` and left the state `s`.
The first element that does not fit ends the loop, and one that is not allowed is skipped. -/
def takeWithin : List α → M → σ → List α
  | [], _, _ => []
  | a :: as, spent, s =>
    if spent + cost a > limit then []
    else if allowed s a then a :: takeWithin as (spent + cost a) (step s a)
    else takeWithin as spent s

variable {cost limit allowed step}

lemma takeWithin_sublist (as : List α) (spent : M) (s : σ) :
    (takeWithin cost limit allowed step as spent s).Sublist as := by
  induction as generalizing spent s with
  | nil => exact List.Sublist.slnil
  | cons a as ih =>
    unfold takeWithin
    split_ifs
    · exact nil_sublist _
    · exact (ih _ _).cons_cons a
    · exact (ih _ _).cons a

variable {as : List α}

lemma takeWithin_eq_nil {s : σ} (h : ∀ a ∈ as, allowed s a = false) (spent : M) :
    takeWithin cost limit allowed step as spent s = [] := by
  induction as with
  | nil => rfl
  | cons a as ih =>
    rw [forall_mem_cons] at h
    unfold takeWithin
    split_ifs with hover hallowed
    · rfl
    · exact absurd hallowed (by simp [h.1])
    · exact ih h.2

/-- If every element fits and none is taken, none is allowed. -/
lemma allowed_eq_false_of_takeWithin_eq_nil {spent : M} {s : σ}
    (hfits : ∀ a ∈ as, ¬ spent + cost a > limit)
    (h : takeWithin cost limit allowed step as spent s = []) : ∀ a ∈ as, allowed s a = false := by
  induction as with
  | nil => simp
  | cons a as ih =>
    rw [forall_mem_cons] at hfits ⊢
    rw [takeWithin, if_neg hfits.1] at h
    by_cases hallowed : allowed s a = true
    · simp [hallowed] at h
    · rw [if_neg hallowed] at h
      exact ⟨by simpa using hallowed, ih hfits.2 h⟩

/-- **Each element taken is allowed** in the state that it is taken in. -/
lemma along_takeWithin (as : List α) (spent : M) (s : σ) :
    Run.Along step (fun s a => allowed s a = true) s
      (takeWithin cost limit allowed step as spent s) := by
  induction as generalizing spent s with
  | nil => exact trivial
  | cons a as ih =>
    unfold takeWithin
    split_ifs with hover hallowed
    · exact trivial
    · exact ⟨hallowed, ih _ _⟩
    · exact ih _ _

/-- **The sum stays within the limit**, and is not wrapped if no single element wraps. -/
lemma sum_takeWithin_le {cost : α → UInt64} {limit : UInt64}
    (hcost : ∀ a ∈ as, limit.toNat + (cost a).toNat < 2 ^ 64) {spent : UInt64}
    (hspent : spent ≤ limit) (s : σ) :
    spent.toNat + ((takeWithin cost limit allowed step as spent s).map fun a =>
      (cost a).toNat).sum ≤ limit.toNat := by
  have hle := UInt64.le_iff_toNat_le.mp hspent
  induction as generalizing spent s with
  | nil => exact hle
  | cons a as ih =>
    rw [forall_mem_cons] at hcost
    have hadd : (spent + cost a).toNat = spent.toNat + (cost a).toNat := by
      rw [UInt64.toNat_add]
      omega
    unfold takeWithin
    split_ifs with hover hallowed
    · exact hle
    · have hfits := UInt64.not_lt.mp hover
      rw [map_cons, sum_cons, ← add_assoc, ← hadd]
      exact ih hcost.2 hfits _ (UInt64.le_iff_toNat_le.mp hfits)
    · exact ih hcost.2 hspent _ hle

end Within

end Greedy
