import Mathlib.Data.List.Sort
import Mathlib.Data.List.Perm.Basic

/-!
# Stable sorting by descending keys

A stable sort is specified without an algorithm.

## Main definitions

* `Ranks`: keys descend, and the elements of each key keep their order
* `sliceStable`: insertion

## Main results

* `ranks_sliceStable`
-/

namespace StableSort

open List

variable {α β : Type} [LinearOrder β] {key : α → β}

variable (key) in
/-- The list `ranked` has the elements of `l` by descending key, those of one key in their
order. -/
structure Ranks (l ranked : List α) : Prop where
  sorted : ranked.Pairwise fun a b => key b ≤ key a
  stable : ∀ k, ranked.filter (fun a => key a = k) = l.filter fun a => key a = k

variable {l ranked : List α}

/-- **Nothing is lost or added.** -/
theorem Ranks.perm (h : Ranks key l ranked) : ranked.Perm l := by
  classical
  rw [perm_iff_count]
  intro a
  have hcount : ∀ l' : List α, (l'.filter fun b => key b = key a).count a = l'.count a :=
    fun l' => count_filter (by simp)
  rw [← hcount ranked, h.stable, hcount]

/-- Insertion from the front: each element in turn moves forward past those that it is above. -/
def sliceStable (above : α → α → Bool) (l : List α) : List α :=
  (l.reverse.insertionSort fun a b => ¬ above a b).reverse

lemma sliceStable_perm (above : α → α → Bool) (l : List α) : (sliceStable above l).Perm l :=
  (reverse_perm _).trans ((perm_insertionSort _ _).trans (reverse_perm l))

/-- **The sort is stable**, for comparisons of keys.

**Proof sketch.** The elements of one key are a sorted sublist of the list, so they stay a sublist
when it is sorted; there are no other elements of this key. -/
theorem ranks_sliceStable (l : List α) :
    Ranks key l (sliceStable (fun a b => key b < key a) l) := by
  have hle : sliceStable (fun a b => key b < key a) l =
      (l.reverse.insertionSort fun a b => key a ≤ key b).reverse := by
    simp only [sliceStable, decide_eq_true_eq, not_lt]
  have : Std.Total fun a b : α => key a ≤ key b := ⟨fun a b => le_total _ _⟩
  have : IsTrans α fun a b => key a ≤ key b := ⟨fun a b c hab hbc => hab.trans hbc⟩
  refine ⟨?_, fun k => ?_⟩
  · rw [hle, pairwise_reverse]
    exact pairwise_insertionSort _ _
  have hsame : (l.reverse.filter fun a => key a = k).Pairwise fun a b => key a ≤ key b := by
    rw [pairwise_filter]
    refine pairwise_of_forall fun a b ha hb => ?_
    rw [of_decide_eq_true ha, of_decide_eq_true hb]
  have hsub := (sublist_insertionSort hsame filter_sublist).filter fun a => key a = k
  rw [filter_filter] at hsub
  simp only [Bool.and_self] at hsub
  have hlength := ((perm_insertionSort (fun a b => key a ≤ key b) l.reverse).filter
    fun a => key a = k).length_eq
  rw [hle, filter_reverse, ← hsub.eq_of_length hlength.symm, filter_reverse, reverse_reverse]

/-- **The last element of a ranking** is the last element of lowest key, and the others are the
ranking of the list without it. -/
theorem Ranks.dropLast {a : α} (h : Ranks key l (ranked ++ [a])) :
    ∃ pre post, l = pre ++ a :: post ∧ (∀ b ∈ l, key a ≤ key b) ∧ (∀ b ∈ post, key a < key b) ∧
      Ranks key (pre ++ post) ranked := by
  have hsorted := pairwise_append.mp h.sorted
  have hlow : ∀ b ∈ l, key a ≤ key b := by
    intro b hb
    rcases mem_append.mp (h.perm.mem_iff.mpr hb) with hb | hb
    · exact hsorted.2.2 b hb a (mem_singleton_self a)
    · rw [mem_singleton.mp hb]
  -- among the elements with the key of `a`, it is the last one
  have hlast := h.stable (key a)
  rw [filter_append, filter_singleton, decide_eq_true rfl, cond_true] at hlast
  obtain ⟨pre, rest, hl, hpre, hrest⟩ := filter_eq_append_iff.mp hlast.symm
  obtain ⟨mid, post, hmid, hskip, -, hpost⟩ := filter_eq_cons_iff.mp hrest
  refine ⟨pre ++ mid, post, by rw [hl, hmid, append_assoc], hlow, ?_, hsorted.1, ?_⟩
  · intro b hb
    have hne : key b ≠ key a := by simpa using filter_eq_nil_iff.mp hpost b hb
    exact lt_of_le_of_ne (hlow b (by simp [hl, hmid, hb])) hne.symm
  · intro k
    have hk := h.stable k
    rw [hl, hmid] at hk
    by_cases hak : key a = k
    · subst hak
      have hmid' : mid.filter (fun b => key b = key a) = [] := by
        rw [filter_eq_nil_iff]
        exact fun b hb => by simpa using hskip b hb
      simp [filter_append, hpre, hmid', hpost]
    · simpa [filter_append, filter_cons, hak] using hk

end StableSort
