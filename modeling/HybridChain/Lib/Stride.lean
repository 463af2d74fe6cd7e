import Mathlib.Data.List.Basic
import Mathlib.Tactic

/-!
# Every `k`-th element of a list, and groups of `k`

The elements of a list at regular positions.

## Main definitions

* `every`: every `k`-th element
* `batches`: groups of `k`

## Main results

* `flatten_batches`: the groups are the list
-/

namespace Stride

open List

variable {α : Type} {k : ℕ}

/-- Skip `j` elements, keep the next one, and so on with every `k`-th one. -/
def everyFrom (k : ℕ) : ℕ → List α → List α
  | _, [] => []
  | 0, a :: l => a :: everyFrom k (k - 1) l
  | j + 1, _ :: l => everyFrom k j l

/-- The first element and every `k`-th one after it. -/
def every (k : ℕ) (l : List α) : List α := everyFrom k 0 l

@[simp] lemma every_nil : every k ([] : List α) = [] := rfl

variable {l : List α} {parts : List (List α)}

lemma everyFrom_append {j : ℕ} (h : l.length ≤ j) (r : List α) :
    everyFrom k j (l ++ r) = everyFrom k (j - l.length) r := by
  induction l generalizing j with
  | nil => rfl
  | cons a l ih =>
    cases j with
    | zero => simp at h
    | succ j =>
      rw [cons_append, everyFrom, ih (by simpa using h), length_cons]
      congr 1
      omega

/-- **A full group gives its first element.** -/
lemma every_append {a : α} (h : l.length + 1 = k) (r : List α) :
    every k (a :: l ++ r) = a :: every k r := by
  rw [cons_append, every, everyFrom, everyFrom_append (by omega)]
  have hzero : k - 1 - l.length = 0 := by omega
  rw [hzero, every]

lemma every_cons {a : α} (h : l.length < k) : every k (a :: l) = [a] := by
  have hrest : everyFrom k (k - 1) (l ++ []) = [] := by
    rw [everyFrom_append (by omega)]
    rfl
  rw [append_nil] at hrest
  rw [every, everyFrom, hrest]

lemma length_everyFrom (hk : 0 < k) (j : ℕ) (l : List α) :
    (everyFrom k j l).length = (l.length - j + (k - 1)) / k := by
  induction l generalizing j with
  | nil =>
    rw [everyFrom, length_nil, Nat.zero_sub, Nat.zero_add]
    exact (Nat.div_eq_of_lt (by omega)).symm
  | cons a l ih =>
    cases j with
    | zero =>
      rw [everyFrom, length_cons, ih, length_cons]
      have hsum : l.length + 1 - 0 + (k - 1) = l.length + k := by omega
      rw [hsum, Nat.add_div_right _ hk, Nat.add_right_cancel_iff]
      by_cases hlong : k - 1 ≤ l.length
      · rw [Nat.sub_add_cancel hlong]
      · rw [Nat.div_eq_of_lt (by omega), Nat.div_eq_of_lt (by omega)]
    | succ j =>
      rw [everyFrom, ih, length_cons]
      congr 2
      omega

lemma length_every (hk : 0 < k) (l : List α) : (every k l).length = (l.length + (k - 1)) / k :=
  length_everyFrom hk 0 l

lemma everyFrom_sublist (j : ℕ) (l : List α) : (everyFrom k j l).Sublist l := by
  induction l generalizing j with
  | nil => exact List.Sublist.slnil
  | cons a l ih =>
    cases j with
    | zero => exact (ih (k - 1)).cons_cons a
    | succ j => exact (ih j).cons a

/-- **No element is left out** exactly if the groups have one element or there is only one. -/
lemma length_every_eq_iff (hk : 0 < k) : (every k l).length = l.length ↔ k = 1 ∨ l.length ≤ 1 := by
  rw [length_every hk]
  constructor
  · intro h
    by_contra hcond
    rw [not_or] at hcond
    have hk2 : 2 ≤ k := by omega
    have hl2 : 2 ≤ l.length := by omega
    have hlt : l.length + (k - 1) < l.length * k := by
      obtain ⟨m, rfl⟩ := Nat.exists_eq_add_of_le hk2
      obtain ⟨n, hn⟩ := Nat.exists_eq_add_of_le hl2
      rw [hn]
      have : 2 + m - 1 = m + 1 := by omega
      rw [this]
      nlinarith
    exact absurd h (Nat.ne_of_lt ((Nat.div_lt_iff_lt_mul hk).mpr hlt))
  · rintro (rfl | hl)
    · rw [Nat.div_one]
      omega
    · interval_cases hlen : l.length
      · exact Nat.div_eq_of_lt (by omega)
      · have hsum : 1 + (k - 1) = k := by omega
        rw [hsum, Nat.div_self hk]

lemma every_eq_self_iff (hk : 0 < k) : every k l = l ↔ k = 1 ∨ l.length ≤ 1 := by
  rw [← length_every_eq_iff hk]
  exact ⟨fun h => by rw [h], fun h => (everyFrom_sublist 0 l).eq_of_length h⟩

/-- The groups of `k` elements; the last one has what is left. -/
def batches (k : ℕ) (l : List α) : List (List α) :=
  (List.range ((l.length + (k - 1)) / k)).map fun i => (l.drop (k * i)).take k

lemma flatten_take_batches (l : List α) (m : ℕ) :
    ((List.range m).map fun i => (l.drop (k * i)).take k).flatten = l.take (k * m) := by
  induction m with
  | zero => rw [Nat.mul_zero, take_zero]; rfl
  | succ m ih =>
    calc ((List.range (m + 1)).map fun i => (l.drop (k * i)).take k).flatten
        = l.take (k * m) ++ (l.drop (k * m)).take k := by simp [range_succ, ih]
      _ = l.take (k * m + k) := take_add.symm

/-- **The batches together are the list.** -/
theorem flatten_batches (hk : 0 < k) (l : List α) : (batches k l).flatten = l := by
  have hcover := Nat.lt_mul_div_succ (l.length + (k - 1)) hk
  rw [Nat.mul_succ] at hcover
  rw [batches, flatten_take_batches]
  apply take_of_length_le
  omega

lemma batches_nil (hk : 0 < k) : batches k ([] : List α) = [] := by
  rw [batches, length_nil, Nat.zero_add, Nat.div_eq_of_lt (by omega)]
  rfl

lemma batches_of_ne_nil (hk : 0 < k) (h : l ≠ []) :
    batches k l = l.take k :: batches k (l.drop k) := by
  have hpos := length_pos_iff.mpr h
  have hcount : (l.length + (k - 1)) / k = (l.length - k + (k - 1)) / k + 1 := by
    by_cases hlong : k ≤ l.length
    · have hsum : l.length + (k - 1) = l.length - k + (k - 1) + k := by omega
      rw [hsum, Nat.add_div_right _ hk]
    · have hsum : l.length + (k - 1) = l.length - 1 + k := by omega
      rw [hsum, Nat.add_div_right _ hk, Nat.div_eq_of_lt (by omega), Nat.div_eq_of_lt (by omega)]
  rw [batches, batches, length_drop, hcount, range_succ_eq_map, map_cons,
    map_map, Nat.mul_zero, drop_zero]
  refine congrArg (l.take k :: ·) (map_congr_left fun i _ => ?_)
  rw [Function.comp_apply, drop_drop, Nat.mul_succ, Nat.add_comm]

lemma length_of_mem_batches (hk : 0 < k) {l batch : List α} (h : batch ∈ batches k l) :
    1 ≤ batch.length ∧ batch.length ≤ k := by
  obtain ⟨i, hi, rfl⟩ := mem_map.mp h
  have hlt := mem_range.mp hi
  rw [Nat.lt_div_iff_mul_lt hk, Nat.mul_comm] at hlt
  rw [length_take, length_drop]
  omega

lemma eq_map_of_prefix_batches (h : parts <+: batches k l) :
    parts = (List.range parts.length).map fun i => (l.drop (k * i)).take k := by
  have hle := h.length_le
  rw [batches, length_map, length_range] at hle
  rw [prefix_iff_eq_take, batches, ← map_take, take_range, Nat.min_eq_left hle] at h
  exact h

lemma flatten_of_prefix_batches (h : parts <+: batches k l) :
    parts.flatten = l.take (k * parts.length) := by
  rw [eq_map_of_prefix_batches h, flatten_take_batches, length_map, length_range]

lemma length_of_mem_prefix_batches {l part : List α}
    (h : parts <+: batches k l) (hle : k * parts.length ≤ l.length) (hpart : part ∈ parts) :
    part.length = k := by
  rw [eq_map_of_prefix_batches h] at hpart
  obtain ⟨i, hi, rfl⟩ := mem_map.mp hpart
  have hnext : k * (i + 1) ≤ k * parts.length := Nat.mul_le_mul_left k (mem_range.mp hi)
  rw [Nat.mul_succ] at hnext
  rw [length_take, length_drop]
  omega

end Stride
