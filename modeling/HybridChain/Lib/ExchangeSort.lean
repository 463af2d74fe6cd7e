import Mathlib.Data.List.Perm.Basic
import Mathlib.Tactic

/-!
# Exchange sort

Every element is compared with all later ones, and exchanged with each one whose key is greater.

## Main definitions

* `sort`: the two loops over positions

## Main results

* `sort_perm`, `sort_pairwise`: the keys then descend
-/

namespace ExchangeSort

open List

variable {α β : Type} [LinearOrder β] (key : α → β)

/-- The list with the elements at two positions exchanged. -/
def exchange (l : List α) (i j : ℕ) : List α :=
  match l[i]?, l[j]? with
  | some a, some b => (l.set i b).set j a
  | _, _ => l

/-- One comparison of the inner loop. -/
def compare (i : ℕ) (l : List α) (j : ℕ) : List α :=
  match l[i]?, l[j]? with
  | some a, some b => if key a < key b then exchange l i j else l
  | _, _ => l

/-- The inner loop: `for j := i + 1; j < len(l); j++`. -/
def pass (l : List α) (i : ℕ) : List α :=
  (List.range' (i + 1) (l.length - (i + 1))).foldl (compare key i) l

/-- The outer loop: `for i := 0; i < len(l) - 1; i++`. -/
def sort (l : List α) : List α := (List.range (l.length - 1)).foldl (pass key) l

/-- The element that stands at the position of the inner loop in the end, and the others. -/
def sweep (a : α) : List α → α × List α
  | [] => (a, [])
  | b :: rest =>
    if key a < key b then ((sweep b rest).1, a :: (sweep b rest).2)
    else ((sweep a rest).1, b :: (sweep a rest).2)

variable {key} (pre : List α) (l : List α) (a : α) (rest : List α)

lemma sweep_perm : ((sweep key a rest).1 :: (sweep key a rest).2).Perm (a :: rest) := by
  induction rest generalizing a with
  | nil => exact .refl _
  | cons b rest ih =>
    rw [sweep]
    split_ifs
    · calc ((sweep key b rest).1 :: a :: (sweep key b rest).2).Perm
            (a :: (sweep key b rest).1 :: (sweep key b rest).2) := .swap _ _ _
        _ |>.Perm (a :: b :: rest) := (ih b).cons a
    · calc ((sweep key a rest).1 :: b :: (sweep key a rest).2).Perm
            (b :: (sweep key a rest).1 :: (sweep key a rest).2) := .swap _ _ _
        _ |>.Perm (b :: a :: rest) := (ih a).cons b
        _ |>.Perm (a :: b :: rest) := .swap _ _ _

lemma key_le_sweep : key a ≤ key (sweep key a rest).1 ∧
      ∀ b ∈ (sweep key a rest).2, key b ≤ key (sweep key a rest).1 := by
  induction rest generalizing a with
  | nil => exact ⟨le_rfl, fun b hb => absurd hb not_mem_nil⟩
  | cons b rest ih =>
    rw [sweep]
    split_ifs with hlt
    · obtain ⟨hb, hrest⟩ := ih b
      exact ⟨hlt.le.trans hb, forall_mem_cons.mpr ⟨hlt.le.trans hb, hrest⟩⟩
    · obtain ⟨ha, hrest⟩ := ih a
      exact ⟨ha, forall_mem_cons.mpr ⟨(not_lt.mp hlt).trans ha, hrest⟩⟩

/-- What a comparison sees: the element of the position, those already compared and the next one. -/
lemma compare_append (done : List α) (b : α) (todo : List α) :
    compare key pre.length (pre ++ a :: (done ++ b :: todo)) (pre.length + 1 + done.length) =
      if key a < key b then pre ++ b :: (done ++ a :: todo)
      else pre ++ a :: (done ++ b :: todo) := by
  have hi : (pre ++ a :: (done ++ b :: todo))[pre.length]? = some a := by
    rw [List.getElem?_append_right le_rfl, Nat.sub_self, List.getElem?_cons_zero]
  have hj : (pre ++ a :: (done ++ b :: todo))[pre.length + 1 + done.length]? = some b := by
    rw [List.getElem?_append_right (by omega),
      show pre.length + 1 + done.length - pre.length = done.length + 1 by omega,
      List.getElem?_cons_succ, List.getElem?_append_right le_rfl, Nat.sub_self,
      List.getElem?_cons_zero]
  simp only [compare, exchange, hi, hj]
  refine if_congr Iff.rfl ?_ rfl
  rw [set_append_right _ _ le_rfl, Nat.sub_self, set_cons_zero, set_append_right _ _ (by omega),
    show pre.length + 1 + done.length - pre.length = done.length + 1 by omega,
    set_cons_succ, set_append_right _ _ le_rfl, Nat.sub_self, set_cons_zero]

/-- **The inner loop is a sweep** of the elements from its position on. -/
lemma foldl_compare (done todo : List α) :
    (List.range' (pre.length + 1 + done.length) todo.length).foldl (compare key pre.length)
        (pre ++ a :: (done ++ todo)) =
      pre ++ (sweep key a todo).1 :: (done ++ (sweep key a todo).2) := by
  induction todo generalizing a done with
  | nil => rfl
  | cons b todo ih =>
    have hstep : ∀ c : α, pre.length + 1 + done.length + 1 =
        pre.length + 1 + (done ++ [c]).length := fun c => by
      rw [length_append, length_singleton, Nat.add_assoc]
    rw [length_cons, range'_succ, foldl_cons, compare_append, sweep]
    split_ifs
    · rw [append_cons done a todo, hstep a, ih b, ← append_cons]
    · rw [append_cons done b todo, hstep b, ih a, ← append_cons]

lemma pass_append : pass key (pre ++ a :: rest) pre.length =
      pre ++ (sweep key a rest).1 :: (sweep key a rest).2 := by
  have hlength : (pre ++ a :: rest).length - (pre.length + 1) = rest.length := by
    rw [length_append, length_cons]
    omega
  rw [pass, hlength]
  exact foldl_compare pre a [] rest

variable (key) in
/-- The list after some turns of the outer loop: a part that is sorted, and elements whose keys are
not greater. -/
structure Sorting (l sorted rest : List α) : Prop where
  perm : (sorted ++ rest).Perm l
  pairwise : sorted.Pairwise fun a b => key b ≤ key a
  le : ∀ a ∈ sorted, ∀ b ∈ rest, key b ≤ key a

lemma Sorting.pass {l sorted rest : List α} {a : α} (h : Sorting key l sorted (a :: rest)) :
    Sorting key l (sorted ++ [(sweep key a rest).1]) (sweep key a rest).2 := by
  have hsweep : ((sweep key a rest).1 :: (sweep key a rest).2).Perm (a :: rest) := sweep_perm a rest
  have hle : ∀ c ∈ sorted, ∀ b ∈ (sweep key a rest).1 :: (sweep key a rest).2, key b ≤ key c :=
    fun c hc b hb => h.le c hc b (hsweep.mem_iff.mp hb)
  refine ⟨?_, ?_, ?_⟩
  · rw [append_assoc, singleton_append]
    exact (hsweep.append_left sorted).trans h.perm
  · refine pairwise_append.mpr ⟨h.pairwise, pairwise_singleton _ _, fun c hc b hb => ?_⟩
    rw [mem_singleton.mp hb]
    exact hle c hc _ mem_cons_self
  · intro c hc b hb
    rcases mem_append.mp hc with hc | hc
    · exact hle c hc b (mem_cons_of_mem _ hb)
    · rw [mem_singleton.mp hc]
      exact (key_le_sweep a rest).2 b hb

variable (key) in
lemma exists_sorting {k : ℕ} (hk : k ≤ l.length - 1) : ∃ sorted rest, sorted.length = k ∧
      (List.range k).foldl (ExchangeSort.pass key) l = sorted ++ rest ∧
      Sorting key l sorted rest := by
  induction k with
  | zero => exact ⟨[], l, rfl, rfl, .refl _, .nil, fun a ha => absurd ha not_mem_nil⟩
  | succ k ih =>
    obtain ⟨sorted, rest, hlength, hfold, hsorting⟩ := ih (by omega)
    have htotal := hsorting.perm.length_eq
    rw [length_append] at htotal
    obtain ⟨a, rest, rfl⟩ : ∃ a r, rest = a :: r := exists_cons_of_length_pos (by omega)
    refine ⟨sorted ++ [(sweep key a rest).1], (sweep key a rest).2, ?_, ?_, hsorting.pass⟩
    · rw [length_append, hlength, length_singleton]
    · rw [range_succ, foldl_append, hfold, foldl_cons, foldl_nil, ← hlength,
        pass_append, append_assoc, singleton_append]

/-- **The sort permutes the list.** -/
theorem sort_perm : (sort key l).Perm l := by
  obtain ⟨sorted, rest, -, hfold, hsorting⟩ := exists_sorting key l le_rfl
  rw [sort, hfold]
  exact hsorting.perm

/-- **The keys descend.** -/
theorem sort_pairwise : (sort key l).Pairwise fun a b => key b ≤ key a := by
  obtain ⟨sorted, rest, hlength, hfold, hsorting⟩ := exists_sorting key l le_rfl
  have htotal := hsorting.perm.length_eq
  rw [length_append] at htotal
  rw [sort, hfold]
  refine pairwise_append.mpr ⟨hsorting.pairwise, ?_, hsorting.le⟩
  -- at most one element is left over
  match rest, htotal with
  | [], _ => exact .nil
  | [a], _ => exact pairwise_singleton _ _
  | a :: b :: rest, htotal =>
    rw [length_cons, length_cons] at htotal
    omega

end ExchangeSort
