import Mathlib.Data.List.Nodup
import Mathlib.Order.Bounds.Basic
import Mathlib.Order.Lattice
import Mathlib.Tactic

/-!
# States made of cells

A state is seen through a family of cells, one for each key.

## Main definitions

* `Local`: a visit of a key changes its cell only
* `Acts`: a step acts on each cell separately

## Main results

* `Local.view_foldl`, `Acts.view_foldl`: loops and runs, cell by cell
* `isGreatest_foldl_sup`: joining values one after the other
-/

namespace Cells

open List

variable {σ κ β α : Type}

/-- A visit of a key changes the cell of that key only. -/
def Local [DecidableEq κ] (view : σ → κ → β) (visit : σ → κ → σ) (change : κ → β → β) : Prop :=
  ∀ s k j, view (visit s k) j = if k = j then change j (view s j) else view s j

namespace Local

variable [DecidableEq κ] {view : σ → κ → β} {visit : σ → κ → σ} {change : κ → β → β}

lemma view_foldl_of_not_mem (h : Local view visit change) {order : List κ} {j : κ}
    (hj : j ∉ order) (s : σ) : view (order.foldl visit s) j = view s j := by
  induction order generalizing s with
  | nil => rfl
  | cons k order ih =>
    obtain ⟨hne, hj⟩ := not_or.mp (mt mem_cons.mpr hj)
    rw [foldl_cons, ih hj, h, if_neg (Ne.symm hne)]

/-- **Visiting distinct keys**, in any order, changes each of them once. -/
theorem view_foldl (h : Local view visit change) {order : List κ} (hnd : order.Nodup) (s : σ)
    (j : κ) :
    view (order.foldl visit s) j = if j ∈ order then change j (view s j) else view s j := by
  split_ifs with hj
  · -- nothing before and after the one visit touches the cell
    obtain ⟨before, after, rfl⟩ := append_of_mem hj
    obtain ⟨-, hafter, hbefore⟩ := nodup_append'.mp hnd
    have hafter : j ∉ after := (nodup_cons.mp hafter).1
    have hbefore : j ∉ before := fun hmem => hbefore hmem mem_cons_self
    rw [foldl_append, foldl_cons, h.view_foldl_of_not_mem hafter, h, if_pos rfl,
      h.view_foldl_of_not_mem hbefore]
  · exact h.view_foldl_of_not_mem hj s

end Local

/-- A step acts on each cell separately. -/
def Acts (view : σ → κ → β) (step : σ → α → σ) (cell : κ → β → α → β) : Prop :=
  ∀ s a k, view (step s a) k = cell k (view s k) a

/-- **A run acts on each cell as a run of its own.** -/
theorem Acts.view_foldl {view : σ → κ → β} {step : σ → α → σ} {cell : κ → β → α → β}
    (h : Acts view step cell) (s : σ) (as : List α) (k : κ) :
    view (as.foldl step s) k = as.foldl (cell k) (view s k) := by
  induction as generalizing s with
  | nil => rfl
  | cons a as ih => rw [foldl_cons, foldl_cons, ih, h]

/-- **Joining values one after the other gives the greatest one.** -/
theorem isGreatest_foldl_sup [LinearOrder β] (b : β) (bs : List β) :
    IsGreatest (insert b {c | c ∈ bs}) (bs.foldl (· ⊔ ·) b) := by
  induction bs generalizing b with
  | nil => simp
  | cons c bs ih =>
    obtain ⟨hmem, hup⟩ := ih (b ⊔ c)
    rw [foldl_cons]
    generalize bs.foldl (· ⊔ ·) (b ⊔ c) = top at hmem hup
    have hjoin : b ⊔ c ≤ top := hup (Set.mem_insert _ _)
    constructor
    · rcases hmem with rfl | hmem
      · rcases le_total b c with hle | hle
        · exact .inr (by simp [sup_eq_right.mpr hle])
        · exact .inl (sup_eq_left.mpr hle)
      · exact .inr (mem_cons_of_mem _ hmem)
    · rintro d (rfl | hd)
      · exact le_sup_left.trans hjoin
      · rcases mem_cons.mp hd with rfl | hd
        · exact le_sup_right.trans hjoin
        · exact hup (.inr hd)

end Cells
