import Mathlib.Data.List.Basic
import Mathlib.Tactic

/-!
# Runs of a step function

The states of a run are `List.scanl step s as`, the start state first.

## Main definitions

* `Along`: a condition on a state and the step about to be taken, along a run

## Main results

* `forall_mem_scanl_iff`, `forall_mem_and_along_iff`: exact conditions for an invariant
* `pairwise_scanl_iff`: relations between any two states
-/

namespace Run

open List

variable {σ α : Type} (step : σ → α → σ)

/-- Every step of the run from `s` meets `P`, read at the state the step is taken from. -/
def Along (P : σ → α → Prop) : σ → List α → Prop
  | _, [] => True
  | s, a :: as => P s a ∧ Along P (step s a) as

instance decidableAlong (P : σ → α → Prop) [∀ s a, Decidable (P s a)] :
    (s : σ) → (as : List α) → Decidable (Along step P s as)
  | _, [] => isTrue trivial
  | s, a :: as =>
    have := decidableAlong P (step s a) as
    inferInstanceAs (Decidable (P s a ∧ Along step P (step s a) as))

variable {step}

lemma Along.imp {P Q : σ → α → Prop} (h : ∀ s a, P s a → Q s a) :
    ∀ {s : σ} {as : List α}, Along step P s as → Along step Q s as
  | _, [], _ => trivial
  | s, a :: _, hs => ⟨h s a hs.1, hs.2.imp h⟩

variable {I : σ → Prop} {as : List α} {s : σ} {P : σ → α → Prop} {R : σ → σ → Prop}

lemma along_append {as bs : List α} :
    Along step P s (as ++ bs) ↔ Along step P s as ∧ Along step P (as.foldl step s) bs := by
  induction as generalizing s with
  | nil => rw [nil_append, Along, true_and, foldl_nil]
  | cons a as ih => rw [cons_append, Along, ih, Along, foldl_cons, and_assoc]

lemma along_of_invariant (hstep : ∀ s a, I s → I (step s a)) (hs : I s)
    (as : List α) : Along step (fun s _ => I s) s as := by
  induction as generalizing s with
  | nil => trivial
  | cons a as ih => exact ⟨hs, ih (hstep s a hs)⟩

lemma along_true (s : σ) (as : List α) : Along step (fun _ _ => True) s as :=
  along_of_invariant (I := fun _ => True) (fun _ _ _ => trivial) trivial as

lemma along_iff_getElem :
    Along step P s as ↔ ∀ i a, as[i]? = some a → P ((as.take i).foldl step s) a := by
  induction as generalizing s with
  | nil => simp [Along]
  | cons b as ih =>
    rw [Along, ih]
    constructor
    · rintro ⟨hb, has⟩ i a ha
      cases i with
      | zero =>
        obtain rfl : b = a := by simpa using ha
        exact hb
      | succ i => exact has i a (by simpa using ha)
    · intro h
      exact ⟨h 0 b rfl, fun i a ha => h (i + 1) a (by simpa using ha)⟩

lemma Along.congr {P Q R : σ → α → Prop} (h : ∀ s a, P s a → (Q s a ↔ R s a)) :
    ∀ {s : σ} {as : List α}, Along step P s as → (Along step Q s as ↔ Along step R s as)
  | _, [], _ => Iff.rfl
  | s, a :: _, hs => and_congr (h s a hs.1) (hs.2.congr h)

lemma self_mem_scanl (s : σ) (as : List α) : s ∈ List.scanl step s as := by
  cases as <;> simp

/-- **Invariants along a run**: a property of the start state that every admissible step
preserves holds in every state reached. -/
theorem forall_mem_scanl (hstep : ∀ s a, P s a → I s → I (step s a)) :
    ∀ {s : σ} {as : List α}, I s → Along step P s as → ∀ t ∈ List.scanl step s as, I t
  | s, [], hs, _ => by simpa using hs
  | s, a :: as, hs, hP => by
    rw [scanl_cons]
    intro t ht
    rcases mem_cons.mp ht with rfl | ht
    · exact hs
    · exact forall_mem_scanl hstep (hstep s a hP.1 hs) hP.2 t ht

lemma foldl_mem_scanl (s : σ) (as : List α) : as.foldl step s ∈ List.scanl step s as := by
  induction as generalizing s with
  | nil => simp
  | cons a as ih =>
    rw [scanl_cons]
    exact mem_cons_of_mem _ (ih (step s a))

/-- **Exact conditions for an invariant and its steps**: if an admissible step keeps the invariant
and is as it should be exactly under a condition, then this holds all along a run of admissible
steps exactly when every step meets the condition. -/
theorem forall_mem_and_along_iff {P Q R : σ → α → Prop}
    (hstep : ∀ s a, I s → P s a → (I (step s a) ∧ R s a ↔ Q s a)) (hs : I s)
    (hP : Along step P s as) :
    (∀ t ∈ List.scanl step s as, I t) ∧ Along step R s as ↔ Along step Q s as := by
  induction as generalizing s with
  | nil => simpa [Along] using hs
  | cons a as ih =>
    rw [scanl_cons, forall_mem_cons, Along, Along]
    constructor
    · rintro ⟨⟨-, hI⟩, hR, hrest⟩
      have ha : I (step s a) := hI _ (self_mem_scanl _ _)
      exact ⟨(hstep s a hs hP.1).mp ⟨ha, hR⟩, (ih ha hP.2).mp ⟨hI, hrest⟩⟩
    · rintro ⟨hQ, hrest⟩
      obtain ⟨ha, hR⟩ := (hstep s a hs hP.1).mpr hQ
      obtain ⟨hI, hR'⟩ := (ih ha hP.2).mpr hrest
      exact ⟨⟨hs, hI⟩, hR, hR'⟩

/-- **Exact conditions for an invariant.** -/
theorem forall_mem_scanl_iff {P Q : σ → α → Prop}
    (hstep : ∀ s a, I s → P s a → (I (step s a) ↔ Q s a)) (hs : I s)
    (hP : Along step P s as) : (∀ t ∈ List.scanl step s as, I t) ↔ Along step Q s as := by
  rw [← forall_mem_and_along_iff (R := fun _ _ => True) (by simpa using hstep) hs hP]
  exact (and_iff_left (along_true s as)).symm

/-- A property that is never regained holds at the end of a run exactly if it holds all along. -/
theorem foldl_iff_forall_mem_scanl (hlost : ∀ s a, I (step s a) → I s) :
    I (as.foldl step s) ↔ ∀ t ∈ List.scanl step s as, I t := by
  refine ⟨fun hlast => ?_, fun hall => hall _ (foldl_mem_scanl s as)⟩
  induction as generalizing s with
  | nil =>
    intro t ht
    rw [scanl_nil, mem_singleton] at ht
    rwa [ht]
  | cons a as ih =>
    have hrest := ih hlast
    rw [scanl_cons, forall_mem_cons]
    exact ⟨hlost s a (hrest _ (self_mem_scanl _ _)), hrest⟩

lemma along_of_pairwise_scanl : ∀ {s : σ} {as : List α}, (List.scanl step s as).Pairwise R →
      Along step (fun s a => R s (step s a)) s as
  | _, [], _ => trivial
  | s, a :: as, h => by
    rw [scanl_cons, pairwise_cons] at h
    exact ⟨h.1 _ (self_mem_scanl _ _), along_of_pairwise_scanl h.2⟩

/-- **Histories**: a transitive relation holds between any state of a run and any later one exactly
when it holds across each step.

**Proof sketch.** The first state is related to the second by the step and to every later one by
transitivity. -/
theorem pairwise_scanl_iff (htrans : ∀ {a b c}, R a b → R b c → R a c) :
    (List.scanl step s as).Pairwise R ↔ Along step (fun s a => R s (step s a)) s as := by
  refine ⟨along_of_pairwise_scanl, fun h => ?_⟩
  induction as generalizing s with
  | nil => simp
  | cons a as ih =>
    have hpw : (List.scanl step (step s a) as).Pairwise R := ih h.2
    rw [scanl_cons, pairwise_cons]
    refine ⟨fun t ht => ?_, hpw⟩
    cases as with
    | nil =>
      obtain rfl : t = step s a := by simpa using ht
      exact h.1
    | cons b bs =>
      rw [scanl_cons] at ht hpw
      rcases mem_cons.mp ht with rfl | ht
      · exact h.1
      · exact htrans h.1 ((pairwise_cons.mp hpw).1 t ht)

/-- **Exact conditions for an invariant and a history**: the same for a transitive relation between
the states of a run and the later ones. -/
theorem forall_mem_and_pairwise_scanl_iff {Q : σ → α → Prop}
    (htrans : ∀ {a b c}, R a b → R b c → R a c)
    (hstep : ∀ s a, I s → (I (step s a) ∧ R s (step s a) ↔ Q s a)) (hs : I s) :
    (∀ t ∈ List.scanl step s as, I t) ∧ (List.scanl step s as).Pairwise R ↔ Along step Q s as := by
  rw [pairwise_scanl_iff (R := R) htrans]
  exact forall_mem_and_along_iff (fun s a hs _ => hstep s a hs) hs (along_true s as)

/-- **Measures**: if every admissible step keeps an invariant and lowers a measure that is not zero
yet, then a run with as many steps as the measure says ends with measure zero. -/
theorem measure_foldl_eq_zero (measure : σ → ℕ)
    (hstep : ∀ s a, P s a → I s → I (step s a) ∧ measure (step s a) ≤ measure s - 1) (hs : I s)
    (hP : Along step P s as) (hlength : measure s ≤ as.length) :
    measure (as.foldl step s) = 0 := by
  induction as generalizing s with
  | nil => exact Nat.le_zero.mp hlength
  | cons a as ih =>
    obtain ⟨hI, hlower⟩ := hstep s a hP.1 hs
    rw [length_cons] at hlength
    exact ih hI hP.2 (by omega)

lemma foldl_injective (hstep : ∀ a, Function.Injective fun s => step s a) (as : List α) :
    Function.Injective fun s => as.foldl step s := by
  induction as with
  | nil => exact fun _ _ h => h
  | cons a as ih => exact fun s t h => hstep a (ih h)

/-- **Injective steps tell runs apart that differ in one step.** -/
theorem foldl_ne_foldl (hstep : ∀ a, Function.Injective fun s => step s a)
    (hletter : ∀ s, Function.Injective (step s)) {a b : α} (hne : a ≠ b) (s : σ)
    (before after : List α) :
    (before ++ a :: after).foldl step s ≠ (before ++ b :: after).foldl step s := by
  intro heq
  rw [foldl_append, foldl_append, foldl_cons, foldl_cons] at heq
  exact hne (hletter _ (foldl_injective hstep after heq))

end Run
