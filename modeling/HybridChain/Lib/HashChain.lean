import Mathlib.Data.List.Chain

/-!
# Lists linked by identifiers

A list in which every element refers to the identifier of the element before it.

## Main definitions

* `Linked`, `Compatible`

## Main results

* `index_eq`, `take_eq`: lists that share an identifier share everything before it
* `accumulated_eq`: and what is added up along them
-/

namespace HashChain

open List

variable {β ι : Type} (ident ref : β → ι)

/-- Every element refers to the identifier of the element before it. -/
def Linked (l : List β) : Prop := l.IsChain fun a b => ref b = ident a

/-- Two linked lists that agree on what an identifier stands for: it determines the reference to
the predecessor, and the reference of a first element is not an identifier. -/
structure Compatible (l m : List β) : Prop where
  left : Linked ident ref l
  right : Linked ident ref m
  ref_eq : ∀ a ∈ l, ∀ b ∈ m, ident a = ident b → ref a = ref b
  left_root : ∀ r, l.head? = some r → ∀ b ∈ m, ident b ≠ ref r
  right_root : ∀ r, m.head? = some r → ∀ a ∈ l, ident a ≠ ref r

variable {ident ref} {R : β → β → Prop} {i : ℕ} {l : List β}

lemma rel_of_getElem? (h : l.IsChain R) {a b : β}
    (ha : l[i]? = some a) (hb : l[i + 1]? = some b) : R a b := by
  obtain ⟨hi, rfl⟩ := List.getElem?_eq_some_iff.mp ha
  obtain ⟨hi', rfl⟩ := List.getElem?_eq_some_iff.mp hb
  exact isChain_iff_getElem.mp h i hi'

lemma isChain_concat_iff {last b : β}
    (hlast : l.getLast? = some last) : (l ++ [b]).IsChain R ↔ l.IsChain R ∧ R last b := by
  simp only [isChain_append, isChain_singleton, hlast, List.head?_cons, Option.mem_def,
    Option.some.injEq, forall_eq', true_and]

lemma exists_getElem?_pred {b : β} (hb : l[i + 1]? = some b) :
    ∃ a, l[i]? = some a := by
  obtain ⟨hi, -⟩ := List.getElem?_eq_some_iff.mp hb
  exact ⟨l[i], List.getElem?_eq_getElem (by omega)⟩

namespace Compatible

variable {l m : List β} (h : Compatible ident ref l m)
include h

/-- The predecessors of elements with one identifier share an identifier again. -/
lemma exists_pred {i j : ℕ} {a b : β} (ha : l[i + 1]? = some a) (hb : m[j + 1]? = some b)
    (hab : ident a = ident b) :
    ∃ a' b', l[i]? = some a' ∧ m[j]? = some b' ∧ ident a' = ident b' := by
  obtain ⟨a', ha'⟩ := exists_getElem?_pred ha
  obtain ⟨b', hb'⟩ := exists_getElem?_pred hb
  refine ⟨a', b', ha', hb', ?_⟩
  calc ident a' = ref a := (rel_of_getElem? h.left ha' ha).symm
    _ = ref b := h.ref_eq a (mem_of_getElem? ha) b (mem_of_getElem? hb) hab
    _ = ident b' := rel_of_getElem? h.right hb' hb

/-- **A shared identifier stands at the same position in both lists.**

**Proof sketch.** Walk back in both lists at once. The predecessors share an identifier again, and
both walks reach the start together. -/
theorem index_eq : ∀ {i j : ℕ} {a b : β}, l[i]? = some a → m[j]? = some b → ident a = ident b →
    i = j
  | 0, 0, _, _, _, _, _ => rfl
  | 0, j + 1, a, b, ha, hb, hab => by
    obtain ⟨b', hb'⟩ := exists_getElem?_pred hb
    have href := h.ref_eq a (mem_of_getElem? ha) b (mem_of_getElem? hb) hab
    rw [rel_of_getElem? h.right hb' hb] at href
    exact absurd href.symm (h.left_root a (by rw [List.head?_eq_getElem?, ha]) b'
      (mem_of_getElem? hb'))
  | i + 1, 0, a, b, ha, hb, hab => by
    obtain ⟨a', ha'⟩ := exists_getElem?_pred ha
    have href := h.ref_eq a (mem_of_getElem? ha) b (mem_of_getElem? hb) hab
    rw [rel_of_getElem? h.left ha' ha] at href
    exact absurd href (h.right_root b (by rw [List.head?_eq_getElem?, hb]) a' (mem_of_getElem? ha'))
  | i + 1, j + 1, a, b, ha, hb, hab => by
    obtain ⟨a', b', ha', hb', hab'⟩ := h.exists_pred ha hb hab
    have := index_eq ha' hb' hab'
    omega

/-- **Lists that share an identifier share what comes before it.** -/
theorem take_eq : ∀ {i : ℕ} {a b : β}, l[i]? = some a → m[i]? = some b → ident a = ident b →
    (l.take (i + 1)).map ident = (m.take (i + 1)).map ident
  | 0, a, b, ha, hb, hab => by
    simp [take_add_one, ha, hb, hab]
  | i + 1, a, b, ha, hb, hab => by
    obtain ⟨a', b', ha', hb', hab'⟩ := h.exists_pred ha hb hab
    have hpre := take_eq ha' hb' hab'
    rw [take_add_one (l := l), take_add_one (l := m), ha, hb, map_append, map_append, hpre]
    simp [hab]

/-- **A quantity added up along both lists** from parts that the identifiers determine is the same
at a shared identifier. -/
theorem accumulated_eq {M : Type} [Add M] {f g : β → M}
    (hg : ∀ a ∈ l, ∀ b ∈ m, ident a = ident b → g a = g b)
    (hl : l.IsChain fun a b => f b = f a + g b) (hm : m.IsChain fun a b => f b = f a + g b)
    (hl₀ : ∀ r, l.head? = some r → f r = g r) (hm₀ : ∀ r, m.head? = some r → f r = g r) :
    ∀ {i : ℕ} {a b : β}, l[i]? = some a → m[i]? = some b → ident a = ident b → f a = f b
  | 0, a, b, ha, hb, hab => by
    rw [hl₀ a (by rw [List.head?_eq_getElem?, ha]), hm₀ b (by rw [List.head?_eq_getElem?, hb])]
    exact hg a (mem_of_getElem? ha) b (mem_of_getElem? hb) hab
  | i + 1, a, b, ha, hb, hab => by
    obtain ⟨a', b', ha', hb', hab'⟩ := h.exists_pred ha hb hab
    have hpred := accumulated_eq hg hl hm hl₀ hm₀ ha' hb' hab'
    rw [rel_of_getElem? hl ha' ha, rel_of_getElem? hm hb' hb, hpred,
      hg a (mem_of_getElem? ha) b (mem_of_getElem? hb) hab]

end Compatible

end HashChain
