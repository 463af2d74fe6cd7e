import HybridChain.Lib.KeyedLog

/-!
# Stores with an inverse index

A store whose values have an owner, with an index that lists the keys of every owner.

## Main definitions

* `link`, `unlink`: an owner without keys is not in the index
* `Indexes`: the index fits the store

## Main results

* `Indexes.link`, `Indexes.unlink`: it stays so
-/

namespace InverseIndex

open KeyedLog

variable {ι κ ν : Type} [DecidableEq ι] [DecidableEq κ]

def members (index : Store κ (Finset ι)) (k : κ) : Finset ι := (index.lookup k).getD ∅

/-- The index with one more key of an owner. -/
def link (index : Store κ (Finset ι)) (k : κ) (i : ι) : Store κ (Finset ι) :=
  index.insert k (insert i (members index k))

/-- The index with one key of an owner less; an owner that has no key left is taken out. -/
def unlink (index : Store κ (Finset ι)) (k : κ) (i : ι) : Store κ (Finset ι) :=
  match index.lookup k with
  | none => index
  | some is => if (is.erase i).card = 0 then index.erase k else index.insert k (is.erase i)

/-- The index lists exactly the keys of every owner, and no owner without keys. -/
structure Indexes (owner : ν → κ) (store : Store ι ν) (index : Store κ (Finset ι)) : Prop where
  mem_iff : ∀ i k, i ∈ members index k ↔ ∃ v, store.lookup i = some v ∧ owner v = k
  nonempty : ∀ k is, index.lookup k = some is → is.Nonempty

variable {owner : ν → κ} {store : Store ι ν} {index : Store κ (Finset ι)}

omit [DecidableEq ι] in
lemma mem_members {k : κ} {i : ι} :
    i ∈ members index k ↔ ∃ is, index.lookup k = some is ∧ i ∈ is := by
  rw [members]
  cases index.lookup k <;> simp

lemma members_link (k k' : κ) (i : ι) :
    members (link index k i) k' = if k = k' then insert i (members index k) else
      members index k' := by
  rw [members, link, lookup_insert_eq]
  split_ifs <;> rfl

lemma members_unlink (k k' : κ) (i : ι) :
    members (unlink index k i) k' = if k = k' then (members index k).erase i else
      members index k' := by
  rw [unlink]
  cases hlookup : index.lookup k with
  | none =>
    split_ifs with hk
    · rw [← hk, members, hlookup, Option.getD_none, Finset.erase_empty]
    · rfl
  | some is =>
    have hmembers : members index k = is := by rw [members, hlookup, Option.getD_some]
    rw [hmembers]
    simp only
    by_cases hempty : (is.erase i).card = 0
    · rw [if_pos hempty, members, lookup_erase_eq]
      split_ifs
      · exact (Finset.card_eq_zero.mp hempty).symm
      · rfl
    · rw [if_neg hempty, members, lookup_insert_eq]
      split_ifs <;> rfl

namespace Indexes

lemma empty : Indexes owner (∅ : Store ι ν) ∅ where
  mem_iff i k := by simp [members]
  nonempty k is hk := absurd hk (by simp)

/-- **A new key** is indexed under its owner. -/
lemma link (h : Indexes owner store index) {i : ι} (hfresh : store.lookup i = none) (v : ν) :
    Indexes owner (store.insert i v) (link index (owner v) i) := by
  refine ⟨fun j k => ?_, fun k is hk => ?_⟩
  · rw [members_link, lookup_insert_eq]
    by_cases hj : i = j
    · subst hj
      have hnew : i ∉ members index k := by
        rw [h.mem_iff, hfresh]
        simp
      by_cases hk : owner v = k <;> simp [hk, hnew]
    · rw [if_neg hj, ← h.mem_iff]
      split_ifs with hk
      · rw [← hk, Finset.mem_insert, or_iff_right (Ne.symm hj)]
      · rfl
  · rw [InverseIndex.link, lookup_insert_eq] at hk
    split_ifs at hk
    · rw [← Option.some.inj hk]
      exact Finset.insert_nonempty i _
    · exact h.nonempty k is hk

/-- **A key that is removed** is removed from the index. -/
lemma unlink (h : Indexes owner store index) {i : ι} {v : ν} (hi : store.lookup i = some v) :
    Indexes owner (store.erase i) (unlink index (owner v) i) := by
  refine ⟨fun j k => ?_, fun k is hk => ?_⟩
  · rw [members_unlink, lookup_erase_eq]
    by_cases hj : i = j
    · subst hj
      have hgone : owner v ≠ k → i ∉ members index k := by
        rw [h.mem_iff, hi]
        simp
      by_cases hk : owner v = k
      · simp [hk]
      · simp [hk, hgone hk]
    · rw [if_neg hj, ← h.mem_iff]
      split_ifs with hk
      · rw [← hk, Finset.mem_erase, and_iff_right (Ne.symm hj)]
      · rfl
  · rw [InverseIndex.unlink] at hk
    cases hlookup : index.lookup (owner v) with
    | none =>
      rw [hlookup] at hk
      exact h.nonempty k is hk
    | some held =>
      simp only [hlookup] at hk
      by_cases hempty : (held.erase i).card = 0
      · rw [if_pos hempty, lookup_erase_eq] at hk
        split_ifs at hk
        exact h.nonempty k is hk
      · rw [if_neg hempty, lookup_insert_eq] at hk
        split_ifs at hk
        · rw [← Option.some.inj hk]
          exact Finset.card_ne_zero.mp hempty
        · exact h.nonempty k is hk

lemma members_eq (h : Indexes owner store index) (k : κ) :
    members index k = store.keys.filter fun i => (store.lookup i).any fun v => owner v = k := by
  ext i
  rw [h.mem_iff, Finset.mem_filter, Finmap.mem_keys, Option.any_eq_true]
  simp only [decide_eq_true_eq]
  constructor
  · rintro ⟨v, hv, hk⟩
    exact ⟨Finmap.mem_of_lookup_eq_some hv, v, hv, hk⟩
  · exact fun hi => hi.2

end Indexes

end InverseIndex
