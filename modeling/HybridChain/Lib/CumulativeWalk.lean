import Mathlib.Algebra.BigOperators.Group.Finset.Basic
import Mathlib.Data.List.Infix
import Mathlib.Data.UInt
import Mathlib.Tactic

/-!
# Walks over cumulative weights

The weights of the elements of a list are added up until the sum reaches a target, at which an
element is picked. The relation `≤` on weights need not be compatible with the addition: sums of
machine words wrap around.

## Main definitions

* `walk`, `pick`
* `Dominates`: an element that is picked in every order
* `share`: the number of targets of an element

## Main results

* `forall_perm_pick_eq_iff`, `agree_iff`: when the order does not matter
* `forall_share_eq_iff`: when shares are weights
-/

namespace CumulativeWalk

open scoped BigOperators

variable {α M : Type} [AddCommMonoid M] [LE M] (w : α → M) (t : M)

/-- Add up weights, starting with `c`, until the target is reached: the element and the sum. -/
def walk [DecidableLE M] : M → List α → Option (α × M)
  | _, [] => none
  | c, a :: l => if t ≤ c + w a then some (a, c + w a) else walk (c + w a) l

/-- The element picked by the walk from zero. -/
def pick [DecidableLE M] (l : List α) : Option α := (walk w t 0 l).map Prod.fst

/-- No sum of some of the first elements of a list reaches the target. -/
def Below (c : M) (l : List α) : Prop := ∀ p, p <+: l → p ≠ [] → ¬ t ≤ c + (p.map w).sum

variable {w t}

lemma below_nil (c : M) : Below w t c ([] : List α) := by
  intro p hp hne
  exact absurd (List.prefix_nil.mp hp) hne

variable {l : List α}

lemma below_cons_iff {c : M} {a : α} :
    Below w t c (a :: l) ↔ ¬ t ≤ c + w a ∧ Below w t (c + w a) l := by
  constructor
  · intro h
    refine ⟨?_, fun p hp hne => ?_⟩
    · have hfirst := h [a] ⟨l, rfl⟩ (List.cons_ne_nil a [])
      rwa [List.map_singleton, List.sum_singleton] at hfirst
    · have hcons := h (a :: p) (List.cons_prefix_cons.mpr ⟨rfl, hp⟩) (List.cons_ne_nil a p)
      rwa [List.map_cons, List.sum_cons, ← add_assoc] at hcons
  · rintro ⟨hfirst, hrest⟩ p hp hne
    cases p with
    | nil => exact absurd rfl hne
    | cons b p =>
      obtain ⟨rfl, htail⟩ := List.cons_prefix_cons.mp hp
      rw [List.map_cons, List.sum_cons, ← add_assoc]
      by_cases hnil : p = []
      · subst hnil
        simpa using hfirst
      · exact hrest p htail hnil

section Stop

variable [DecidableLE M] {l : List α} {c : M} {a : α}

/-- **Where a walk stops**: at the first element with which the sum reaches the target. -/
theorem walk_eq_some_iff {d : M} :
    walk w t c l = some (a, d) ↔ ∃ s r, l = s ++ a :: r ∧ Below w t c s ∧
      d = c + (s.map w).sum + w a ∧ t ≤ d := by
  induction l generalizing c with
  | nil => simp [walk]
  | cons b l ih =>
    rw [walk]
    split_ifs with hreach
    · constructor
      · intro h
        obtain ⟨rfl, rfl⟩ := Prod.mk.inj (Option.some.inj h)
        exact ⟨[], l, rfl, below_nil c, by simp, hreach⟩
      · rintro ⟨s, r, hl, hbelow, hd, -⟩
        cases s with
        | nil =>
          obtain ⟨rfl, -⟩ := List.cons_eq_cons.mp hl
          simp [hd]
        | cons e s =>
          obtain ⟨rfl, -⟩ := List.cons_eq_cons.mp hl
          exact absurd hreach (below_cons_iff.mp hbelow).1
    · rw [ih]
      constructor
      · rintro ⟨s, r, rfl, hbelow, hd, ht⟩
        refine ⟨b :: s, r, rfl, below_cons_iff.mpr ⟨hreach, hbelow⟩, ?_, ht⟩
        simp only [hd, List.map_cons, List.sum_cons, add_assoc]
      · rintro ⟨s, r, hl, hbelow, hd, ht⟩
        cases s with
        | nil =>
          obtain ⟨rfl, -⟩ := List.cons_eq_cons.mp hl
          simp only [List.map_nil, List.sum_nil, add_zero] at hd
          exact absurd (hd ▸ ht) hreach
        | cons e s =>
          obtain ⟨rfl, rfl⟩ := List.cons_eq_cons.mp hl
          refine ⟨s, r, rfl, (below_cons_iff.mp hbelow).2, ?_, ht⟩
          simp only [hd, List.map_cons, List.sum_cons, add_assoc]

lemma walk_map {β : Type} {f : β → α} {w' : β → M} {l : List β} (h : ∀ b ∈ l, w (f b) = w' b)
    (c : M) : walk w t c (l.map f) = (walk w' t c l).map (Prod.map f id) := by
  induction l generalizing c with
  | nil => rfl
  | cons b l ih =>
    rw [List.map_cons, walk, walk, h b List.mem_cons_self,
      ih fun a ha => h a (List.mem_cons_of_mem b ha)]
    split_ifs <;> rfl

lemma pick_eq_some_iff : pick w t l = some a ↔ ∃ s r, l = s ++ a :: r ∧ Below w t 0 s ∧
      t ≤ (s.map w).sum + w a := by
  constructor
  · intro h
    obtain ⟨⟨a', d⟩, hwalk, rfl⟩ := Option.map_eq_some_iff.mp h
    obtain ⟨s, r, hl, hbelow, hd, ht⟩ := walk_eq_some_iff.mp hwalk
    exact ⟨s, r, hl, hbelow, by rwa [hd, zero_add] at ht⟩
  · rintro ⟨s, r, hl, hbelow, ht⟩
    have hwalk : walk w t 0 l = some (a, 0 + (s.map w).sum + w a) :=
      walk_eq_some_iff.mpr ⟨s, r, hl, hbelow, rfl, by rwa [zero_add]⟩
    rw [pick, hwalk]
    rfl

lemma below_of_walk_eq_none (h : walk w t c l = none) : Below w t c l := by
  induction l generalizing c with
  | nil => exact below_nil c
  | cons a l ih =>
    rw [walk] at h
    split_ifs at h with hreach
    exact below_cons_iff.mpr ⟨hreach, ih h⟩

lemma exists_pick (hne : l ≠ []) (h : t ≤ (l.map w).sum) : ∃ a ∈ l, pick w t l = some a := by
  cases hpick : pick w t l with
  | none =>
    have hbelow := below_of_walk_eq_none (Option.map_eq_none_iff.mp hpick)
    exact absurd (by rwa [zero_add]) (hbelow l List.prefix_rfl hne)
  | some a =>
    obtain ⟨s, r, rfl, -, -⟩ := pick_eq_some_iff.mp hpick
    exact ⟨a, by simp, rfl⟩

end Stop

section Order

variable [DecidableEq α] (w t)

/-- **An element that is picked wherever it stands**: no sum of others reaches the target, and each
one does with the element. -/
def Dominates (s : Finset α) (v : α) : Prop :=
  ∀ S ⊆ s.erase v, (S.Nonempty → ¬ t ≤ ∑ a ∈ S, w a) ∧ t ≤ (∑ a ∈ S, w a) + w v

variable {w t} {l : List α} {v : α}

lemma toList_append_cons_perm (hnd : l.Nodup) (hv : v ∈ l) {S : Finset α}
    (hS : S ⊆ l.toFinset.erase v) :
    (S.toList ++ v :: (l.toFinset.erase v \ S).toList).Perm l := by
  have hmem : ∀ a ∈ S, a ∈ l := fun a ha => List.mem_toFinset.mp (Finset.mem_of_mem_erase (hS ha))
  have hvS : v ∉ S := fun h => Finset.notMem_erase v l.toFinset (hS h)
  refine (List.perm_ext_iff_of_nodup ?_ hnd).mpr fun a => ?_
  · refine List.nodup_append.mpr ⟨S.nodup_toList, List.nodup_cons.mpr
      ⟨by simp, Finset.nodup_toList _⟩, ?_⟩
    intro a ha b hb heq
    subst heq
    rw [Finset.mem_toList] at ha
    rcases List.mem_cons.mp hb with rfl | hb
    · exact hvS ha
    · exact (Finset.mem_sdiff.mp (Finset.mem_toList.mp hb)).2 ha
  · rw [List.mem_append, List.mem_cons, Finset.mem_toList, Finset.mem_toList, Finset.mem_sdiff,
      Finset.mem_erase, List.mem_toFinset]
    have := hmem a
    by_cases hav : a = v
    · simp [hav, hv]
    · tauto

variable [DecidableLE M]

/-- **The orders agree on an element exactly if it dominates.**

**Proof sketch.** Any set of other elements can be put before the element, and the walk stops there
only if no sum on the way reaches the target. -/
theorem forall_perm_pick_eq_iff (hnd : l.Nodup) (hv : v ∈ l) :
    (∀ l', l'.Perm l → pick w t l' = some v) ↔ Dominates w t l.toFinset v := by
  constructor
  · intro h S hS
    have hvS : v ∉ S := fun hmem => Finset.notMem_erase v l.toFinset (hS hmem)
    have hperm := toList_append_cons_perm hnd hv hS
    obtain ⟨s, r, hsplit, hbelow, hreach⟩ := pick_eq_some_iff.mp (h _ hperm)
    -- the element occurs once, so the walk has stopped right after the set
    have hvl : v ∉ S.toList := by rwa [Finset.mem_toList]
    obtain ⟨hs, -⟩ := (List.append_cons_inj_of_notMem hvl (by simp)).mp hsplit
    subst hs
    have hsum : (S.toList.map w).sum = ∑ a ∈ S, w a := Finset.sum_map_toList S w
    rw [hsum] at hreach
    refine ⟨fun hne => ?_, hreach⟩
    have := hbelow S.toList List.prefix_rfl (by simpa [Finset.nonempty_iff_ne_empty] using hne)
    rwa [zero_add, hsum] at this
  · intro h l' hperm
    obtain ⟨s, r, rfl⟩ := List.append_of_mem (hperm.mem_iff.mpr hv)
    have hnd' : (s ++ v :: r).Nodup := hperm.nodup_iff.mpr hnd
    have hprefix : ∀ p, p <+: s → p.Nodup ∧ p.toFinset ⊆ l.toFinset.erase v := by
      intro p hp
      have hsub : p.Sublist s := hp.sublist
      refine ⟨(List.nodup_append.mp hnd').1.sublist hsub, fun a ha => ?_⟩
      have has : a ∈ s := hsub.subset (List.mem_toFinset.mp ha)
      refine Finset.mem_erase.mpr ⟨?_, List.mem_toFinset.mpr (hperm.mem_iff.mp (by simp [has]))⟩
      rintro rfl
      exact (List.nodup_append.mp hnd').2.2 a has a List.mem_cons_self rfl
    refine pick_eq_some_iff.mpr ⟨s, r, rfl, fun p hp hne => ?_, ?_⟩
    · obtain ⟨hndp, hsub⟩ := hprefix p hp
      rw [zero_add, ← List.sum_toFinset w hndp]
      exact (h _ hsub).1 (List.toFinset_nonempty_iff p |>.mpr hne)
    · obtain ⟨hnds, hsub⟩ := hprefix s List.prefix_rfl
      rw [← List.sum_toFinset w hnds]
      exact (h _ hsub).2

/-- **The orders agree exactly if some element dominates**, provided that all weights together reach
the target. -/
theorem agree_iff (hnd : l.Nodup) (hne : l ≠ []) (h : t ≤ (l.map w).sum) :
    (∀ l₁ l₂, l₁.Perm l → l₂.Perm l → pick w t l₁ = pick w t l₂) ↔
      ∃ v ∈ l, Dominates w t l.toFinset v := by
  constructor
  · intro hagree
    obtain ⟨v, hv, hpick⟩ := exists_pick hne h
    refine ⟨v, hv, (forall_perm_pick_eq_iff hnd hv).mp fun l' hperm => ?_⟩
    rw [hagree l' l hperm (.refl l), hpick]
  · rintro ⟨v, hv, hdom⟩ l₁ l₂ h₁ h₂
    have hall := (forall_perm_pick_eq_iff hnd hv).mpr hdom
    rw [hall l₁ h₁, hall l₂ h₂]

end Order

/-! ## Counting targets -/

section Count

variable {w : α → ℕ} {l s r : List α} {a : α}

lemma below_zero_iff {t : ℕ} : Below w t 0 s ↔ s = [] ∨ (s.map w).sum < t := by
  constructor
  · intro h
    by_cases hnil : s = []
    · exact .inl hnil
    · have := h s List.prefix_rfl hnil
      rw [zero_add] at this
      exact .inr (not_le.mp this)
  · rintro (rfl | hlt) p hp hne
    · exact absurd (List.prefix_nil.mp hp) hne
    · have hsub : (p.map w).sum ≤ (s.map w).sum :=
        (hp.sublist.map w).sum_le_sum fun _ _ => Nat.zero_le _
      rw [zero_add]
      omega

lemma pick_append_cons_iff (hnd : (s ++ a :: r).Nodup) {t : ℕ} : pick w t (s ++ a :: r) = some a ↔
      (s = [] ∨ (s.map w).sum < t) ∧ t ≤ (s.map w).sum + w a := by
  rw [pick_eq_some_iff]
  constructor
  · rintro ⟨s', r', hsplit, hbelow, hreach⟩
    obtain ⟨-, hcons, hdisjoint⟩ := List.nodup_append.mp hnd
    have hbefore : a ∉ s := fun hmem => hdisjoint a hmem a List.mem_cons_self rfl
    have hafter : a ∉ r := (List.nodup_cons.mp hcons).1
    obtain ⟨rfl, -⟩ := (List.append_cons_inj_of_notMem hbefore hafter).mp hsplit
    exact ⟨below_zero_iff.mp hbelow, hreach⟩
  · rintro ⟨hbelow, hreach⟩
    exact ⟨s, r, rfl, below_zero_iff.mpr hbelow, hreach⟩

variable [DecidableEq α] (w)

/-- The number of targets below the total weight at which an element is picked. -/
def share (l : List α) (a : α) : ℕ :=
  ((Finset.range (l.map w).sum).filter fun t => pick w t l = some a).card

variable {w}

/-- **The first element has a target too many**, unless it has all the weight. -/
lemma share_cons_self (hnd : (a :: r).Nodup) :
    share w (a :: r) a = if (r.map w).sum = 0 then w a else w a + 1 := by
  have hset : (Finset.range ((a :: r).map w).sum).filter (fun t => pick w t (a :: r) = some a) =
      Finset.range (if (r.map w).sum = 0 then w a else w a + 1) := by
    ext t
    have hpick := pick_append_cons_iff (w := w) (s := []) (t := t) hnd
    rw [List.nil_append] at hpick
    rw [Finset.mem_filter, Finset.mem_range, Finset.mem_range, hpick, List.map_cons, List.sum_cons]
    simp only [List.map_nil, List.sum_nil, zero_add, true_or, true_and]
    split_ifs <;> omega
  rw [share, hset, Finset.card_range]

/-- **The last element with weight has a target too few**, unless it is the first; the others have
as many as their weight. -/
lemma share_append_cons (hs : s ≠ []) (hnd : (s ++ a :: r).Nodup) :
    share w (s ++ a :: r) a = if (r.map w).sum = 0 then w a - 1 else w a := by
  have hset : (Finset.range ((s ++ a :: r).map w).sum).filter
      (fun t => pick w t (s ++ a :: r) = some a) =
      Finset.Ioc (s.map w).sum ((s.map w).sum + if (r.map w).sum = 0 then w a - 1 else w a) := by
    ext t
    rw [Finset.mem_filter, Finset.mem_range, Finset.mem_Ioc, pick_append_cons_iff hnd,
      List.map_append, List.sum_append, List.map_cons, List.sum_cons]
    simp only [hs, false_or]
    split_ifs <;> omega
  rw [share, hset, Nat.card_Ioc, Nat.add_sub_cancel_left]

/-- **When every element has as many targets as its weight**: exactly if the first one has all the
weight. -/
theorem forall_share_eq_iff (hnd : (a :: r).Nodup) :
    (∀ b ∈ a :: r, share w (a :: r) b = w b) ↔ w a = ((a :: r).map w).sum := by
  rw [List.map_cons, List.sum_cons]
  constructor
  · intro h
    have hfirst := h a List.mem_cons_self
    rw [share_cons_self hnd] at hfirst
    split_ifs at hfirst <;> omega
  · intro h b hb
    have hzero : (r.map w).sum = 0 := by omega
    rcases List.mem_cons.mp hb with rfl | hb
    · rw [share_cons_self hnd, if_pos hzero]
    · obtain ⟨s, r', rfl⟩ := List.append_of_mem hb
      rw [List.map_append, List.sum_append, List.map_cons, List.sum_cons] at hzero
      rw [← List.cons_append] at hnd ⊢
      rw [share_append_cons (List.cons_ne_nil a s) hnd, if_pos (by omega)]
      omega

end Count

/-! ## Machine words -/

section Words

lemma toNat_sum_map_mod (w : α → UInt64) (l : List α) :
    (l.map w).sum.toNat = (l.map fun a => (w a).toNat).sum % 2 ^ 64 := by
  induction l with
  | nil => rfl
  | cons a l ih =>
    rw [List.map_cons, List.sum_cons, List.map_cons, List.sum_cons, UInt64.toNat_add, ih,
      Nat.add_mod_mod]

lemma toNat_sum_map {w : α → UInt64} (h : (l.map fun a => (w a).toNat).sum < 2 ^ 64) :
    (l.map w).sum.toNat = (l.map fun a => (w a).toNat).sum := by
  rw [toNat_sum_map_mod, Nat.mod_eq_of_lt h]

/-- A walk over machine words stops where the walk over their values does, if the sum fits. -/
lemma walk_toNat {w : α → UInt64} {target : UInt64} (c : UInt64)
    (h : c.toNat + (l.map fun a => (w a).toNat).sum < 2 ^ 64) :
    (walk w target c l).map Prod.fst =
      (walk (fun a => (w a).toNat) target.toNat c.toNat l).map Prod.fst := by
  induction l generalizing c with
  | nil => rfl
  | cons a l ih =>
    rw [List.map_cons, List.sum_cons] at h
    have hadd : (c + w a).toNat = c.toNat + (w a).toNat := by
      rw [UInt64.toNat_add]
      omega
    rw [walk, walk, ← hadd]
    simp only [UInt64.le_iff_toNat_le]
    split_ifs
    · rfl
    · apply ih
      omega

end Words

end CumulativeWalk
