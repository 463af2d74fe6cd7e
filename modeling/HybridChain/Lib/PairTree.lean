import Mathlib.Data.List.Nodup
import Mathlib.Logic.Function.Iterate
import Mathlib.Tactic

/-!
# Trees over a list, built by combining neighbours

A list is reduced level by level: neighbours are combined by a function `f`, and a last element
without a partner with itself.

## Main definitions

* `level`, `root`
* `branch`, `climb`: the neighbours on the way up, and the way up

## Main results

* `climb_branch`: it leads to the root
* `climb_inj`, `branch_eq_iff`: without collisions only by the right neighbours
-/

namespace PairTree

open List

variable {α : Type} (f : α → α → α)

/-! ## Levels -/

/-- The next level: neighbours are combined, a last element without a partner with itself. -/
def level : List α → List α
  | [] => []
  | [a] => [f a a]
  | a :: b :: l => f a b :: level l

/-- A level of odd length with its last element repeated. -/
def pad (l : List α) : List α := if l.length % 2 = 1 then l ++ l.getLast?.toList else l

/-- The next level, where a last element without a partner is an error. -/
def strictLevel : List α → Option (List α)
  | [] => some []
  | [_] => none
  | a :: b :: l => (strictLevel l).map (f a b :: ·)

@[simp] lemma length_level : ∀ l : List α, (level f l).length = (l.length + 1) / 2
  | [] | [_] => by simp [level]
  | _ :: _ :: l => by
    simp only [level, length_cons, length_level l]
    omega

variable {l : List α} {i : ℕ} (a : α)

lemma level_ne_nil (h : l ≠ []) : level f l ≠ [] := by
  have hpos := length_pos_iff.mpr h
  rw [← length_pos_iff, length_level]
  omega

lemma length_pad (l : List α) : (pad l).length = l.length + l.length % 2 := by
  unfold pad
  split_ifs with hodd
  · cases hlast : l.getLast? with
    | none => simp [List.getLast?_eq_none_iff.mp hlast] at hodd
    | some a => simp [hodd]
  · omega

lemma pad_cons_cons (a b : α) : pad (a :: b :: l) = a :: b :: pad l := by
  have hparity : (a :: b :: l).length % 2 = l.length % 2 := by
    simp only [length_cons]
    omega
  unfold pad
  rw [hparity]
  split_ifs with hodd
  · cases l with
    | nil => simp at hodd
    | cons c l => rfl
  · rfl

lemma strictLevel_pad : ∀ l : List α, strictLevel f (pad l) = some (level f l)
  | [] | [_] => rfl
  | a :: b :: l => by rw [pad_cons_cons, strictLevel, strictLevel_pad l, level, Option.map_some]

lemma strictLevel_eq : ∀ l : List α,
    strictLevel f l = if l.length % 2 = 0 then some (level f l) else none
  | [] | [_] => rfl
  | _ :: _ :: l => by
    have hparity : (l.length + 1 + 1) % 2 = l.length % 2 := by omega
    rw [strictLevel, strictLevel_eq l, length_cons, length_cons, hparity]
    split_ifs <;> rfl

lemma level_pad (l : List α) : level f (pad l) = level f l := by
  have heven : (pad l).length % 2 = 0 := by
    rw [length_pad]
    omega
  have hpad := strictLevel_pad f l
  rwa [strictLevel_eq, if_pos heven, Option.some.injEq] at hpad

/-! ## The root -/

def root (l : List α) : Option α := if _h : 1 < l.length then root (level f l) else l.head?
  termination_by l.length
  decreasing_by
    rw [length_level]
    omega

lemma root_of_lt (h : 1 < l.length) : root f l = root f (level f l) := by
  rw [root, dif_pos h]

lemma root_pad (h : 1 < l.length) : root f (pad l) = root f l := by
  have hpad : 1 < (pad l).length := by
    rw [length_pad]
    omega
  rw [root_of_lt f hpad, level_pad, ← root_of_lt f h]

@[simp] lemma root_singleton : root f [a] = some a := by
  rw [root, dif_neg (by simp)]
  rfl

/-- **Induction over the levels** of a list that is not empty. -/
@[elab_as_elim]
theorem level_induction {P : List α → Prop} (single : ∀ a, P [a])
    (step : ∀ l, 1 < l.length → P (level f l) → P l) (l : List α) (hl : l ≠ []) : P l := by
  have hpos := length_pos_iff.mpr hl
  by_cases h : 1 < l.length
  · exact step l h (level_induction single step (level f l) (level_ne_nil f hl))
  · obtain ⟨a, rfl⟩ := length_eq_one_iff.mp (show l.length = 1 by omega)
    exact single a
  termination_by l.length
  decreasing_by
    rw [length_level]
    omega

variable {T : Set (α × α)} {P : α → Prop}

lemma forall_mem_level (hf : ∀ a b, P (f a b)) : ∀ l : List α, ∀ a ∈ level f l, P a
  | [], _, h => absurd h not_mem_nil
  | [a], _, h => by
    obtain rfl := mem_singleton.mp h
    exact hf a a
  | a :: b :: l, _, h => by
    rcases mem_cons.mp h with rfl | h
    · exact hf a b
    · exact forall_mem_level hf l _ h

lemma root_of_forall_mem (hf : ∀ a b, P (f a b)) {l : List α} (h : ∀ a ∈ l, P a)
    {r : α} (hr : root f l = some r) : P r := by
  by_cases hlt : 1 < l.length
  · rw [root_of_lt f hlt] at hr
    exact root_of_forall_mem hf (forall_mem_level f hf l) hr
  · rw [root, dif_neg hlt] at hr
    exact h r (mem_of_mem_head? hr)
  termination_by l.length
  decreasing_by
    rw [length_level]
    omega

/-- The element at the top, where a last element without a partner is an error on every level. -/
def strictRoot (l : List α) : Option α :=
  if _h : 1 < l.length then
    match _hl : strictLevel f l with
    | none => none
    | some next => strictRoot next
  else l.head?
  termination_by l.length
  decreasing_by
    rw [strictLevel_eq] at _hl
    split_ifs at _hl
    rw [← Option.some.inj _hl, length_level]
    omega

lemma strictRoot_singleton : strictRoot f [a] = some a := by
  rw [strictRoot, dif_neg (by simp)]
  rfl

lemma strictRoot_of_lt (h : 1 < l.length) :
    strictRoot f l = if l.length % 2 = 0 then strictRoot f (level f l) else none := by
  rw [strictRoot, dif_pos h]
  split
  · rename_i hnone
    rw [strictLevel_eq] at hnone
    split_ifs at hnone with heven
    rw [if_neg heven]
  · rename_i next hnext
    rw [strictLevel_eq] at hnext
    split_ifs at hnext with heven
    rw [if_pos heven, Option.some.inj hnext]

lemma exists_two_pow_iff {n : ℕ} (h : 1 < n) (heven : n % 2 = 0) :
    (∃ k, n = 2 ^ k) ↔ ∃ k, (n + 1) / 2 = 2 ^ k := by
  constructor
  · rintro ⟨k, rfl⟩
    cases k with
    | zero => simp at h
    | succ k => exact ⟨k, by rw [pow_succ]; omega⟩
  · rintro ⟨k, hk⟩
    exact ⟨k + 1, by rw [pow_succ]; omega⟩

/-- **A reduction that never repeats an element ends exactly if the length is a power of two**, and
then at the root. -/
theorem strictRoot_eq (hl : l ≠ []) {a : α} :
    strictRoot f l = some a ↔ (∃ k, l.length = 2 ^ k) ∧ root f l = some a := by
  refine level_induction f (fun b => ?_) (fun l h ih => ?_) l hl
  · rw [strictRoot_singleton, root_singleton]
    exact ⟨fun heq => ⟨⟨0, rfl⟩, heq⟩, fun heq => heq.2⟩
  · rw [strictRoot_of_lt f h, root_of_lt f h]
    by_cases heven : l.length % 2 = 0
    · rw [if_pos heven, ih, length_level, exists_two_pow_iff h heven]
    · rw [if_neg heven]
      refine ⟨fun hnone => absurd hnone (by simp), ?_⟩
      rintro ⟨⟨k, hk⟩, -⟩
      cases k with
      | zero => omega
      | succ k =>
        rw [pow_succ] at hk
        omega

/-! ## Past the root -/

lemma iterate_level_singleton (n : ℕ) :
    (level f)^[n] [a] = [(fun b => f b b)^[n] a] := by
  induction n with
  | zero => rfl
  | succ n ih => rw [Function.iterate_succ_apply', Function.iterate_succ_apply', ih, level]

/-- **The levels that go on after the root** combine it with itself again and again. -/
theorem exists_iterate_level_iff (hl : l ≠ []) {x : α} :
    (∃ n, (level f)^[n] l = [x]) ↔ ∃ a, root f l = some a ∧ ∃ n, (fun b => f b b)^[n] a = x := by
  refine level_induction f (fun a => ?_) (fun l h ih => ?_) l hl
  · simp only [iterate_level_singleton, root_singleton, List.cons.injEq, and_true,
      Option.some.injEq, exists_eq_left']
  · rw [root_of_lt f h, ← ih]
    constructor
    · rintro ⟨n, hn⟩
      cases n with
      | zero =>
        rw [Function.iterate_zero_apply] at hn
        simp [hn] at h
      | succ n => exact ⟨n, hn⟩
    · rintro ⟨n, hn⟩
      exact ⟨n + 1, hn⟩

/-! ## Branches -/

def neighbour (i : ℕ) : ℕ := if i % 2 = 0 then i + 1 else i - 1

lemma neighbour_lt (h : i < l.length) : neighbour i < (pad l).length := by
  unfold neighbour
  rw [length_pad]
  split_ifs <;> omega

lemma neighbour_add_two (i : ℕ) : neighbour (i + 2) = neighbour i + 2 := by
  unfold neighbour
  split_ifs <;> omega

/-- Combine an element with its neighbour, which stands on the left or on the right of it. -/
def meet (i : ℕ) (a s : α) : α := if i % 2 = 0 then f a s else f s a

/-- Combine an element that starts at an index with the elements of a branch. -/
def climb : α → ℕ → List α → α
  | a, _, [] => a
  | a, i, s :: branch => climb (meet f i a s) (i / 2) branch

/-- The neighbours on the way up, for an index that `next` updates from level to level. -/
def branch (next : ℕ → ℕ) (l : List α) (i : ℕ) : List α :=
  if _h : 1 < l.length then (pad l)[neighbour i]?.toList ++ branch next (level f l) (next i)
  else []
  termination_by l.length
  decreasing_by
    rw [length_level]
    omega

def height (l : List α) : ℕ := if _h : 1 < l.length then height (level f l) + 1 else 0
  termination_by l.length
  decreasing_by
    rw [length_level]
    omega

lemma height_of_lt (h : 1 < l.length) : height f l = height f (level f l) + 1 := by
  rw [height, dif_pos h]

lemma height_of_not_lt (h : ¬ 1 < l.length) : height f l = 0 := by
  rw [height, dif_neg h]

lemma branch_of_not_lt {next : ℕ → ℕ} (h : ¬ 1 < l.length) (i : ℕ) :
    branch f next l i = [] := by
  rw [branch, dif_neg h]

lemma branch_of_lt (next : ℕ → ℕ) (h : 1 < l.length) (hi : i < l.length) :
    ∃ s, (pad l)[neighbour i]? = some s ∧
      branch f next l i = s :: branch f next (level f l) (next i) := by
  have hlt := neighbour_lt hi
  refine ⟨(pad l)[neighbour i], List.getElem?_eq_getElem hlt, ?_⟩
  rw [branch, dif_pos h, List.getElem?_eq_getElem hlt]
  rfl

lemma getElem?_level : ∀ (l : List α) (k : ℕ), (level f l)[k]? =
    (pad l)[2 * k]?.bind fun a => (pad l)[2 * k + 1]?.map (f a)
  | [], _ | [_], 0 | [_], _ + 1 => rfl
  | _ :: _ :: _, 0 => by
    rw [pad_cons_cons]
    rfl
  | _ :: _ :: l, k + 1 => by
    rw [pad_cons_cons, level, List.getElem?_cons_succ, getElem?_level l k]
    rfl

lemma getElem?_pad (hi : i < l.length) : (pad l)[i]? = l[i]? := by
  unfold pad
  split_ifs
  · rw [List.getElem?_append_left hi]
  · rfl

/-- A node and its neighbour, in the order in which they stand. -/
def orient (i : ℕ) (a s : α) : α × α := if i % 2 = 0 then (a, s) else (s, a)

lemma getElem?_pad_orient {a s : α} (ha : l[i]? = some a) (hs : (pad l)[neighbour i]? = some s) :
    (pad l)[2 * (i / 2)]? = some (orient i a s).1 ∧
      (pad l)[2 * (i / 2) + 1]? = some (orient i a s).2 := by
  rw [← getElem?_pad (List.getElem?_eq_some_iff.mp ha).1] at ha
  unfold neighbour at hs
  unfold orient
  rcases Nat.mod_two_eq_zero_or_one i with heven | hodd
  · have hpair : 2 * (i / 2) = i := by omega
    rw [if_pos heven] at hs ⊢
    rw [hpair]
    exact ⟨ha, hs⟩
  · have hpair : 2 * (i / 2) = i - 1 := by omega
    have hnext : i - 1 + 1 = i := by omega
    rw [if_neg (by omega)] at hs ⊢
    rw [hpair, hnext]
    exact ⟨hs, ha⟩

/-- **A node and its neighbour combine to the node above them.** -/
theorem getElem?_level_half {a s : α} (ha : l[i]? = some a)
    (hs : (pad l)[neighbour i]? = some s) : (level f l)[i / 2]? = some (meet f i a s) := by
  obtain ⟨hleft, hright⟩ := getElem?_pad_orient ha hs
  rw [getElem?_level, hleft, hright, meet, orient]
  split_ifs <;> rfl

/-- **The branch of an index leads from its element to the root.** -/
theorem climb_branch (i : ℕ) {a : α} (ha : l[i]? = some a) :
    root f l = some (climb f a i (branch f (· / 2) l i)) := by
  have hl : l ≠ [] := by
    rintro rfl
    simp at ha
  revert i a
  refine level_induction f ?_ ?_ l hl
  · intro b i a ha
    obtain ⟨hi, rfl⟩ := List.getElem?_eq_some_iff.mp ha
    rw [branch_of_not_lt f (by simp), root_singleton, getElem_singleton]
    rfl
  · intro l h ih i a ha
    have hi : i < l.length := (List.getElem?_eq_some_iff.mp ha).1
    obtain ⟨s, hs, hbranch⟩ := branch_of_lt f (· / 2) h hi
    rw [root_of_lt f h, hbranch, climb]
    exact ih _ (getElem?_level_half f ha hs)

/-! ## The pairs of a tree -/

def pairs : List α → List (α × α)
  | [] => []
  | [a] => [(a, a)]
  | a :: b :: l => (a, b) :: pairs l

def treePairs (l : List α) : List (α × α) :=
  if _h : 1 < l.length then pairs l ++ treePairs (level f l) else []
  termination_by l.length
  decreasing_by
    rw [length_level]
    omega

lemma level_eq_map_pairs : ∀ l : List α, level f l = (pairs l).map fun p => f p.1 p.2
  | [] | [_] => rfl
  | _ :: _ :: l => congrArg (_ :: ·) (level_eq_map_pairs l)

lemma mem_pairs_of_getElem? : ∀ {l : List α} {k : ℕ} {a b : α}, (pad l)[2 * k]? = some a →
    (pad l)[2 * k + 1]? = some b → (a, b) ∈ pairs l
  | [], _, _, _, ha, _ => by simp [pad] at ha
  | [c], 0, _, _, ha, hb => by
    obtain rfl : c = _ := by simpa [pad] using ha
    obtain rfl : c = _ := by simpa [pad] using hb
    exact mem_singleton_self _
  | [_], _ + 1, _, _, ha, _ => by simp [pad, mul_add] at ha
  | c :: d :: l, 0, _, _, ha, hb => by
    rw [pad_cons_cons] at ha hb
    obtain rfl : c = _ := by simpa using ha
    obtain rfl : d = _ := by simpa using hb
    exact mem_cons_self
  | _ :: _ :: _, _ + 1, _, _, ha, hb => by
    rw [pad_cons_cons] at ha hb
    exact mem_cons_of_mem _ (mem_pairs_of_getElem? ha hb)

lemma orient_mem_pairs {a s : α} (ha : l[i]? = some a)
    (hs : (pad l)[neighbour i]? = some s) : orient i a s ∈ pairs l :=
  mem_pairs_of_getElem? (getElem?_pad_orient ha hs).1 (getElem?_pad_orient ha hs).2

lemma nodup_pairs (h : l.Nodup) : (pairs l).Nodup := by
  refine List.Nodup.of_map Prod.fst (List.Nodup.sublist ?_ h)
  induction l using pairs.induct with
  | case1 | case2 a => exact .refl _
  | case3 a b l ih => exact ((ih (by simp_all)).cons b).cons_cons a

lemma nodup_level (hT : T.InjOn fun p => f p.1 p.2)
    (hl : ∀ e ∈ pairs l, e ∈ T) (h : l.Nodup) : (level f l).Nodup := by
  rw [level_eq_map_pairs]
  exact (nodup_pairs h).map_on fun x hx y hy hxy => hT (hl x hx) (hl y hy) hxy

/-! ## Uniqueness of branches -/

/-- The pairs that are combined on the way up. -/
def climbPairs : α → ℕ → List α → List (α × α)
  | _, _, [] => []
  | a, i, s :: branch => orient i a s :: climbPairs (meet f i a s) (i / 2) branch

lemma mem_treePairs_of_mem_climbPairs (i : ℕ) {a : α} (ha : l[i]? = some a) :
    ∀ e ∈ climbPairs f a i (branch f (· / 2) l i), e ∈ treePairs f l := by
  have hl : l ≠ [] := by
    rintro rfl
    simp at ha
  revert i a
  refine level_induction f ?_ ?_ l hl
  · intro b i a _ e he
    rw [branch_of_not_lt f (by simp)] at he
    exact absurd he not_mem_nil
  · intro l h ih i a ha e he
    have hi : i < l.length := (List.getElem?_eq_some_iff.mp ha).1
    obtain ⟨s, hs, hbranch⟩ := branch_of_lt f (· / 2) h hi
    rw [hbranch, climbPairs] at he
    rw [treePairs, dif_pos h]
    rcases mem_cons.mp he with rfl | he
    · exact mem_append_left _ (orient_mem_pairs ha hs)
    · exact mem_append_right _ (ih _ (getElem?_level_half f ha hs) e he)

variable {f}

/-- **Without collisions no other branch leads to the same element**: two climbs of the same length
that end at the same element start at the same element and have the same branch. -/
theorem climb_inj (hT : T.InjOn fun p => f p.1 p.2) :
    ∀ {p q : List α} {i : ℕ} {a b : α}, p.length = q.length → (∀ e ∈ climbPairs f a i p, e ∈ T) →
      (∀ e ∈ climbPairs f b i q, e ∈ T) → climb f a i p = climb f b i q → a = b ∧ p = q
  | [], [], _, _, _, _, _, _, h => ⟨h, rfl⟩
  | s :: p, t :: q, i, a, b, hlen, hp, hq, h => by
    have htail : ∀ {c : α} {u : α} {r : List α}, (∀ e ∈ climbPairs f c i (u :: r), e ∈ T) →
        ∀ e ∈ climbPairs f (meet f i c u) (i / 2) r, e ∈ T :=
      fun hr e he => hr e (mem_cons_of_mem _ he)
    obtain ⟨hmeet, rfl⟩ := climb_inj hT (Nat.succ.inj hlen) (htail hp) (htail hq) h
    have hpairs := hT (hp _ mem_cons_self) (hq _ mem_cons_self)
    rw [meet, meet] at hmeet
    rw [orient, orient] at hpairs
    split_ifs at hmeet hpairs with heven <;>
    · obtain ⟨rfl, rfl⟩ := Prod.mk.inj (hpairs hmeet)
      exact ⟨rfl, rfl⟩

/-! ## Two ways to update the index -/

variable {next : ℕ → ℕ}

lemma next_lt_length_level (hnext : ∀ i, next i ≤ i / 2)
    (hi : i < l.length) : next i < (level f l).length := by
  have := hnext i
  rw [length_level]
  omega

lemma length_branch (hnext : ∀ i, next i ≤ i / 2) (i : ℕ) (hi : i < l.length) :
    (branch f next l i).length = height f l := by
  have hl : l ≠ [] := ne_nil_of_length_pos (by omega)
  revert i
  refine level_induction f ?_ ?_ l hl
  · intro a i _
    rw [branch_of_not_lt f (by simp), height_of_not_lt f (by simp)]
    rfl
  · intro l h ih i hi
    obtain ⟨s, -, hbranch⟩ := branch_of_lt f next h hi
    rw [hbranch, height_of_lt f h, length_cons, ih _ (next_lt_length_level hnext hi)]

/-- **When two ways to update the index give the same branch**: exactly if they meet the same
element on every level. -/
theorem branch_eq_iff {next' : ℕ → ℕ} (hnext : ∀ i, next i ≤ i / 2) (hnext' : ∀ i, next' i ≤ i / 2)
    {l : List α} (i j : ℕ) (hi : i < l.length) (hj : j < l.length) :
    branch f next l i = branch f next' l j ↔ ∀ k < height f l,
      (pad ((level f)^[k] l))[neighbour (next^[k] i)]? =
        (pad ((level f)^[k] l))[neighbour (next'^[k] j)]? := by
  have hl : l ≠ [] := ne_nil_of_length_pos (by omega)
  revert i j
  refine level_induction f ?_ ?_ l hl
  · intro a i j _ _
    rw [branch_of_not_lt f (by simp), branch_of_not_lt f (by simp), height_of_not_lt f (by simp)]
    simp
  · intro l h ih i j hi hj
    obtain ⟨s, hs, hbranch⟩ := branch_of_lt f next h hi
    obtain ⟨t, ht, hbranch'⟩ := branch_of_lt f next' h hj
    have hrest := ih _ _ (next_lt_length_level hnext hi) (next_lt_length_level hnext' hj)
    rw [hbranch, hbranch', List.cons.injEq, height_of_lt f h]
    constructor
    · rintro ⟨rfl, htail⟩ k hk
      cases k with
      | zero => exact hs.trans ht.symm
      | succ k => exact hrest.mp htail k (by omega)
    · intro hall
      refine ⟨Option.some.inj ?_, hrest.mpr fun k hk => hall (k + 1) (by omega)⟩
      rw [← hs, ← ht]
      exact hall 0 (by omega)

/-- Different indices of a list without repetitions have different neighbours, also if the last
element is repeated. -/
lemma getElem?_neighbour_ne (hl : l.Nodup) {c e : ℕ} (hce : c < e)
    (he : e < l.length) : (pad l)[neighbour c]? ≠ (pad l)[neighbour e]? := by
  have hc : neighbour c < l.length := by
    unfold neighbour
    split_ifs <;> omega
  rw [getElem?_pad hc]
  by_cases hin : neighbour e < l.length
  · rw [getElem?_pad hin]
    intro heq
    have hindex := (List.Nodup.getElem_inj_iff hl).mp (Option.some.inj
      ((List.getElem?_eq_getElem hc).symm.trans (heq.trans (List.getElem?_eq_getElem hin))))
    unfold neighbour at hindex
    split_ifs at hindex <;> omega
  · -- the last element of an odd level is its own neighbour
    have hlast : e % 2 = 0 ∧ neighbour e = l.length := by
      unfold neighbour at hin ⊢
      split_ifs at hin ⊢ <;> omega
    have hodd : l.length % 2 = 1 := by
      have := hlast.2
      rw [neighbour, if_pos hlast.1] at this
      omega
    have hne : l ≠ [] := ne_nil_of_length_pos (by omega)
    have hpad : (pad l)[neighbour e]? = some (l.getLast hne) := by
      rw [hlast.2, pad, if_pos hodd, List.getLast?_eq_some_getLast hne]
      simp
    rw [hpad, getLast_eq_getElem, List.getElem?_eq_getElem hc]
    intro heq
    have hindex := (List.Nodup.getElem_inj_iff hl).mp (Option.some.inj heq)
    have := hlast.2
    unfold neighbour at hindex this
    split_ifs at hindex this <;> omega

end PairTree
