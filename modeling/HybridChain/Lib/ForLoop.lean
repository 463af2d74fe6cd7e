import Mathlib.Data.List.Iterate
import Mathlib.Tactic

/-!
# Loops with a counter

A loop `for i := start; cond; post { body }` as a function of the number of turns it is given. The
body may leave the loop, set the counter, or not end.

## Main definitions

* `ForLoop`, `run`, `visits`
* `Returns`, `GoesOn`

## Main results

* `run_of_exit`, `run_of_leave`: loops that end
* `not_returns_of_invariant`: loops that do not
-/

/-- What the body of a loop does: it goes on, with a value of the counter, or leaves the loop. -/
inductive ForLoop.Turn (ι σ : Type) where
  | next (i : ι) (s : σ)
  | stop (s : σ)

/-- A loop with a counter in `ι` and a state in `σ`. A body that does not end gives nothing. -/
structure ForLoop (ι σ : Type) where
  cond : ι → σ → Bool
  body : ι → σ → Option (ForLoop.Turn ι σ)
  post : ι → ι

namespace ForLoop

open List

variable {ι σ : Type} (loop : ForLoop ι σ)

/-- The result of a loop that ends within `fuel` turns. -/
def run : ℕ → ι → σ → Option σ
  | 0, _, _ => none
  | fuel + 1, i, s =>
    if loop.cond i s then
      match loop.body i s with
      | none => none
      | some (.next j s') => run fuel (loop.post j) s'
      | some (.stop s') => some s'
    else some s

/-- The values of the counter at which the body is entered in the first `fuel` turns. -/
def visits : ℕ → ι → σ → List ι
  | 0, _, _ => []
  | fuel + 1, i, s =>
    if loop.cond i s then
      i :: match loop.body i s with
        | some (.next j s') => visits fuel (loop.post j) s'
        | _ => []
    else []

/-- The state after at most `fuel` turns. -/
def after : ℕ → ι → σ → σ
  | 0, _, s => s
  | fuel + 1, i, s =>
    if loop.cond i s then
      match loop.body i s with
      | none => s
      | some (.next j s') => after fuel (loop.post j) s'
      | some (.stop s') => s'
    else s

def Returns (i : ι) (s : σ) : Prop := ∃ fuel r, loop.run fuel i s = some r

/-- A turn that goes on and leaves the counter to the loop. -/
def GoesOn (i : ι) (s s' : σ) : Prop := loop.cond i s = true ∧ loop.body i s = some (.next i s')

variable {loop} {i : ι} {s r : σ}

/-! ## Single turns -/

lemma run_of_not_cond (h : loop.cond i s = false) (fuel : ℕ) :
    loop.run (fuel + 1) i s = some s := by
  rw [run, if_neg (by rw [h]; exact Bool.false_ne_true)]

lemma visits_of_not_cond (h : loop.cond i s = false) (fuel : ℕ) : loop.visits fuel i s = [] := by
  cases fuel with
  | zero => rfl
  | succ fuel => rw [visits, if_neg (by rw [h]; exact Bool.false_ne_true)]

lemma after_of_not_cond (h : loop.cond i s = false) (fuel : ℕ) : loop.after fuel i s = s := by
  cases fuel with
  | zero => rfl
  | succ fuel => rw [after, if_neg (by rw [h]; exact Bool.false_ne_true)]

variable {n : ℕ} {s' : σ} {j : ι} (state : ℕ → σ)

section
variable (hcond : loop.cond i s = true)
include hcond

lemma run_of_next (hbody : loop.body i s = some (.next j s')) (fuel : ℕ) :
    loop.run (fuel + 1) i s = loop.run fuel (loop.post j) s' := by
  rw [run, if_pos hcond, hbody]

lemma visits_of_next (hbody : loop.body i s = some (.next j s')) (fuel : ℕ) :
    loop.visits (fuel + 1) i s = i :: loop.visits fuel (loop.post j) s' := by
  rw [visits, if_pos hcond, hbody]

lemma after_of_next (hbody : loop.body i s = some (.next j s')) (fuel : ℕ) :
    loop.after (fuel + 1) i s = loop.after fuel (loop.post j) s' := by
  rw [after, if_pos hcond, hbody]

lemma run_of_stop (hbody : loop.body i s = some (.stop r)) (fuel : ℕ) :
    loop.run (fuel + 1) i s = some r := by
  rw [run, if_pos hcond, hbody]

lemma visits_of_stop (hbody : loop.body i s = some (.stop r)) (fuel : ℕ) :
    loop.visits (fuel + 1) i s = [i] := by
  rw [visits, if_pos hcond, hbody]

end

variable {fuel : ℕ}

lemma run_succ_cases (h : loop.run (fuel + 1) i s = some r) :
    (loop.cond i s = false ∧ s = r) ∨ loop.cond i s = true ∧ (loop.body i s = some (.stop r) ∨
        ∃ j s', loop.body i s = some (.next j s') ∧ loop.run fuel (loop.post j) s' = some r) := by
  rw [run] at h
  split_ifs at h with hcond
  · refine Or.inr ⟨hcond, ?_⟩
    rcases hbody : loop.body i s with _ | ⟨j, s'⟩ | s'
    · rw [hbody] at h
      exact absurd h (by simp)
    · rw [hbody] at h
      exact Or.inr ⟨j, s', rfl, h⟩
    · rw [hbody] at h
      cases h
      exact Or.inl rfl
  · exact Or.inl ⟨Bool.eq_false_iff.mpr hcond, Option.some.inj h⟩

/-! ## More turns than needed -/

/-- **More turns do not enter the body again.** -/
theorem visits_eq_of_run {fuel' : ℕ} (h : loop.run fuel i s = some r) (hle : fuel ≤ fuel') :
    loop.visits fuel' i s = loop.visits fuel i s := by
  induction fuel generalizing fuel' i s with
  | zero => exact absurd h (by simp [run])
  | succ fuel ih =>
    obtain ⟨fuel', rfl⟩ : ∃ n, fuel' = n + 1 := ⟨fuel' - 1, by omega⟩
    obtain ⟨hcond, -⟩ | ⟨hcond, hbody | ⟨j, s', hbody, hrest⟩⟩ := run_succ_cases h
    · rw [visits_of_not_cond hcond, visits_of_not_cond hcond]
    · rw [visits_of_stop hcond hbody, visits_of_stop hcond hbody]
    · rw [visits_of_next hcond hbody, visits_of_next hcond hbody, ih hrest (by omega)]

lemma visits_prefix {fuel' : ℕ} (hle : fuel ≤ fuel') :
    loop.visits fuel i s <+: loop.visits fuel' i s := by
  induction fuel generalizing fuel' i s with
  | zero => exact nil_prefix
  | succ fuel ih =>
    obtain ⟨fuel', rfl⟩ : ∃ n, fuel' = n + 1 := ⟨fuel' - 1, by omega⟩
    rw [visits, visits]
    split_ifs
    · rw [prefix_cons_inj]
      split
      · exact ih (by omega)
      · exact nil_prefix
    · exact nil_prefix

lemma nodup_visits_of_run (h : loop.run fuel i s = some r)
    (hnodup : (loop.visits fuel i s).Nodup) (fuel' : ℕ) : (loop.visits fuel' i s).Nodup := by
  have hinit : loop.visits fuel' i s <+: loop.visits (max fuel fuel') i s :=
    visits_prefix (Nat.le_max_right fuel fuel')
  rw [visits_eq_of_run h (Nat.le_max_left fuel fuel')] at hinit
  exact hnodup.sublist hinit.sublist

/-- What holds of the counter from turn to turn holds wherever the body is entered. -/
theorem forall_mem_visits {P : ι → Prop}
    (h : ∀ i s j s', P i → loop.body i s = some (.next j s') → P (loop.post j)) (hi : P i)
    (fuel : ℕ) : ∀ k ∈ loop.visits fuel i s, P k := by
  induction fuel generalizing i s with
  | zero => exact fun k hk => absurd hk not_mem_nil
  | succ fuel ih =>
    rw [visits]
    split_ifs
    · refine forall_mem_cons.mpr ⟨hi, ?_⟩
      split
      · rename_i hbody
        exact ih (h i s _ _ hi hbody)
      · exact fun k hk => absurd hk not_mem_nil
    · exact fun k hk => absurd hk not_mem_nil

/-! ## Many turns -/

section
variable (h : ∀ k < n, loop.GoesOn (loop.post^[k] i) (state k) (state (k + 1)))
include h

/-- **Any number of turns at once**, through the states `state 0`, `state 1` and so on. -/
theorem run_turns (fuel : ℕ) :
    loop.run (n + fuel) i (state 0) = loop.run fuel (loop.post^[n] i) (state n) := by
  induction n generalizing fuel with
  | zero => rw [Nat.zero_add, Function.iterate_zero_apply]
  | succ n ih =>
    obtain ⟨hcond, hbody⟩ := h n (Nat.lt_succ_self n)
    rw [Nat.add_right_comm, Nat.add_assoc, ih (fun k hk => h k (hk.trans n.lt_succ_self)),
      run_of_next hcond hbody, Function.iterate_succ_apply']

/-- The body is entered at the values of the counter, one after the other. -/
theorem visits_turns (fuel : ℕ) :
    loop.visits (n + fuel) i (state 0) =
      List.iterate loop.post i n ++ loop.visits fuel (loop.post^[n] i) (state n) := by
  induction n generalizing fuel with
  | zero => rw [Nat.zero_add]; rfl
  | succ n ih =>
    obtain ⟨hcond, hbody⟩ := h n (Nat.lt_succ_self n)
    have hiterate : List.iterate loop.post i (n + 1) =
        List.iterate loop.post i n ++ [loop.post^[n] i] := iterate_add _ _ n 1
    rw [Nat.add_right_comm, Nat.add_assoc, ih (fun k hk => h k (hk.trans n.lt_succ_self)),
      visits_of_next hcond hbody, Function.iterate_succ_apply', hiterate, append_assoc,
      singleton_append]

/-- The loop ends after `n` turns because its condition fails. -/
theorem run_of_exit (hexit : loop.cond (loop.post^[n] i) (state n) = false) (hfuel : n < fuel) :
    loop.run fuel i (state 0) = some (state n) ∧
      loop.visits fuel i (state 0) = List.iterate loop.post i n := by
  obtain ⟨extra, rfl⟩ : ∃ m, fuel = n + (m + 1) := ⟨fuel - n - 1, by omega⟩
  rw [run_turns state h, run_of_not_cond hexit, visits_turns state h, visits_of_not_cond hexit,
    append_nil]
  exact ⟨rfl, rfl⟩

/-- The loop ends in its `n + 1`st turn because the body leaves it. -/
theorem run_of_leave (hcond : loop.cond (loop.post^[n] i) (state n) = true)
    (hbody : loop.body (loop.post^[n] i) (state n) = some (.stop r)) (hfuel : n < fuel) :
    loop.run fuel i (state 0) = some r ∧
      loop.visits fuel i (state 0) = List.iterate loop.post i (n + 1) := by
  obtain ⟨extra, rfl⟩ : ∃ m, fuel = n + (m + 1) := ⟨fuel - n - 1, by omega⟩
  have hiterate : List.iterate loop.post i (n + 1) =
      List.iterate loop.post i n ++ [loop.post^[n] i] := iterate_add _ _ n 1
  rw [run_turns state h, run_of_stop hcond hbody, visits_turns state h,
    visits_of_stop hcond hbody, hiterate]
  exact ⟨rfl, rfl⟩

end

/-! ## Loops that do not end -/

/-- **A loop that keeps going does not end.** -/
theorem not_returns_of_invariant {I : ι → σ → Prop} (h : ∀ i s, I i s → loop.cond i s = true ∧
      ∃ j s', loop.body i s = some (.next j s') ∧ I (loop.post j) s') (hI : I i s) :
    ¬ loop.Returns i s := by
  rintro ⟨fuel, r, hrun⟩
  induction fuel generalizing i s with
  | zero => exact absurd hrun (by simp [run])
  | succ fuel ih =>
    obtain ⟨hcond, j, s', hbody, hnext⟩ := h i s hI
    rw [run_of_next hcond hbody] at hrun
    exact ih hnext hrun

/-! ## Counters that are words -/

lemma iterate_add_one (i : UInt64) (k : ℕ) : (· + 1)^[k] i = i + UInt64.ofNat k := by
  induction k with
  | zero => exact (UInt64.add_zero i).symm
  | succ k ih =>
    rw [Function.iterate_succ_apply', ih, UInt64.ofNat_add]
    exact UInt64.add_assoc i (UInt64.ofNat k) 1

lemma toNat_iterate_add_one {i : UInt64} {k : ℕ} (h : i.toNat + k < 2 ^ 64) :
    ((· + 1)^[k] i).toNat = i.toNat + k := by
  rw [iterate_add_one, UInt64.toNat_add, UInt64.toNat_ofNat', Nat.add_mod_mod, Nat.mod_eq_of_lt h]

lemma iterate_sub_one (i : UInt64) (k : ℕ) : (· - 1)^[k] i = i - UInt64.ofNat k := by
  induction k with
  | zero => exact (UInt64.sub_zero i).symm
  | succ k ih =>
    rw [Function.iterate_succ_apply', ih, UInt64.ofNat_add]
    rw [← UInt64.toNat_inj, UInt64.toNat_sub, UInt64.toNat_sub, UInt64.toNat_sub, UInt64.toNat_add]
    have hone : (UInt64.ofNat 1).toNat = 1 := rfl
    have hlt := i.toNat_lt
    have hlt' := (UInt64.ofNat k).toNat_lt
    rw [UInt64.toNat_one, hone]
    omega

lemma toNat_iterate_sub_one {i : UInt64} {k : ℕ} (h : k ≤ i.toNat) :
    ((· - 1)^[k] i).toNat = i.toNat - k := by
  have hlt := i.toNat_lt
  rw [iterate_sub_one, UInt64.toNat_sub, UInt64.toNat_ofNat']
  omega

lemma nodup_iterate_sub_one (i : UInt64) (hn : n ≤ 2 ^ 64) : (List.iterate (· - 1) i n).Nodup := by
  have hlt : ∀ k ∈ List.range n, k < 2 ^ 64 := fun k hk => (mem_range.mp hk).trans_le hn
  rw [← range_map_iterate]
  refine List.Nodup.map_on (fun k hk l hl heq => ?_) nodup_range
  rw [iterate_sub_one, iterate_sub_one, ← UInt64.toNat_inj, UInt64.toNat_sub, UInt64.toNat_sub,
    UInt64.toNat_ofNat_of_lt' (hlt k hk), UInt64.toNat_ofNat_of_lt' (hlt l hl)] at heq
  have hk := hlt k hk
  have hl := hlt l hl
  have hi := i.toNat_lt
  omega

end ForLoop
