import Mathlib.Algebra.Order.Group.Defs
import Mathlib.Tactic

/-!
# Counters that are reset when somebody arrives

Arrivals are counted and refused from some number on. The counter starts again with the first
arrival that comes more than an interval after the last start.

## Main definitions

* `Counter`, `arrive`
* `acceptedWithin`: the accepted arrivals of an interval

## Main results

* `limit_le_sinceStart_of_refused`: only a full counter refuses
* `acceptedWithin_le`: an interval has at most twice the limit
-/

namespace WindowCounter

open List

/-- The number of arrivals accepted since the counter was started, and when this was. -/
structure Counter (T : Type) where
  count : ℕ
  lastReset : T

inductive Verdict where
  /-- Accepted, as the first one of a counter that is started. -/
  | started
  /-- Accepted, and counted by a running counter. -/
  | counted
  | refused
  deriving DecidableEq

def Verdict.accepted : Verdict → Bool
  | .started => true
  | .counted => true
  | .refused => false

variable {T : Type} [AddCommGroup T] [LinearOrder T] (limit : ℕ) (interval : T)

def arrive : Option (Counter T) → T → Option (Counter T) × Verdict
  | none, now => (some ⟨1, now⟩, .started)
  | some c, now =>
    if interval < now - c.lastReset then (some ⟨1, now⟩, .started)
    else if limit ≤ c.count then (some c, .refused)
    else (some { c with count := c.count + 1 }, .counted)

def after (c : Option (Counter T)) (times : List T) : Option (Counter T) :=
  times.foldl (fun c now => (arrive limit interval c now).1) c

/-- The verdicts on some arrivals, with their times. -/
def verdicts : Option (Counter T) → List T → List (T × Verdict)
  | _, [] => []
  | c, now :: times =>
    (now, (arrive limit interval c now).2) :: verdicts (arrive limit interval c now).1 times

/-- The number of arrivals accepted since the last start, if there were `n` before. -/
def sinceStartFrom (n : ℕ) (vs : List Verdict) : ℕ := vs.foldl (fun n v => match v with
    | .started => 1
    | .counted => n + 1
    | .refused => n) n

/-- The number of arrivals accepted since the last start. -/
def sinceStart (vs : List Verdict) : ℕ := sinceStartFrom 0 vs

/-- The number of arrivals that are accepted at a time in a closed interval. -/
def acceptedWithin (first last : T) (vs : List (T × Verdict)) : ℕ :=
  vs.countP fun v => v.2.accepted ∧ first ≤ v.1 ∧ v.1 ≤ last

variable {limit interval} (c : Option (Counter T))

@[simp] lemma length_verdicts (times : List T) :
    (verdicts limit interval c times).length = times.length := by
  induction times generalizing c with
  | nil => rfl
  | cons now times ih => rw [verdicts, length_cons, length_cons, ih]

lemma verdicts_append (times later : List T) :
    verdicts limit interval c (times ++ later) = verdicts limit interval c times ++
        verdicts limit interval (after limit interval c times) later := by
  induction times generalizing c with
  | nil => rfl
  | cons now times ih =>
    rw [cons_append, verdicts, ih, verdicts, cons_append]
    rfl

/-! ## What is counted -/

def number (c : Option (Counter T)) : ℕ := c.elim 0 Counter.count

/-- **One arrival is counted** as its verdict says. -/
lemma sinceStartFrom_arrive (limit : ℕ) (interval : T) (c : Option (Counter T)) (now : T) :
    sinceStartFrom (number c) [(arrive limit interval c now).2] =
      number (arrive limit interval c now).1 := by
  cases c with
  | none => rfl
  | some c =>
    rw [arrive]
    split_ifs <;> rfl

/-- **The counter is right**: it has the number of arrivals accepted since the last start. -/
theorem sinceStart_verdicts (times : List T) :
    sinceStart ((verdicts limit interval none times).map Prod.snd) =
      number (after limit interval none times) := by
  have hrun : ∀ (times : List T) (c : Option (Counter T)),
      sinceStartFrom (number c) ((verdicts limit interval c times).map Prod.snd) =
        number (after limit interval c times) := by
    intro times
    induction times with
    | nil => exact fun _ => rfl
    | cons now times ih =>
      intro c
      rw [verdicts, map_cons, sinceStartFrom, foldl_cons]
      have hstep := sinceStartFrom_arrive limit interval c now
      rw [sinceStartFrom, foldl_cons, foldl_nil] at hstep
      rw [hstep]
      exact ih _
  exact hrun times none

lemma limit_le_number_of_refused {c : Option (Counter T)} {now : T}
    (h : (arrive limit interval c now).2 = .refused) : limit ≤ number c := by
  cases c with
  | none => cases h
  | some c =>
    rw [arrive] at h
    split_ifs at h with hstart hlimit
    exact hlimit

variable {times : List T}

/-- **Nobody is refused** before the limit is reached. -/
theorem limit_le_sinceStart_of_refused {before rest : List (T × Verdict)} {now : T}
    (h : verdicts limit interval none times = before ++ (now, .refused) :: rest) :
    limit ≤ sinceStart (before.map Prod.snd) := by
  have hlt : before.length < times.length := by
    have hlen := congrArg List.length h
    rw [length_verdicts, length_append, length_cons] at hlen
    omega
  have hsplit : times = times.take before.length ++
      times[before.length] :: times.drop (before.length + 1) := by simp
  rw [hsplit, verdicts_append, verdicts] at h
  obtain ⟨hbefore, hrefused⟩ := append_inj h (by simpa using hlt.le)
  rw [List.cons.injEq, Prod.mk.injEq] at hrefused
  rw [← hbefore, sinceStart_verdicts]
  exact limit_le_number_of_refused hrefused.1.2

/-! ## What an interval can have -/

section Intervals

variable [IsOrderedAddMonoid T]

/-- What is known of a counter when `n` arrivals were accepted in the interval that begins at
`first`, and none so far was after `last`. A stretch that began before has been counted whole;
there is room for one more, and a third one begins too late. -/
structure Consistent (limit : ℕ) (interval first last : T) (c : Counter T) (n : ℕ) : Prop where
  reset_le : c.lastReset ≤ last
  count_le : c.count ≤ limit
  not_yet : last < first → n = 0
  early : c.lastReset < first → n ≤ c.count
  inside : c.lastReset ≤ first + interval → n ≤ limit + c.count
  bound : n ≤ 2 * limit

/-- Whether a verdict counts for an interval. -/
def within (first last now : T) (v : Verdict) : ℕ :=
  if v.accepted ∧ first ≤ now ∧ now ≤ last then 1 else 0

omit [AddCommGroup T] [IsOrderedAddMonoid T] in
lemma acceptedWithin_cons (first last now : T) (v : Verdict) (vs : List (T × Verdict)) :
    acceptedWithin first last ((now, v) :: vs) =
      within first last now v + acceptedWithin first last vs := by
  rw [acceptedWithin, countP_cons, add_comm]
  simp [within, acceptedWithin]

omit [AddCommGroup T] [IsOrderedAddMonoid T] in
lemma within_le_one (first last now : T) (v : Verdict) : within first last now v ≤ 1 := by
  unfold within
  split_ifs <;> omega

omit [AddCommGroup T] [IsOrderedAddMonoid T] in
lemma within_eq_zero_of_lt {first last now : T} (h : now < first) (v : Verdict) :
    within first last now v = 0 :=
  if_neg fun hin => absurd hin.2.1 (not_le.mpr h)

omit [AddCommGroup T] [IsOrderedAddMonoid T] in
lemma within_eq_zero_of_gt {first last now : T} (h : last < now) (v : Verdict) :
    within first last now v = 0 :=
  if_neg fun hin => absurd hin.2.2 (not_le.mpr h)

variable {first last now : T} {c : Counter T} {n : ℕ}

omit [IsOrderedAddMonoid T] in
lemma consistent_start (hlimit : 1 ≤ limit) (hearly : now < first → n = 0)
    (hinside : now ≤ first + interval → n ≤ limit) (hbound : n ≤ 2 * limit) :
    Consistent limit interval first now ⟨1, now⟩
      (n + within first (first + interval) now .started) := by
  have hone := within_le_one first (first + interval) now .started
  refine ⟨le_rfl, hlimit, fun hlt => ?_, fun hlt => ?_, fun hle => ?_, ?_⟩
  · rw [hearly hlt, within_eq_zero_of_lt hlt]
  · rw [hearly hlt, within_eq_zero_of_lt hlt]
    exact Nat.zero_le _
  · have hn := hinside hle
    dsimp only
    omega
  · rcases le_or_gt now (first + interval) with hle | hgt
    · have hn := hinside hle
      omega
    · rw [within_eq_zero_of_gt hgt]
      omega

/-- **One arrival keeps the counter consistent** with the interval. -/
lemma Consistent.arrive (hlimit : 1 ≤ limit) (h : Consistent limit interval first last c n)
    (hnow : last ≤ now) : ∃ c', (WindowCounter.arrive limit interval (some c) now).1 = some c' ∧
      Consistent limit interval first now c' (n + within first (first + interval) now
        (WindowCounter.arrive limit interval (some c) now).2) := by
  have hearly : now < first → n = 0 := fun hlt => h.not_yet (hnow.trans_lt hlt)
  have hreset : c.lastReset ≤ now := h.reset_le.trans hnow
  rw [WindowCounter.arrive]
  split_ifs with hstart hfull
  · refine ⟨_, rfl, consistent_start hlimit hearly (fun hle => ?_) h.bound⟩
    have hbefore : c.lastReset < first := by
      have hlt : interval + c.lastReset < first + interval :=
        (lt_sub_iff_add_lt.mp hstart).trans_le hle
      rwa [add_comm first, add_lt_add_iff_left] at hlt
    exact (h.early hbefore).trans h.count_le
  · have hzero : within first (first + interval) now .refused = 0 := if_neg fun hin => nomatch hin.1
    rw [hzero]
    exact ⟨c, rfl, hreset, h.count_le, hearly, h.early, h.inside, h.bound⟩
  · have hone := within_le_one first (first + interval) now .counted
    have hcount := not_le.mp hfull
    refine ⟨_, rfl, ?_⟩
    dsimp only
    refine ⟨hreset, hcount, fun hlt => ?_, fun hlt => ?_, fun hle => ?_, ?_⟩
    · rw [hearly hlt, within_eq_zero_of_lt hlt]
    · have hn := h.early hlt
      dsimp only
      omega
    · have hn := h.inside hle
      dsimp only
      omega
    · rcases le_or_gt now (first + interval) with hle | hgt
      · have hn := h.inside (hreset.trans hle)
        omega
      · rw [within_eq_zero_of_gt hgt]
        exact h.bound

lemma Consistent.acceptedWithin_le (hlimit : 1 ≤ limit)
    (h : Consistent limit interval first last c n) (hsorted : (last :: times).Pairwise (· ≤ ·)) :
    n + acceptedWithin first (first + interval) (verdicts limit interval (some c) times) ≤
      2 * limit := by
  induction times generalizing c n last with
  | nil => exact h.bound
  | cons now times ih =>
    rw [pairwise_cons] at hsorted
    obtain ⟨c', hc', hnext⟩ := h.arrive hlimit (hsorted.1 now (by simp))
    have hrest := ih hnext hsorted.2
    rwa [verdicts, acceptedWithin_cons, hc', ← Nat.add_assoc]

/-- **An interval has at most twice the limit**: arrivals in order of time, from the beginning. -/
theorem acceptedWithin_le (hlimit : 1 ≤ limit) (hsorted : times.Pairwise (· ≤ ·))
    (first : T) :
    acceptedWithin first (first + interval) (verdicts limit interval none times) ≤ 2 * limit := by
  cases times with
  | nil => exact Nat.zero_le _
  | cons now times =>
    have hfirst : Consistent limit interval first now ⟨1, now⟩
        (0 + within first (first + interval) now .started) :=
      consistent_start hlimit (fun _ => rfl) (fun _ => Nat.zero_le _) (Nat.zero_le _)
    have hrest := hfirst.acceptedWithin_le hlimit hsorted
    rwa [Nat.zero_add, ← acceptedWithin_cons] at hrest

end Intervals

end WindowCounter
