import HybridChain.Lib.KeyedLog
import Mathlib.Data.Multiset.Count

/-!
# Votes and majorities

Votes are counted in a store, and a scan over it, in whatever order, keeps the first entry with the
largest count.

## Main definitions

* `tally`, `scan`
* `Wins`: to have more than half

## Main results

* `lt_scan_iff`, `Wins.scan_eq`: a majority is found in every order
-/

namespace Majority

open List
open KeyedLog (Store Enumerates)

variable {α : Type} [DecidableEq α]

/-- More than half of `total` voters vote for `a`. -/
def Wins (votes : Multiset α) (total : ℕ) (a : α) : Prop := total < 2 * votes.count a

instance (votes : Multiset α) (total : ℕ) (a : α) : Decidable (Wins votes total a) :=
  inferInstanceAs (Decidable (_ < _))

lemma wins_coe_iff {votes : List α} {total : ℕ} {a : α} :
    Wins (votes : Multiset α) total a ↔ total < 2 * votes.count a := by
  rw [Wins, Multiset.coe_count]

lemma count_add_count_le_card (votes : Multiset α) {a b : α} (hne : a ≠ b) :
    votes.count a + votes.count b ≤ votes.card := by
  have hsplit : votes.card = votes.count a + (votes.filter fun c => ¬ a = c).card := by
    rw [Multiset.card_eq_countP_add_countP (a = ·) votes, Multiset.countP_eq_card_filter (¬ a = ·)]
    rfl
  have hother : votes.count b ≤ (votes.filter fun c => ¬ a = c).card := by
    rw [← Multiset.count_filter_of_pos (p := fun c => ¬ a = c) hne]
    exact Multiset.count_le_card b _
  omega

/-- **At most one can win.** -/
theorem Wins.unique {votes : Multiset α} {total : ℕ} {a b : α} (htotal : votes.card ≤ total)
    (ha : Wins votes total a) (hb : Wins votes total b) : a = b := by
  by_contra hne
  have hle := count_add_count_le_card votes hne
  unfold Wins at ha hb
  omega

/-! ## Counting -/

def addVote (counts : Store α ℕ) (vote : α) : Store α ℕ :=
  counts.insert vote ((counts.lookup vote).getD 0 + 1)

def tally (votes : List α) : Store α ℕ := votes.foldl addVote ∅

lemma lookup_foldl_addVote (votes : List α) (counts : Store α ℕ) (a : α) :
    (votes.foldl addVote counts).lookup a =
      if a ∈ votes then some ((counts.lookup a).getD 0 + votes.count a) else counts.lookup a := by
  induction votes generalizing counts with
  | nil => simp
  | cons vote votes ih =>
    rw [foldl_cons, ih, addVote, KeyedLog.lookup_insert_eq]
    by_cases hvote : vote = a
    · subst hvote
      by_cases hmem : vote ∈ votes
      · simp [hmem, add_assoc, add_comm]
      · simp [hmem, count_eq_zero.mpr hmem]
    · simp [hvote, Ne.symm hvote]

/-- **What has been counted**: the candidates that have votes, with their numbers. -/
lemma lookup_tally_eq_some_iff {votes : List α} {a : α} {n : ℕ} :
    (tally votes).lookup a = some n ↔ n = votes.count a ∧ 0 < n := by
  rw [tally, lookup_foldl_addVote]
  by_cases hmem : a ∈ votes
  · have hpos := count_pos_iff.mpr hmem
    simp only [hmem, if_true, Finmap.lookup_empty, Option.getD_none, zero_add, Option.some.injEq]
    omega
  · have hzero := count_eq_zero.mpr hmem
    simp only [hmem, if_false, Finmap.lookup_empty, hzero, reduceCtorEq, false_iff]
    omega

/-! ## The largest count -/

/-- The largest count of some entries, if it is larger than that of `best`, and the first entry that
has it. -/
def scan (best : ℕ × α) (entries : List (α × ℕ)) : ℕ × α :=
  entries.foldl (fun best e => if e.2 > best.1 then (e.2, e.1) else best) best

omit [DecidableEq α] in
/-- The result of a scan is the start or an entry, and no entry nor the start exceeds it. -/
lemma scan_spec (best : ℕ × α) (entries : List (α × ℕ)) :
    (scan best entries = best ∨ ((scan best entries).2, (scan best entries).1) ∈ entries) ∧
      best.1 ≤ (scan best entries).1 ∧ ∀ e ∈ entries, e.2 ≤ (scan best entries).1 := by
  induction entries generalizing best with
  | nil => exact ⟨.inl rfl, le_rfl, by simp⟩
  | cons e entries ih =>
    rw [scan, foldl_cons, ← scan]
    by_cases hlarger : e.2 > best.1
    · rw [if_pos hlarger]
      obtain ⟨hresult, hstart, hentries⟩ := ih (e.2, e.1)
      refine ⟨.inr ?_, hlarger.le.trans hstart, forall_mem_cons.mpr ⟨hstart, hentries⟩⟩
      rcases hresult with hsame | hmem
      · rw [hsame]
        exact mem_cons_self
      · exact mem_cons_of_mem _ hmem
    · rw [if_neg hlarger]
      obtain ⟨hresult, hstart, hentries⟩ := ih best
      refine ⟨hresult.imp_right (mem_cons_of_mem _), hstart, ?_⟩
      exact forall_mem_cons.mpr ⟨(not_lt.mp hlarger).trans hstart, hentries⟩

section Counted

variable {votes : List α} {entries : List (α × ℕ)} {total : ℕ} {a : α}

/-- Over the counts of some votes, a scan that ends above zero ends at a candidate with its count.
-/
lemma scan_eq_count (h : Enumerates entries (tally votes)) (start : α)
    (hpos : 0 < (scan (0, start) entries).1) :
    (scan (0, start) entries).1 = votes.count (scan (0, start) entries).2 := by
  rcases (scan_spec (0, start) entries).1 with hsame | hmem
  · rw [hsame] at hpos
    exact absurd hpos (lt_irrefl 0)
  · exact (lookup_tally_eq_some_iff.mp (h.mem_iff.mp hmem)).1

lemma count_le_scan (h : Enumerates entries (tally votes)) (start : α) (a : α) :
    votes.count a ≤ (scan (0, start) entries).1 := by
  rcases Nat.eq_zero_or_pos (votes.count a) with hzero | hpos
  · omega
  · have hmem : (a, votes.count a) ∈ entries :=
      h.mem_iff.mpr (lookup_tally_eq_some_iff.mpr ⟨rfl, hpos⟩)
    exact (scan_spec (0, start) entries).2.2 _ hmem

/-- **The scan finds out whether there is a majority**, with half the number of voters rounded
down. -/
theorem lt_scan_iff (h : Enumerates entries (tally votes)) (start : α) :
    total / 2 < (scan (0, start) entries).1 ↔ ∃ a, Wins (votes : Multiset α) total a := by
  simp only [wins_coe_iff]
  constructor
  · intro hlt
    refine ⟨(scan (0, start) entries).2, ?_⟩
    rw [← scan_eq_count h start (by omega)]
    omega
  · rintro ⟨a, ha⟩
    have hle := count_le_scan h start a
    omega

/-- **The scan finds the one that has the majority**, in whatever order. -/
theorem Wins.scan_eq (hwins : Wins (votes : Multiset α) total a)
    (h : Enumerates entries (tally votes)) (htotal : votes.length ≤ total) (start : α) :
    (scan (0, start) entries).2 = a := by
  have hle := count_le_scan h start a
  have hlt := wins_coe_iff.mp hwins
  have hfound : Wins (votes : Multiset α) total (scan (0, start) entries).2 := by
    rw [wins_coe_iff, ← scan_eq_count h start (by omega)]
    omega
  exact hfound.unique htotal hwins

end Counted

end Majority
