import Mathlib.Data.Finmap
import Mathlib.Algebra.BigOperators.Group.Finset.Basic
import Mathlib.Tactic

/-!
# Keyed logs: finite maps changed by marks and puts

A finite map that is changed in two ways: an entry that is present is *marked* (rewritten by a fixed
function `g`), or a value is *put* under a key. A log is the list of these events.

## Main definitions

* `Store`, `Event`, `run`
* `cell`: what a run does to one key
* `total`: the sum of a weight over all entries

## Main results

* `lookup_run`: a run is determined by its cells
* `run_run_self`, `run_run_comm`, `run_eq_run_iff`
* `total_run_marks`, `total_run_puts`: the exact change of a total
-/

namespace KeyedLog

open List Finmap

abbrev Store (κ ν : Type) := Finmap fun _ : κ => ν

/-- The entries whose value satisfies a predicate. -/
def filterValues {κ ν : Type} (p : ν → Bool) (s : Store κ ν) : Store κ ν where
  entries := s.entries.filter fun e => p e.2
  nodupKeys := Multiset.nodup_keys.mp <|
    Multiset.nodup_of_le (Multiset.map_le_map (Multiset.filter_le _ _)) s.nodupKeys.nodup_keys

lemma lookup_filterValues {κ ν : Type} [DecidableEq κ] (p : ν → Bool) (s : Store κ ν) (k : κ) :
    (filterValues p s).lookup k = (s.lookup k).filter p := by
  ext v
  rw [Finmap.lookup_eq_some_iff, Option.filter_eq_some_iff, Finmap.lookup_eq_some_iff]
  exact Multiset.mem_filter

def mapValues {κ ν μ : Type} (f : ν → μ) (s : Store κ ν) : Store κ μ where
  entries := s.entries.map fun e => ⟨e.1, f e.2⟩
  nodupKeys := Multiset.nodup_keys.mp <| by
    simpa [Multiset.keys, Multiset.map_map] using s.nodupKeys.nodup_keys

lemma lookup_mapValues {κ ν μ : Type} [DecidableEq κ] (f : ν → μ) (s : Store κ ν) (k : κ) :
    (mapValues f s).lookup k = (s.lookup k).map f := by
  ext v
  rw [Finmap.lookup_eq_some_iff, Option.map_eq_some_iff]
  show (⟨k, v⟩ : Sigma fun _ : κ => μ) ∈ s.entries.map _ ↔ _
  simp [Multiset.mem_map, Finmap.lookup_eq_some_iff]

/-- One event of a log: mark the entry under a key, or put a value under it. -/
inductive Event (κ ν : Type) where
  | mark (k : κ)
  | put (k : κ) (v : ν)
  deriving DecidableEq

def Event.key {κ ν : Type} : Event κ ν → κ
  | .mark k => k
  | .put k _ => k

variable {κ ν : Type} [DecidableEq κ] (g : ν → ν)

/-- The effect of one event on a store: marking an absent key does nothing. -/
def apply (s : Store κ ν) : Event κ ν → Store κ ν
  | .mark k =>
    match s.lookup k with
    | some v => s.insert k (g v)
    | none => s
  | .put k v => s.insert k v

/-- The effect of a log, first event first. -/
def run (s : Store κ ν) (es : List (Event κ ν)) : Store κ ν := es.foldl (apply g) s

variable {es : List (Event κ ν)} {k : κ} {order : List κ} {p : ν → Bool} (s : Store κ ν)

@[simp] lemma run_nil : run g s [] = s := rfl

variable {P : ν → Prop} {ε : Type} (e : Event κ ν)

@[simp] lemma run_cons (es : List (Event κ ν)) :
    run g s (e :: es) = run g (apply g s e) es := rfl

lemma run_append (es fs : List (Event κ ν)) :
    run g s (es ++ fs) = run g (run g s es) fs := foldl_append

/-! ## Cells -/

/-- The effect of one event on the value under `k`. -/
def cell (k : κ) (c : Option ν) : Event κ ν → Option ν
  | .mark j => if j = k then c.map g else c
  | .put j v => if j = k then some v else c

lemma lookup_insert_eq (j k : κ) (v : ν) :
    (s.insert j v).lookup k = if j = k then some v else s.lookup k := by
  by_cases h : j = k
  · subst h; simp
  · rw [if_neg h, lookup_insert_of_ne _ (Ne.symm h)]

lemma lookup_union (s t : Store κ ν) (k : κ) : (s ∪ t).lookup k = (s.lookup k).or (t.lookup k) := by
  cases hk : s.lookup k with
  | none => rw [lookup_union_right (lookup_eq_none.mp hk), Option.none_or]
  | some v =>
    rw [lookup_union_left (mem_of_lookup_eq_some hk), hk, Option.some_or]

lemma lookup_foldl_erase (ks : List κ) (s : Store κ ν) (k : κ) :
    (ks.foldl (fun s k => s.erase k) s).lookup k = if k ∈ ks then none else s.lookup k := by
  induction ks generalizing s with
  | nil => simp
  | cons j ks ih =>
    rw [foldl_cons, ih]
    by_cases hk : k = j
    · subst hk
      simp
    · simp [hk, lookup_erase_ne]

lemma mem_foldl_erase {ks : List κ} {s : Store κ ν} :
    k ∈ ks.foldl (fun s k => s.erase k) s ↔ k ∉ ks ∧ k ∈ s := by
  rw [← lookup_isSome, lookup_foldl_erase, ← lookup_isSome]
  split_ifs with hk <;> simp [hk]

lemma mem_foldl_insert {key : ε → κ} {value : ε → ν} {es : List ε} {s : Store κ ν} :
    k ∈ es.foldl (fun s e => s.insert (key e) (value e)) s ↔ k ∈ es.map key ∨ k ∈ s := by
  induction es generalizing s with
  | nil => simp
  | cons e es ih =>
    rw [foldl_cons, ih, mem_insert, map_cons, mem_cons, or_left_comm, or_assoc]

lemma lookup_apply (k : κ) : (apply g s e).lookup k = cell g k (s.lookup k) e := by
  cases e with
  | put j v => exact lookup_insert_eq s j k v
  | mark j =>
    by_cases h : j = k
    · subst h
      cases hs : s.lookup j <;> simp [apply, cell, hs]
    · cases hs : s.lookup j <;> simp [apply, cell, hs, h, lookup_insert_eq]

/-- **A run acts on every cell separately.** -/
theorem lookup_run (es : List (Event κ ν)) (k : κ) :
    (run g s es).lookup k = es.foldl (cell g k) (s.lookup k) := by
  induction es generalizing s with
  | nil => rfl
  | cons e es ih => rw [run_cons, ih, lookup_apply, foldl_cons]

/-- **What a filter shows after a run depends on what it showed before**, if it hides marked
values. -/
theorem filterValues_run_congr (hp : ∀ v, p (g v) = false) {s t : Store κ ν}
    (h : filterValues p s = filterValues p t) (es : List (Event κ ν)) :
    filterValues p (run g s es) = filterValues p (run g t es) := by
  induction es generalizing s t with
  | nil => exact h
  | cons e es ih =>
    rw [run_cons, run_cons]
    apply ih
    apply ext_lookup
    intro k
    have hk : (s.lookup k).filter p = (t.lookup k).filter p := by
      rw [← lookup_filterValues, h, lookup_filterValues]
    rw [lookup_filterValues, lookup_filterValues, lookup_apply, lookup_apply]
    cases e with
    | mark j =>
      by_cases hj : j = k
      · have hhidden : ∀ c : Option ν, (c.map g).filter p = none := by
          rintro (_ | v) <;> simp [hp]
        simp only [cell, if_pos hj, hhidden]
      · simpa only [cell, if_neg hj] using hk
    | put j v =>
      by_cases hj : j = k
      · simp only [cell, if_pos hj]
      · simpa only [cell, if_neg hj] using hk

lemma mem_run {s : Store κ ν} : k ∈ run g s es ↔ k ∈ s ∨ ∃ v, Event.put k v ∈ es := by
  induction es generalizing s with
  | nil => simp
  | cons e es ih =>
    rw [run_cons, ih]
    cases e with
    | mark j =>
      have hmark : k ∈ apply g s (.mark j) ↔ k ∈ s := by
        cases hj : s.lookup j with
        | none => simp [apply, hj]
        | some v =>
          have hmem : j ∈ s := mem_of_lookup_eq_some hj
          simp only [apply, hj, mem_insert, or_iff_right_iff_imp]
          rintro rfl
          exact hmem
      simp [hmark]
    | put j v =>
      simp only [apply, mem_insert, mem_cons, Event.put.injEq]
      constructor
      · rintro ((rfl | hk) | ⟨w, hw⟩)
        · exact .inr ⟨v, .inl ⟨rfl, rfl⟩⟩
        · exact .inl hk
        · exact .inr ⟨w, .inr hw⟩
      · rintro (hk | ⟨w, ⟨rfl, rfl⟩ | hw⟩)
        · exact .inl (.inr hk)
        · exact .inl (.inl rfl)
        · exact .inr ⟨w, hw⟩

lemma foldl_cell_of_key_ne (h : ∀ e ∈ es, e.key ≠ k)
    (c : Option ν) : es.foldl (cell g k) c = c := by
  induction es generalizing c with
  | nil => rfl
  | cons e es ih =>
    have he : e.key ≠ k := h e (by simp)
    have hc : cell g k c e = c := by cases e <;> exact if_neg he
    rw [foldl_cons, hc]
    exact ih (fun e' he' => h e' (by simp [he'])) c

/-- A log that marks `k` and never puts it maps the cell of `k` by the marking function. -/
lemma foldl_cell_of_mark (hg : ∀ v, g (g v) = g v)
    (hm : Event.mark k ∈ es) (hp : ∀ v, Event.put k v ∉ es) (c : Option ν) :
    es.foldl (cell g k) c = c.map g := by
  induction es generalizing c with
  | nil => simp at hm
  | cons e es ih =>
    have hp' : ∀ v, Event.put k v ∉ es := fun v hv => hp v (by simp [hv])
    by_cases hes : Event.mark k ∈ es
    · rw [foldl_cons, ih hes hp']
      cases e with
      | put j v =>
        have hj : j ≠ k := by
          rintro rfl
          exact hp v (by simp)
        simp [cell, hj]
      | mark j =>
        by_cases hj : j = k
        · subst hj
          cases c <;> simp [cell, hg]
        · simp [cell, hj]
    · obtain rfl : e = .mark k := by simpa [hes, eq_comm] using hm
      have hrest : ∀ e ∈ es, e.key ≠ k := by
        intro e he hk
        cases e with
        | mark j => exact hes (hk ▸ he)
        | put j v => exact hp' v (hk ▸ he)
      rw [foldl_cons, foldl_cell_of_key_ne g hrest]
      simp [cell]

omit [DecidableEq κ] in
lemma exists_last_put (h : ∃ v, Event.put k v ∈ es) :
    ∃ pre v post, es = pre ++ .put k v :: post ∧ ∀ w, Event.put k w ∉ post := by
  induction es with
  | nil => simp at h
  | cons e es ih =>
    by_cases hes : ∃ v, Event.put k v ∈ es
    · obtain ⟨pre, v, post, rfl, hpost⟩ := ih hes
      exact ⟨e :: pre, v, post, rfl, hpost⟩
    · push Not at hes
      obtain ⟨v, hv⟩ := h
      obtain rfl : e = .put k v := by
        rcases mem_cons.mp hv with h | h
        · exact h.symm
        · exact absurd h (hes v)
      exact ⟨[], v, es, rfl, hes⟩

lemma foldl_cell_put (k : κ) (v : ν) (pre post : List (Event κ ν)) (c : Option ν) :
    (pre ++ .put k v :: post).foldl (cell g k) c = post.foldl (cell g k) (some v) := by
  simp [foldl_append, cell]

lemma foldl_cell_eq_of_put (h : ∃ v, Event.put k v ∈ es)
    (c c' : Option ν) : es.foldl (cell g k) c = es.foldl (cell g k) c' := by
  obtain ⟨pre, v, post, rfl, -⟩ := exists_last_put h
  rw [foldl_cell_put, foldl_cell_put]

lemma exists_foldl_cell (es : List (Event κ ν)) (v : ν) :
    ∃ w, es.foldl (cell g k) (some v) = some w := by
  induction es generalizing v with
  | nil => exact ⟨v, rfl⟩
  | cons e es ih =>
    obtain ⟨w, hw⟩ : ∃ w, cell g k (some v) e = some w := by
      cases e <;> simp only [cell] <;> split_ifs <;> simp
    rw [foldl_cons, hw]
    exact ih w

/-- A key that is put ends up with a value that has any property of the values put which marking
keeps. -/
lemma exists_foldl_cell_of_put (hg : ∀ v, P v → P (g v)) (hput : ∀ v, Event.put k v ∈ es → P v)
    (h : ∃ v, Event.put k v ∈ es) (c : Option ν) : ∃ v, es.foldl (cell g k) c = some v ∧ P v := by
  obtain ⟨pre, v, post, rfl, -⟩ := exists_last_put h
  rw [foldl_cell_put]
  have hv : P v := hput v (by simp)
  have hpost : ∀ w, Event.put k w ∈ post → P w := fun w hw => hput w (by simp [hw])
  clear hput h
  induction post generalizing v with
  | nil => exact ⟨v, rfl, hv⟩
  | cons e post ih =>
    have hrest : ∀ w, Event.put k w ∈ post → P w := fun w hw => hpost w (by simp [hw])
    rw [foldl_cons]
    by_cases hk : e.key = k
    · cases e with
      | mark j => simpa [cell, show j = k from hk] using ih (g v) (hg v hv) hrest
      | put j w =>
        obtain rfl : j = k := hk
        simpa [cell] using ih w (hpost w (by simp)) hrest
    · have hce : cell g k (some v) e = some v := by cases e <;> exact if_neg hk
      rw [hce]
      exact ih v hv hrest

lemma foldl_cell_idem (hg : ∀ v, g (g v) = g v) (es : List (Event κ ν)) (c : Option ν) :
    es.foldl (cell g k) (es.foldl (cell g k) c) = es.foldl (cell g k) c := by
  by_cases h : ∃ v, Event.put k v ∈ es
  · obtain ⟨pre, v, post, rfl, -⟩ := exists_last_put h
    rw [foldl_cell_put, foldl_cell_put]
  · push Not at h
    by_cases hm : Event.mark k ∈ es
    · rw [foldl_cell_of_mark g hg hm h, foldl_cell_of_mark g hg hm h]
      cases c <;> simp [hg]
    · have hrest : ∀ e ∈ es, e.key ≠ k := by
        intro e he hk
        cases e with
        | mark j => exact hm (hk ▸ he)
        | put j v => exact h v (hk ▸ he)
      rw [foldl_cell_of_key_ne g hrest, foldl_cell_of_key_ne g hrest]

/-- **Replaying a log changes nothing.**

**Proof sketch.** Compare the cells. If the log puts the key, both runs end with what follows the
last put; otherwise it only marks it, and marking is idempotent. -/
theorem run_run_self (hg : ∀ v, g (g v) = g v) (s : Store κ ν) (es : List (Event κ ν)) :
    run g (run g s es) es = run g s es := by
  apply ext_lookup
  intro k
  rw [lookup_run, lookup_run, foldl_cell_idem g hg]

/-- **When two stores become equal**: after a log, exactly if the values under keys it does not put
agree, up to marking if the log marks them. -/
theorem run_eq_run_iff (hg : ∀ v, g (g v) = g v) {s t : Store κ ν} : run g s es = run g t es ↔
      ∀ k, (∀ v, Event.put k v ∉ es) →
        (Event.mark k ∈ es → (s.lookup k).map g = (t.lookup k).map g) ∧
          (Event.mark k ∉ es → s.lookup k = t.lookup k) := by
  have hrest : ∀ k, (∀ v, Event.put k v ∉ es) → Event.mark k ∉ es → ∀ e ∈ es, e.key ≠ k := by
    rintro k hp hm (j | ⟨j, v⟩) he rfl
    · exact hm he
    · exact hp v he
  constructor
  · intro h k hp
    have hk := congrArg (Finmap.lookup k) h
    rw [lookup_run, lookup_run] at hk
    refine ⟨fun hm => ?_, fun hm => ?_⟩
    · rwa [foldl_cell_of_mark g hg hm hp, foldl_cell_of_mark g hg hm hp] at hk
    · rwa [foldl_cell_of_key_ne g (hrest k hp hm), foldl_cell_of_key_ne g (hrest k hp hm)] at hk
  · intro h
    apply ext_lookup
    intro k
    rw [lookup_run, lookup_run]
    by_cases hput : ∃ v, Event.put k v ∈ es
    · exact foldl_cell_eq_of_put g hput _ _
    · push Not at hput
      by_cases hm : Event.mark k ∈ es
      · rw [foldl_cell_of_mark g hg hm hput, foldl_cell_of_mark g hg hm hput, (h k hput).1 hm]
      · rw [foldl_cell_of_key_ne g (hrest k hput hm), foldl_cell_of_key_ne g (hrest k hput hm),
          (h k hput).2 hm]

/-- The last event of the key `k` in the log is a put. -/
def EndsWithPut (k : κ) (es : List (Event κ ν)) : Prop :=
  ∃ pre v post, es = pre ++ .put k v :: post ∧ ∀ e ∈ post, e.key ≠ k

omit [DecidableEq κ] in
lemma endsWithPut_append {es fs : List (Event κ ν)} : EndsWithPut k (es ++ fs) ↔
      EndsWithPut k fs ∨ (EndsWithPut k es ∧ ∀ e ∈ fs, e.key ≠ k) := by
  constructor
  · rintro ⟨pre, v, post, h, hpost⟩
    rcases append_eq_append_iff.mp h with ⟨as, rfl, rfl⟩ | ⟨bs, rfl, hfs⟩
    · exact .inl ⟨as, v, post, rfl, hpost⟩
    · cases bs with
      | nil => exact .inl ⟨[], v, post, by simpa using hfs.symm, hpost⟩
      | cons b bs =>
        obtain ⟨rfl, rfl⟩ : Event.put k v = b ∧ post = bs ++ fs := by simpa using hfs
        refine .inr ⟨⟨pre, v, bs, rfl, fun e he => hpost e (by simp [he])⟩, ?_⟩
        exact fun e he => hpost e (by simp [he])
  · rintro (⟨pre, v, post, rfl, hpost⟩ | ⟨⟨pre, v, post, rfl, hpost⟩, hfs⟩)
    · exact ⟨es ++ pre, v, post, by simp, hpost⟩
    · refine ⟨pre, v, post ++ fs, by simp, fun e he => ?_⟩
      exact (mem_append.mp he).elim (hpost e) (hfs e)

/-- Whether a property that every put value has and every marked value lacks holds of a cell
after a run: exactly when the last event of its key is a put, if it did not hold before. -/
lemma exists_foldl_cell_iff_endsWithPut
    (hg : ∀ v, ¬ P (g v)) (hput : ∀ v, Event.put k v ∈ es → P v) {c : Option ν}
    (hc : ∀ v, c = some v → ¬ P v) :
    (∃ v, es.foldl (cell g k) c = some v ∧ P v) ↔ EndsWithPut k es := by
  constructor
  · -- induction from the end of the log: the last event of `k` decides
    induction es using List.reverseRecOn with
    | nil =>
      rintro ⟨v, hv, hP⟩
      exact absurd hP (hc v hv)
    | append_singleton es e ih =>
      rintro ⟨v, hv, hP⟩
      rw [foldl_append, foldl_cons, foldl_nil] at hv
      by_cases hk : e.key = k
      · cases e with
        | put j w =>
          obtain rfl : j = k := hk
          exact ⟨es, w, [], rfl, by simp⟩
        | mark j =>
          obtain rfl : j = k := hk
          simp only [cell, ↓reduceIte, Option.map_eq_some_iff] at hv
          obtain ⟨w, -, rfl⟩ := hv
          exact absurd hP (hg w)
      · have hce : cell g k (es.foldl (cell g k) c) e = es.foldl (cell g k) c := by
          cases e <;> exact if_neg hk
        rw [hce] at hv
        obtain ⟨pre, w, post, rfl, hpost⟩ := ih (fun w hw => hput w (by simp [hw])) ⟨v, hv, hP⟩
        refine ⟨pre, w, post ++ [e], by simp, fun e' he' => ?_⟩
        rcases mem_append.mp he' with h | h
        · exact hpost e' h
        · rw [mem_singleton.mp h]
          exact hk
  · rintro ⟨pre, v, post, rfl, hpost⟩
    refine ⟨v, ?_, hput v (by simp)⟩
    rw [foldl_cell_put, foldl_cell_of_key_ne g hpost]

/-! ## Logs that commute -/

lemma apply_comm {e f : Event κ ν} (h : e.key = f.key → e = .mark e.key ∧ f = .mark f.key)
    (s : Store κ ν) : apply g (apply g s e) f = apply g (apply g s f) e := by
  apply ext_lookup
  intro k
  simp only [lookup_apply]
  by_cases he : e.key = k
  · by_cases hf : f.key = k
    · obtain ⟨hme, hmf⟩ := h (he.trans hf.symm)
      rw [hme, hmf, he, hf]
    · have hcell : ∀ c, cell g k c f = c := fun c => by cases f <;> exact if_neg hf
      rw [hcell, hcell]
  · have hcell : ∀ c, cell g k c e = c := fun c => by cases e <;> exact if_neg he
    rw [hcell, hcell]

/-- **Logs commute** when they share a key only to mark it. -/
theorem run_run_comm {es fs : List (Event κ ν)}
    (h : ∀ e ∈ es, ∀ f ∈ fs, e.key = f.key → e = .mark e.key ∧ f = .mark f.key)
    (s : Store κ ν) : run g (run g s es) fs = run g (run g s fs) es := by
  have hone : ∀ f : Event κ ν, (∀ e ∈ es, e.key = f.key → e = .mark e.key ∧ f = .mark f.key) →
      ∀ s, apply g (run g s es) f = run g (apply g s f) es := by
    intro f
    clear h
    induction es with
    | nil => exact fun _ s => rfl
    | cons e es ih =>
      intro hf s
      rw [run_cons, ih fun e' he' => hf e' (by simp [he']), apply_comm g (hf e (by simp)), run_cons]
  induction fs generalizing s with
  | nil => rfl
  | cons f fs ih =>
    rw [run_cons, run_cons, hone f fun e he => h e he f (by simp),
      ih fun e he f' hf' => h e he f' (by simp [hf'])]

/-! ## Deleting instead of marking -/

/-- The effect of one event on a store that deletes what is marked. -/
def applyErase (s : Store κ ν) : Event κ ν → Store κ ν
  | .mark k => s.erase k
  | .put k v => s.insert k v

/-- The effect of a log on a store that deletes what is marked. -/
def runErase (s : Store κ ν) (es : List (Event κ ν)) : Store κ ν := es.foldl applyErase s

lemma lookup_erase_eq (j k : κ) : (s.erase j).lookup k = if j = k then none else s.lookup k := by
  by_cases h : j = k
  · subst h
    simp
  · rw [if_neg h, lookup_erase_ne (Ne.symm h)]

/-- One event, seen through a filter that hides marked values and shows the value put. -/
lemma filterValues_apply (hp : ∀ v, p (g v) = false) (s : Store κ ν)
    {e : Event κ ν} (he : ∀ k v, e = .put k v → p v = true) :
    filterValues p (apply g s e) = applyErase (filterValues p s) e := by
  apply ext_lookup
  intro k
  rw [lookup_filterValues, lookup_apply]
  cases e with
  | mark j =>
    rw [applyErase, lookup_erase_eq, lookup_filterValues, cell]
    split_ifs with hj
    · cases s.lookup k <;> simp [hp]
    · rfl
  | put j v =>
    rw [applyErase, lookup_insert_eq, lookup_filterValues, cell]
    split_ifs with hj
    · simp [he j v rfl]
    · rfl

/-- **A store that marks shows what a store that deletes has**, through a filter that hides marked
values and shows all values put. -/
theorem filterValues_run (hp : ∀ v, p (g v) = false) (s : Store κ ν)
    (hput : ∀ k v, Event.put k v ∈ es → p v = true) :
    filterValues p (run g s es) = runErase (filterValues p s) es := by
  induction es generalizing s with
  | nil => rfl
  | cons e es ih =>
    have hhead : ∀ k v, e = .put k v → p v = true := by
      rintro k v rfl
      exact hput k v (by simp)
    rw [run_cons, ih _ fun k v hv => hput k v (by simp [hv]), filterValues_apply g hp s hhead]
    rfl

/-- An event with a function applied to the value put. -/
def Event.map {κ ν μ : Type} (f : ν → μ) : Event κ ν → Event κ μ
  | .mark k => .mark k
  | .put k v => .put k (f v)

/-- **A function of the values commutes with a log** that marks by deletion. -/
theorem mapValues_runErase {μ : Type} (f : ν → μ) (s : Store κ ν) (es : List (Event κ ν)) :
    mapValues f (runErase s es) = runErase (mapValues f s) (es.map (Event.map f)) := by
  induction es generalizing s with
  | nil => rfl
  | cons e es ih =>
    have hstep : mapValues f (applyErase s e) = applyErase (mapValues f s) (e.map f) := by
      apply ext_lookup
      intro k
      rw [lookup_mapValues]
      cases e with
      | mark j | put j v =>
        simp only [applyErase, Event.map, lookup_erase_eq, lookup_insert_eq, lookup_mapValues]
        split_ifs <;> rfl
    change mapValues f (runErase (applyErase s e) es) = _
    rw [ih, hstep]
    rfl

/-! ## Enumerations -/

/-- A list has the entries of a store, each once, in any order. -/
def Enumerates {κ ν : Type} (es : List (κ × ν)) (s : Store κ ν) : Prop :=
  (es.map fun e => (⟨e.1, e.2⟩ : Sigma fun _ : κ => ν) : Multiset (Sigma fun _ : κ => ν)) =
    s.entries

lemma exists_enumerates {κ ν : Type} (s : Store κ ν) : ∃ es, Enumerates es s := by
  obtain ⟨l, hl⟩ := Quot.exists_rep s.entries
  refine ⟨l.map fun e => (e.1, e.2), ?_⟩
  rw [Enumerates, map_map, ← hl]
  exact congrArg _ (map_id l)

lemma Enumerates.mem_iff {es : List (κ × ν)} {s : Store κ ν} (h : Enumerates es s)
    {v : ν} : (k, v) ∈ es ↔ s.lookup k = some v := by
  rw [Finmap.lookup_eq_some_iff, ← h, Multiset.mem_coe, mem_map]
  constructor
  · exact fun hmem => ⟨(k, v), hmem, rfl⟩
  · rintro ⟨⟨j, w⟩, hmem, heq⟩
    obtain ⟨rfl, hvw⟩ := Sigma.mk.inj_iff.mp heq
    rwa [← eq_of_heq hvw]

omit [DecidableEq κ] in
lemma Enumerates.nodup_keys {es : List (κ × ν)} {s : Store κ ν} (h : Enumerates es s) :
    (es.map Prod.fst).Nodup := by
  have hnodup := s.nodupKeys.nodup_keys
  rw [← h, Multiset.keys, Multiset.map_coe, Multiset.coe_nodup, map_map] at hnodup
  exact hnodup

lemma lookup_foldl_insert (es : List (κ × ν)) (hnd : (es.map Prod.fst).Nodup) (t : Store κ ν)
    (k : κ) :
    (∀ v, (k, v) ∈ es → (es.foldl (fun t e => t.insert e.1 e.2) t).lookup k = some v) ∧
      ((∀ v, (k, v) ∉ es) → (es.foldl (fun t e => t.insert e.1 e.2) t).lookup k = t.lookup k) := by
  induction es generalizing t with
  | nil => simp
  | cons e es ih =>
    obtain ⟨hhead, htail⟩ := nodup_cons.mp (map_cons ▸ hnd)
    obtain ⟨hmem, hother⟩ := ih htail (t.insert e.1 e.2)
    rw [foldl_cons]
    constructor
    · intro v hv
      rcases mem_cons.mp hv with rfl | hv
      · -- the key does not come again
        rw [hother fun w hw => hhead (mem_map.mpr ⟨(k, w), hw, rfl⟩), lookup_insert_eq, if_pos rfl]
      · exact hmem v hv
    · intro hk
      have hne : e.1 ≠ k := by
        rintro rfl
        exact hk e.2 (by simp)
      rw [hother fun v hv => hk v (by simp [hv]), lookup_insert_eq, if_neg hne]

/-- **Writing all entries of a store into another one gives their union, in any order.** -/
theorem Enumerates.foldl_insert {es : List (κ × ν)} {s : Store κ ν} (h : Enumerates es s)
    (t : Store κ ν) : es.foldl (fun t e => t.insert e.1 e.2) t = s ∪ t := by
  apply ext_lookup
  intro k
  obtain ⟨hmem, hother⟩ := lookup_foldl_insert es h.nodup_keys t k
  rw [lookup_union]
  cases hk : s.lookup k with
  | none =>
    rw [hother, Option.none_or]
    intro v hv
    rw [h.mem_iff, hk] at hv
    exact nomatch hv
  | some v => rw [hmem v (h.mem_iff.mpr hk), Option.some_or]

/-- A list has the keys of a store, each once, in any order. -/
def ListsKeys (order : List κ) (s : Store κ ν) : Prop := order.Nodup ∧ order.toFinset = s.keys

instance (order : List κ) (s : Store κ ν) : Decidable (ListsKeys order s) :=
  inferInstanceAs (Decidable (_ ∧ _))

/-- The entries of a store in the order of some keys. -/
def inOrder (order : List κ) (s : Store κ ν) : List (κ × ν) :=
  order.filterMap fun k => (s.lookup k).map fun v => (k, v)

lemma ListsKeys.mem_iff {s : Store κ ν} (h : ListsKeys order s) : k ∈ order ↔ k ∈ s := by
  rw [← mem_toFinset, h.2, Finmap.mem_keys]

lemma mem_inOrder {s : Store κ ν} {v : ν} :
    (k, v) ∈ inOrder order s ↔ k ∈ order ∧ s.lookup k = some v := by
  rw [inOrder, mem_filterMap]
  constructor
  · rintro ⟨j, hj, hv⟩
    obtain ⟨w, hw, heq⟩ := Option.map_eq_some_iff.mp hv
    obtain ⟨rfl, rfl⟩ := Prod.mk.inj heq
    exact ⟨hj, hw⟩
  · rintro ⟨hk, hv⟩
    exact ⟨k, hk, by rw [hv]; rfl⟩

lemma ListsKeys.map_fst_inOrder {s : Store κ ν} (h : ListsKeys order s) :
    (inOrder order s).map Prod.fst = order := by
  have hfound : ∀ k ∈ order, ∃ v, s.lookup k = some v := fun k hk =>
    Option.isSome_iff_exists.mp (lookup_isSome.mpr (h.mem_iff.mp hk))
  clear h
  induction order with
  | nil => rfl
  | cons k order ih =>
    rw [forall_mem_cons] at hfound
    obtain ⟨⟨v, hv⟩, hrest⟩ := hfound
    have hcons : inOrder (k :: order) s = (k, v) :: inOrder order s :=
      filterMap_cons_some (by rw [hv]; rfl)
    rw [hcons, map_cons, ih hrest]

/-- **A loop over the keys sees every entry once.** -/
theorem ListsKeys.enumerates {s : Store κ ν} (h : ListsKeys order s) :
    Enumerates (inOrder order s) s := by
  have hnodup : (inOrder order s).Nodup := List.Nodup.of_map Prod.fst (by
    rw [h.map_fst_inOrder]
    exact h.1)
  rw [Enumerates]
  refine Multiset.Nodup.ext ?_ s.nodup_entries |>.mpr fun e => ?_
  · exact Multiset.coe_nodup.mpr (hnodup.map fun e f hef => by
      obtain ⟨hfst, hsnd⟩ := Sigma.mk.inj_iff.mp hef
      exact Prod.ext hfst (eq_of_heq hsnd))
  · obtain ⟨k, v⟩ := e
    rw [Multiset.mem_coe, mem_map, ← Finmap.lookup_eq_some_iff]
    constructor
    · rintro ⟨⟨j, w⟩, hmem, heq⟩
      obtain ⟨rfl, hvw⟩ := Sigma.mk.inj_iff.mp heq
      rw [← eq_of_heq hvw]
      exact (mem_inOrder.mp hmem).2
    · intro hv
      have hk : k ∈ order := h.mem_iff.mpr (mem_of_lookup_eq_some hv)
      exact ⟨(k, v), mem_inOrder.mpr ⟨hk, hv⟩, rfl⟩

/-! ## Totals -/

section Total

variable {M : Type} [AddCommGroup M] (f : κ → ν → M)

/-- The sum of a weight over all entries of a store. -/
def total (s : Store κ ν) : M := (s.entries.map fun e => f e.1 e.2).sum

/-- The summand of `total` at one key: zero when the key is absent. -/
def weight (s : Store κ ν) (k : κ) : M := (s.lookup k).elim 0 (f k)

lemma weight_of_lookup {s : Store κ ν} {k : κ} {v : ν} (h : s.lookup k = some v) :
    weight f s k = f k v := by simp [weight, h]

lemma weight_insert (s : Store κ ν) (j k : κ) (v : ν) :
    weight f (s.insert j v) k = if j = k then f k v else weight f s k := by
  simp only [weight, lookup_insert_eq]
  split_ifs <;> rfl

/-- A total is the sum of the weights of the keys, in any order. -/
theorem ListsKeys.sum_weight {order : List κ} {s : Store κ ν} (h : ListsKeys order s) :
    (order.map (weight f s)).sum = total f s := by
  have hentries : ∀ order : List κ, ((inOrder order s).map fun e => f e.1 e.2).sum =
      (order.map (weight f s)).sum := by
    intro order
    induction order with
    | nil => rfl
    | cons k order ih =>
      rw [map_cons, sum_cons, ← ih]
      cases hk : s.lookup k with
      | none =>
        have hskip : inOrder (k :: order) s = inOrder order s :=
          filterMap_cons_none (by rw [hk]; rfl)
        rw [hskip, weight, hk, Option.elim_none, zero_add]
      | some v =>
        have htake : inOrder (k :: order) s = (k, v) :: inOrder order s :=
          filterMap_cons_some (by rw [hk]; rfl)
        rw [htake, map_cons, sum_cons, weight_of_lookup f hk]
  rw [← hentries, total, ← h.enumerates, Multiset.map_coe, Multiset.sum_coe, map_map]
  rfl

/-- Putting a value changes a total by its weight less the weight it replaces. -/
theorem total_insert (s : Store κ ν) (k : κ) (v : ν) :
    total f (s.insert k v) = total f s - weight f s k + f k v := by
  have hfresh : ∀ (t : Store κ ν) (w : ν), k ∉ t → total f (t.insert k w) = f k w + total f t := by
    intro t w h
    rw [total, total, entries_insert_of_notMem h, Multiset.map_cons, Multiset.sum_cons]
  cases hs : s.lookup k with
  | none =>
    rw [hfresh s v (lookup_eq_none.mp hs), weight, hs]
    simp [add_comm]
  | some w =>
    -- both stores are insertions into the store without `k`
    have hnot : k ∉ s.erase k := notMem_erase_self
    have hsplit : ∀ (t : Store κ ν) (u : ν),
        (∀ j, t.lookup j = if k = j then some u else s.lookup j) →
        t = (s.erase k).insert k u := by
      intro t u ht
      apply ext_lookup
      intro j
      rw [ht, lookup_insert_eq]
      by_cases hj : k = j
      · simp [hj]
      · rw [if_neg hj, if_neg hj, lookup_erase_ne (Ne.symm hj)]
    have h₁ : s = (s.erase k).insert k w := hsplit s w fun j => by
      by_cases hj : k = j
      · subst hj; simp [hs]
      · simp [hj]
    have h₂ : s.insert k v = (s.erase k).insert k v := hsplit _ v fun j => lookup_insert_eq s k j v
    have e₁ : total f s = f k w + total f (s.erase k) := by
      conv_lhs => rw [h₁]
      exact hfresh _ w hnot
    rw [h₂, hfresh _ v hnot, e₁, weight_of_lookup f hs]
    abel

variable {g f}

lemma total_apply_mark (hf : ∀ k v, f k (g v) = 0) (s : Store κ ν) (k : κ) :
    total f (apply g s (.mark k)) = total f s - weight f s k := by
  cases hs : s.lookup k with
  | none => simp [apply, hs, weight]
  | some v => simp [apply, hs, total_insert, hf]

lemma weight_apply_mark (hf : ∀ k v, f k (g v) = 0) (s : Store κ ν) (j k : κ) :
    weight f (apply g s (.mark j)) k = weight f s k - if j = k then weight f s k else 0 := by
  rw [weight, lookup_apply]
  by_cases hj : j = k
  · subst hj
    cases hs : s.lookup j <;> simp [cell, hf]
  · simp [cell, hj, weight]

/-- **A block of marks** takes the weights of the marked keys out of a total, each key once
however often it is marked. -/
theorem total_run_marks (hf : ∀ k v, f k (g v) = 0) (s : Store κ ν) (ks : List κ) :
    total f (run g s (ks.map .mark)) = total f s - ∑ k ∈ ks.toFinset, weight f s k := by
  induction ks generalizing s with
  | nil => simp
  | cons k ks ih =>
    rw [map_cons, run_cons, ih, total_apply_mark hf, toFinset_cons]
    have hsum : ∑ j ∈ ks.toFinset, weight f (apply g s (.mark k)) j =
        ∑ j ∈ ks.toFinset, weight f s j - if k ∈ ks.toFinset then weight f s k else 0 := by
      simp only [weight_apply_mark hf, Finset.sum_sub_distrib]
      congr 1
      exact Finset.sum_ite_eq ks.toFinset k (weight f s)
    rw [hsum]
    by_cases hk : k ∈ ks.toFinset
    · rw [Finset.insert_eq_of_mem hk, if_pos hk]
      abel
    · rw [Finset.sum_insert hk, if_neg hk]
      abel

lemma weight_run_marks (hf : ∀ k v, f k (g v) = 0) (s : Store κ ν) (ks : List κ) (k : κ) :
    weight f (run g s (ks.map .mark)) k = if k ∈ ks then 0 else weight f s k := by
  induction ks generalizing s with
  | nil => simp
  | cons j ks ih =>
    rw [map_cons, run_cons, ih, weight_apply_mark hf]
    by_cases hk : k ∈ ks
    · simp [hk]
    · by_cases hj : j = k
      · simp [hj]
      · simp [hk, hj, Ne.symm hj]

variable (g) in
/-- **A block of puts** under distinct keys adds the weights of the values and takes out the
weights they replace. -/
theorem total_run_puts (s : Store κ ν) (kvs : List (κ × ν)) (hnd : (kvs.map Prod.fst).Nodup) :
    total f (run g s (kvs.map fun e => .put e.1 e.2)) =
      total f s + (kvs.map fun e => f e.1 e.2).sum - (kvs.map fun e => weight f s e.1).sum := by
  induction kvs generalizing s with
  | nil => simp
  | cons e kvs ih =>
    rw [map_cons, nodup_cons] at hnd
    have hw : (kvs.map fun x => weight f (s.insert e.1 e.2) x.1) =
        kvs.map fun x => weight f s x.1 := by
      apply map_congr_left
      intro x hx
      rw [weight_insert, if_neg]
      intro he
      exact hnd.1 (mem_map.mpr ⟨x, hx, he.symm⟩)
    rw [map_cons, run_cons, ih _ hnd.2]
    simp only [apply, map_cons, sum_cons, hw, total_insert]
    abel

end Total

end KeyedLog
