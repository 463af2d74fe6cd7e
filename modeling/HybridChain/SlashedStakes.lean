import HybridChain.StakeLedger

/-!
# Stakes of slashed validators

Slashing sets the status of a validator and halves its stake; whether an address may be selected is
decided from the stake alone. Amounts are converted as `Float.toUInt64` does.

## Main definitions

* `stakeStep`, `violationStep`
* `Barred`: an address that stays ineligible

## Main results

* `slashing_effective_iff`: when slashing keeps a validator out
-/

namespace HybridChain

open List
open KeyedLog (Store)

/-! ## Slashing and selection -/

namespace StakePool

/-- The operations on the stakes after a validator has been slashed. -/
inductive StakeOp where
  | addStake (walletAddress hostID : String) (amount : Float)
  | selectValidator (order : List String) (blockHeight : UInt64) (previousHash : String)
  | recordViolation (address : String)

def stakeStep (C : Crypto) (sp : StakePool) (op : ℤ × StakeOp) : StakePool :=
  match op.2 with
  | .addStake walletAddress hostID amount =>
    (sp.addStake Float.toUInt64 walletAddress hostID amount op.1).1
  | .selectValidator order blockHeight previousHash =>
    (sp.selectValidator C order blockHeight previousHash op.1).1
  | .recordViolation address => (sp.recordViolation address).1

/-- **An address that cannot be selected any more**, from a time on: its stake has three violations
or a withdrawal request, or it has been inactive for too long already when it may first be
selected. -/
def Barred (t : ℤ) (addr : String) (sp : StakePool) : Prop :=
  ∃ stake, sp.stakes.lookup addr = some stake ∧ (slashingThreshold ≤ stake.violations ∨
    stake.withdrawalReq ≠ none ∨ stake.lastActive + maxInactivityPeriod < max t stake.startTime)

variable {C : Crypto} {sp : StakePool} {t : ℤ} {addr : String}

lemma Barred.not_eligible (h : sp.Barred t addr) {now : ℤ} (hnow : t ≤ now) :
    ¬ sp.EligibleAddress now addr := by
  rintro ⟨stake, hstake, heligible⟩
  obtain ⟨stake', hstake', hbar⟩ := h
  obtain rfl : stake' = stake := Option.some.inj (hstake'.symm.trans hstake)
  obtain ⟨hstart, hviolations, hwithdrawal, -, hactive⟩ := StakeInfo.isEligible_iff.mp heligible
  rcases hbar with hbar | hbar | hbar
  · omega
  · exact hbar hwithdrawal
  · have := max_le hnow hstart
    omega

/-- Writing to another stake, or raising violations and changing the amount of this one, keeps an
address barred. -/
lemma Barred.insert (h : sp.Barred t addr) {walletToHost : Store String String} {key : String}
    {stake' : StakeInfo} (hkey : key = addr → ∀ stake, sp.stakes.lookup addr = some stake →
      stake.violations ≤ stake'.violations ∧ stake'.withdrawalReq = stake.withdrawalReq ∧
      stake'.lastActive = stake.lastActive ∧ stake'.startTime = stake.startTime) :
    Barred t addr { stakes := sp.stakes.insert key stake', walletToHost := walletToHost } := by
  obtain ⟨stake, hstake, hbar⟩ := h
  by_cases heq : key = addr
  · obtain ⟨hviolations, hwithdrawal, hactive, hstart⟩ := hkey heq stake hstake
    refine ⟨stake', by rw [heq, Finmap.lookup_insert], ?_⟩
    rw [hwithdrawal, hactive, hstart]
    exact hbar.imp_left fun hthree => hthree.trans hviolations
  · refine ⟨stake, ?_, hbar⟩
    rw [Finmap.lookup_insert_of_ne _ (Ne.symm heq), hstake]

/-- **One operation** from the time on keeps an address barred. -/
lemma Barred.stakeStep (h : sp.Barred t addr) {op : ℤ × StakeOp} (hop : t ≤ op.1) :
    (sp.stakeStep C op).Barred t addr := by
  obtain ⟨now, op⟩ := op
  cases op with
  | addStake walletAddress hostID amount =>
    simp only [StakePool.stakeStep, addStake]
    split_ifs
    · exact h
    · refine h.insert fun heq stake hstake => ?_
      subst heq
      simp [hstake, StakeInfo.raise]
  | selectValidator order blockHeight previousHash =>
    rcases selectValidator_fst C sp order blockHeight previousHash now with
      hsame | ⟨selected, stake, heligible, hwrite⟩
    · exact (congrArg (Barred t addr) hsame).mpr h
    · refine (congrArg (Barred t addr) hwrite).mpr (h.insert fun heq => ?_)
      exact absurd (heq ▸ heligible) (h.not_eligible hop)
  | recordViolation address =>
    simp only [StakePool.stakeStep, recordViolation]
    split
    · exact h
    · next stake' hstake' =>
      refine h.insert fun heq stake hstake => ?_
      subst heq
      obtain rfl : stake' = stake := Option.some.inj (hstake'.symm.trans hstake)
      simp only [StakeInfo.violate]
      split_ifs <;> simp

lemma Barred.foldl_stakeStep (h : sp.Barred t addr) {ops : List (ℤ × StakeOp)}
    (hops : ∀ op ∈ ops, t ≤ op.1) : (ops.foldl (StakePool.stakeStep C) sp).Barred t addr := by
  induction ops generalizing sp with
  | nil => exact h
  | cons op ops ih =>
    rw [forall_mem_cons] at hops
    exact ih (h.stakeStep hops.1) hops.2

/-- **An address that is not barred can become eligible**: at once if it has no stake, and
otherwise as soon as its stake counts, if need be with one more token. One `AddStake` is enough. -/
lemma exists_eligible_of_not_barred (h : ¬ sp.Barred t addr) :
    ∃ (ops : List (ℤ × StakeOp)) (now : ℤ), t ≤ now ∧ (∀ op ∈ ops, op.1 = now) ∧
      (ops.foldl (StakePool.stakeStep C) sp).EligibleAddress now addr := by
  have hpositive : ¬ (1 : Float) ≤ 0 := by decide +kernel
  have hone : (1 : Float).toUInt64 = 1 := by decide +kernel
  cases hstake : sp.stakes.lookup addr with
  | none =>
    refine ⟨[(t, .addStake addr "" 1)], t, le_rfl, by simp,
      { address := addr, amount := 1, startTime := t, lastActive := t }, ?_, ?_⟩
    · simp [StakePool.stakeStep, addStake, StakeInfo.raise, hstake, hpositive, hone]
    · rw [StakeInfo.isEligible_iff]
      simp [slashingThreshold, minValidatorStake, maxInactivityPeriod, hour]
  | some stake =>
    have hterms : stake.violations < slashingThreshold ∧ stake.withdrawalReq = none ∧
        max t stake.startTime ≤ stake.lastActive + maxInactivityPeriod := by
      simp only [Barred, hstake, not_exists, not_and, not_or, Option.some.injEq] at h
      obtain ⟨hviolations, hwithdrawal, hactive⟩ := h stake rfl
      exact ⟨not_le.mp hviolations, by simpa using hwithdrawal, not_lt.mp hactive⟩
    obtain ⟨hviolations, hwithdrawal, hactive⟩ := hterms
    by_cases hamount : minValidatorStake ≤ stake.amount
    · refine ⟨[], max t stake.startTime, le_max_left _ _, by simp, stake, hstake, ?_⟩
      exact StakeInfo.isEligible_iff.mpr ⟨le_max_right _ _, hviolations, hwithdrawal, hamount,
        hactive⟩
    · refine ⟨[(max t stake.startTime, .addStake addr "" 1)], max t stake.startTime,
        le_max_left _ _, by simp, { stake with amount := stake.amount + 1 }, ?_, ?_⟩
      · simp [StakePool.stakeStep, addStake, StakeInfo.raise, hstake, hpositive, hone]
      · -- a stake below the minimum is zero
        have hzero : stake.amount = 0 := by
          rw [UInt64.not_le, UInt64.lt_iff_toNat_lt] at hamount
          rw [← UInt64.toNat_inj]
          have : minValidatorStake.toNat = 1 := rfl
          have : (0 : UInt64).toNat = 0 := rfl
          omega
        refine StakeInfo.isEligible_iff.mpr ⟨le_max_right _ _, hviolations, hwithdrawal, ?_,
          hactive⟩
        show minValidatorStake ≤ stake.amount + 1
        rw [hzero]
        decide

/-- What decides about a stake apart from its size. -/
def terms (sp : StakePool) (addr : String) : Option StakeInfo :=
  (sp.stakes.lookup addr).map fun stake => { stake with amount := 0 }

lemma barred_iff_terms : sp.Barred t addr ↔ ∃ stake, sp.terms addr = some stake ∧
    (slashingThreshold ≤ stake.violations ∨ stake.withdrawalReq ≠ none ∨
      stake.lastActive + maxInactivityPeriod < max t stake.startTime) := by
  unfold Barred terms
  cases sp.stakes.lookup addr <;> simp

end StakePool

namespace SlashingState

open StakePool (StakeOp stakeStep)

variable {C : Crypto} {s : SlashingState} {p : ℕ}

/-- A call of `HandleViolation`. -/
structure ViolationCall where
  validator : Option ℕ := none
  violationType : String := ""
  blockHeight : UInt64 := 0

def violationStep (s : SlashingState) (call : ℤ × ViolationCall) : SlashingState :=
  (s.handleViolation call.2.validator call.2.violationType call.2.blockHeight call.1).1

/-- What `SlashValidator` does to the pool. -/
lemma stakePool_slashValidator (q : ℕ) : (s.slashValidator q).1.stakePool =
    s.stakePool.slashValidator Float.toUInt64 (s.validators q).address := by
  rw [slashValidator, StakePool.slashValidator]
  cases s.stakePool.stakes.lookup (s.validators q).address <;> rfl

lemma terms_slashValidator (q : ℕ) (addr : String) :
    (s.slashValidator q).1.stakePool.terms addr = s.stakePool.terms addr := by
  rw [stakePool_slashValidator, StakePool.slashValidator]
  cases hstake : s.stakePool.stakes.lookup (s.validators q).address with
  | none => rfl
  | some stake =>
    simp only [StakePool.terms]
    by_cases haddr : addr = (s.validators q).address
    · rw [haddr, Finmap.lookup_insert, hstake]
      rfl
    · rw [Finmap.lookup_insert_of_ne _ haddr]

lemma validators_slashValidator (q r : ℕ) :
    ((s.slashValidator q).1.validators r).address = (s.validators r).address ∧
      ((s.slashValidator q).1.validators r).violations = (s.validators r).violations := by
  cases hstake : s.stakePool.stakes.lookup (s.validators q).address with
  | none => simp only [slashValidator, hstake, and_self]
  | some stake =>
    simp only [slashValidator, hstake, validators_setValidator]
    split_ifs with hr
    · exact hr ▸ ⟨rfl, rfl⟩
    · exact ⟨rfl, rfl⟩

/-- **One violation**: no stake changes but in its size, no address changes, and the violation is
counted. -/
lemma violationStep_spec (s : SlashingState) (call : ℤ × ViolationCall) :
    (∀ addr, (s.violationStep call).stakePool.terms addr = s.stakePool.terms addr) ∧
      ∀ r, ((s.violationStep call).validators r).address = (s.validators r).address ∧
        ((s.violationStep call).validators r).violations = (s.validators r).violations +
          if call.2.validator = some r then 1 else 0 := by
  obtain ⟨now, validator, violationType, blockHeight⟩ := call
  cases validator with
  | none => simp [violationStep, handleViolation]
  | some q =>
    have hcount : ∀ r, ((s.countViolation q violationType blockHeight now).validators r).address =
        (s.validators r).address ∧
        ((s.countViolation q violationType blockHeight now).validators r).violations =
          (s.validators r).violations + if q = r then 1 else 0 := by
      intro r
      simp only [countViolation, validators_setValidator]
      by_cases hr : r = q
      · rw [if_pos hr, if_pos hr.symm, hr]
        exact ⟨rfl, rfl⟩
      · rw [if_neg hr, if_neg (Ne.symm hr), add_zero]
        exact ⟨rfl, rfl⟩
    simp only [violationStep, handleViolation, Option.some.injEq]
    split_ifs with hthird
    · refine ⟨fun addr => terms_slashValidator q addr, fun r => ?_⟩
      rw [(validators_slashValidator q r).1, (validators_slashValidator q r).2]
      exact hcount r
    · refine ⟨fun addr => rfl, fun r => ?_⟩
      rw [← (hcount r).1, ← (hcount r).2, validators_setValidator]
      split_ifs with hr
      · exact hr ▸ ⟨rfl, rfl⟩
      · exact ⟨rfl, rfl⟩

lemma foldl_violationStep_spec (calls : List (ℤ × ViolationCall)) (s : SlashingState) :
    (∀ addr, (calls.foldl violationStep s).stakePool.terms addr = s.stakePool.terms addr) ∧
      ∀ r, ((calls.foldl violationStep s).validators r).address = (s.validators r).address := by
  induction calls generalizing s with
  | nil => exact ⟨fun _ => rfl, fun _ => rfl⟩
  | cons call calls ih =>
    obtain ⟨hterms, hvalidators⟩ := violationStep_spec s call
    obtain ⟨hterms', haddress'⟩ := ih (s.violationStep call)
    exact ⟨fun addr => (hterms' addr).trans (hterms addr),
      fun r => (haddress' r).trans (hvalidators r).1⟩

lemma lookup_countViolation (q : ℕ) (violationType : String) (blockHeight : UInt64) (now : ℤ) :
    (s.countViolation q violationType blockHeight now).stakePool.stakes.lookup
        ((s.countViolation q violationType blockHeight now).validators q).address =
      s.stakePool.stakes.lookup (s.validators q).address := by
  show s.stakePool.stakes.lookup ((s.setValidator q _).validators q).address = _
  rw [validators_setValidator, if_pos rfl]

lemma not_isSlashed_violationStep (h : ¬ IsSlashed p s)
    (hstake : s.stakePool.stakes.lookup (s.validators p).address = none)
    (call : ℤ × ViolationCall) : ¬ IsSlashed p (s.violationStep call) := by
  obtain ⟨now, validator, violationType, blockHeight⟩ := call
  cases validator with
  | none => exact h
  | some q =>
    have hcount := mt (isSlashed_countViolation q violationType blockHeight now).mp h
    simp only [violationStep, handleViolation]
    split_ifs with hthird
    · rw [isSlashed_slashValidator, not_or, not_and]
      refine ⟨hcount, ?_⟩
      rintro rfl
      rw [lookup_countViolation, hstake]
      decide
    · rw [isSlashed_setValidator]
      split_ifs with hq
      · decide
      · exact hcount

lemma not_isSlashed_foldl (h : ¬ IsSlashed p s)
    (hstake : s.stakePool.terms (s.validators p).address = none)
    (calls : List (ℤ × ViolationCall)) : ¬ IsSlashed p (calls.foldl violationStep s) := by
  induction calls generalizing s with
  | nil => exact h
  | cons call calls ih =>
    obtain ⟨hterms, hvalidators⟩ := violationStep_spec s call
    refine ih (not_isSlashed_violationStep h (Option.map_eq_none_iff.mp hstake) call) ?_
    rw [(hvalidators p).1, hterms, hstake]

lemma isSlashed_replicate (hstake : (s.stakePool.terms (s.validators p).address).isSome = true)
    {n : ℕ} (hn : slashingThreshold ≤ (s.validators p).violations + (n + 1)) (t : ℤ) :
    IsSlashed p ((List.replicate (n + 1) (t, ({ validator := some p } : ViolationCall))).foldl
      violationStep s) := by
  induction n generalizing s with
  | zero =>
    have hthird : ((s.countViolation p "" 0 t).validators p).violations ≥ slashingThreshold := by
      rw [violations_countViolation]
      simpa using hn
    have hslash : s.violationStep (t, { validator := some p }) =
        ((s.countViolation p "" 0 t).slashValidator p).1 := by
      simp only [violationStep, handleViolation, if_pos hthird]
    rw [Nat.zero_add, replicate_one, foldl_cons, foldl_nil, hslash,
      isSlashed_slashValidator, lookup_countViolation]
    refine Or.inr ⟨rfl, ?_⟩
    simpa [StakePool.terms] using hstake
  | succ n ih =>
    obtain ⟨hterms, hvalidators⟩ := violationStep_spec s (t, { validator := some p })
    rw [replicate_succ, foldl_cons]
    refine ih ?_ ?_
    · rw [(hvalidators p).1, hterms, hstake]
    · rw [(hvalidators p).2, if_pos rfl]
      push_cast at hn ⊢
      omega

lemma exists_isSlashed_replicate (h : ¬ IsSlashed p s →
      s.stakePool.stakes.lookup (s.validators p).address ≠ none) (t : ℤ) :
    ∃ n, IsSlashed p ((List.replicate n (t, ({ validator := some p } : ViolationCall))).foldl
      violationStep s) := by
  by_cases hslashed : IsSlashed p s
  · exact ⟨0, hslashed⟩
  · refine ⟨(slashingThreshold - (s.validators p).violations).toNat + 1,
      isSlashed_replicate ?_ (by omega) t⟩
    rw [StakePool.terms, Option.isSome_map]
    exact Option.isSome_iff_ne_none.mpr (h hslashed)

/-- **When slashing is effective.** A validator that is slashed at some time is never eligible
after any further operations exactly if it cannot be slashed and is not, having no stake, or if its
stake has three violations of its own or a withdrawal request, or will have been inactive for more
than a day when it counts.

**Proof sketch.** Slashing changes the size of a stake only, and a barred address stays so. Without
a stake, an `AddStake` makes a slashed validator eligible. With a stake that is not barred, enough
violations slash the validator, and one more token makes it eligible. -/
theorem slashing_effective_iff (C : Crypto) (s : SlashingState) (p : ℕ) (t : ℤ) :
    (∀ (calls : List (ℤ × ViolationCall)) (ops : List (ℤ × StakeOp)) (now : ℤ)
        (order : List String),
      (t :: (calls.map Prod.fst ++ ops.map Prod.fst ++ [now])).Pairwise (· ≤ ·) →
      IsSlashed p (calls.foldl violationStep s) →
      let sp := ops.foldl (stakeStep C) (calls.foldl violationStep s).stakePool
      sp.Enumerates order → (s.validators p).address ∉
        (sp.getEligibleValidators order now).map ValidatorRecord.address) ↔
      (¬ IsSlashed p s ∧ s.stakePool.stakes.lookup (s.validators p).address = none) ∨
        s.stakePool.Barred t (s.validators p).address := by
  constructor
  · intro h
    by_contra hcond
    rw [not_or, not_and] at hcond
    obtain ⟨hslashable, hbarred⟩ := hcond
    obtain ⟨n, hslashed⟩ := exists_isSlashed_replicate hslashable t
    obtain ⟨hterms, -⟩ := foldl_violationStep_spec
      (List.replicate n (t, ({ validator := some p } : ViolationCall))) s
    rw [StakePool.barred_iff_terms, ← hterms, ← StakePool.barred_iff_terms] at hbarred
    obtain ⟨ops, now, hnow, hops, heligible⟩ :=
      StakePool.exists_eligible_of_not_barred (C := C) hbarred
    refine h _ ops now _ ?_ hslashed StakePool.enumerates_toList
      (StakePool.enumerates_toList.mem_map_address.mpr heligible)
    -- the calls come at the time `t` and the operations at `now`
    have htime : ∀ time ∈ List.map Prod.fst ops ++ [now], time = now := by
      simpa [or_imp, forall_and] using hops
    rw [map_replicate, ← cons_append, ← cons_append, ← replicate_succ,
      append_assoc, pairwise_append]
    refine ⟨pairwise_replicate.mpr (Or.inr le_rfl), ?_, ?_⟩
    · exact pairwise_of_forall_mem_list fun a ha b hb => by rw [htime a ha, htime b hb]
    · intro a ha b hb
      rwa [eq_of_mem_replicate ha, htime b hb]
  · rintro (⟨hslashed, hstake⟩ | hbarred) calls ops now order htimes hafter sp horder
    · exact absurd hafter (not_isSlashed_foldl hslashed (by simp [StakePool.terms, hstake]) calls)
    · rw [horder.mem_map_address]
      have hle := (pairwise_cons.mp htimes).1
      refine StakePool.Barred.not_eligible (t := t) (StakePool.Barred.foldl_stakeStep ?_ ?_)
        (hle now (by simp))
      · rw [StakePool.barred_iff_terms, (foldl_violationStep_spec calls s).1,
          ← StakePool.barred_iff_terms]
        exact hbarred
      · intro op hop
        refine hle op.1 (mem_append_left _ (mem_append_right _ ?_))
        exact mem_map_of_mem hop

/-- **A slashed validator is still eligible**: three violations slash it and halve its stake, and it
is in the list of eligible validators at the same moment. -/
theorem slashed_validator_is_eligible :
    let call : ℤ × ViolationCall := (0, { validator := some 0, violationType := "timeout" })
    let s := [call, call, call].foldl violationStep oneValidator
    (s.validators 0).status = .slashed ∧
      (s.stakePool.stakes.lookup "v").map StakeInfo.amount = some 5 ∧
      s.stakePool.stakes.keys = {"v"} ∧
      (s.stakePool.getEligibleValidators ["v"] 0).map ValidatorRecord.address = ["v"] := by
  decide +kernel

end SlashingState

end HybridChain
