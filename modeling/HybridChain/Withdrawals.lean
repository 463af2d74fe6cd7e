import HybridChain.StakeLedger

/-!
# Withdrawals

`RequestWithdrawal` records the time and the amount of a stake; `ProcessWithdrawal` pays out, after
the lock period, the amount that the stake has by then.

A stake is the same one as long as its wallet has a stake without interruption.

## Main definitions

* `PaysAt`, `RecordedAt`: payments and requests of a run
* `Covered`: not more is paid than was requested

## Main results

* `lock_respected`: the lock period is always kept
* `withdrawals_covered`, `toppedUpRun_not_covered`
-/

namespace HybridChain

open Option
open StakePool (Call)

/-! ## Requests -/

/-- The operations on the stakes of one's own pool. -/
def StakePool.Call.isLocal : Call → Bool
  | .createStake _ _ => false
  | .slashValidator _ => false
  | .syncWithPeer _ => false
  | _ => true

namespace StakeInfo

variable (entry : Option StakeInfo) (address : String)

lemma withdrawalReq_register (stake : UInt64) (hostID : String) (now : ℤ) :
    (register entry address stake hostID now).withdrawalReq = entry.bind withdrawalReq := by
  cases entry <;> rfl

lemma withdrawalReq_raise (amount : UInt64)
    (now : ℤ) : (raise entry address amount now).withdrawalReq = entry.bind withdrawalReq := by
  cases entry <;> rfl

lemma withdrawalReq_violate (entry : StakeInfo) :
    entry.violate.withdrawalReq = entry.withdrawalReq := by
  simp only [violate]
  split_ifs <;> rfl

end StakeInfo

namespace StakeAccount

variable {uint64 : Float → UInt64} {wallet : String} {acc : StakeAccount} {now : ℤ} {call : Call}
  {stake : StakeInfo}

lemma withdrawalReq_requestWithdrawal
    (hstake : (acc.step uint64 wallet (now, .requestWithdrawal wallet)).stake = some stake) :
    ∃ before, acc.stake = some before ∧ stake.withdrawalReq =
      some { requestTime := now, amount := before.amount, status := "pending" } := by
  simp only [step, if_true] at hstake
  obtain ⟨before, hbefore, rfl⟩ := map_eq_some_iff.mp hstake
  exact ⟨before, hbefore, rfl⟩

lemma withdrawalReq_step (hlocal : call.isLocal) (hcall : call ≠ .requestWithdrawal wallet)
    (hstake : (acc.step uint64 wallet (now, call)).stake = some stake) :
    stake.withdrawalReq = acc.stake.bind StakeInfo.withdrawalReq := by
  obtain ⟨before, host⟩ := acc
  cases call with
  | requestWithdrawal address =>
    have hne : address ≠ wallet := fun heq => hcall (by rw [heq])
    simp only [step, if_neg hne] at hstake
    simp [hstake]
  | addValidator walletAddress amount hostID | addStake walletAddress hostID amount =>
    simp only [step] at hstake
    split_ifs at hstake
    · obtain rfl := Option.some.inj hstake
      simp [StakeInfo.withdrawalReq_register, StakeInfo.withdrawalReq_raise]
    · simp_all
  | removeStake walletAddress amount =>
    cases before with
    | none => simp [step, remove] at hstake
    | some before =>
      simp only [step, remove] at hstake
      split_ifs at hstake
      all_goals
        obtain rfl := Option.some.inj hstake
        rfl
  | processWithdrawal address =>
    simp only [step] at hstake
    split_ifs at hstake
    simp_all
  | recordViolation address =>
    simp only [step] at hstake
    split_ifs at hstake
    · obtain ⟨before, rfl, rfl⟩ := map_eq_some_iff.mp hstake
      exact StakeInfo.withdrawalReq_violate before
    · simp_all
  | createStake _ _ | slashValidator _ | syncWithPeer _ => cases hlocal

end StakeAccount

/-! ## Payouts -/

namespace StakePool

variable (uint64 : Float → UInt64) (sp : StakePool) (calls : List (ℤ × Call))

/-- The pool before the `i`-th call of a run. -/
def stateAt (i : ℕ) : StakePool := (calls.take i).foldl (step uint64) sp

/-- The `i`-th call pays out an amount. -/
def PaysAt (i : ℕ) (address : String) (now : ℤ) (paid : UInt64) : Prop :=
  calls[i]? = some (now, .processWithdrawal address) ∧
    ((stateAt uint64 sp calls i).processWithdrawal address now).2 = .ok paid

/-- The `j`-th call is a request, made at a time `t`, that records an amount for the stake which the
address still has before the `i`-th call. -/
def RecordedAt (j i : ℕ) (address : String) (t : ℤ) (amount : UInt64) : Prop :=
  calls[j]? = some (t, .requestWithdrawal address) ∧
    (∃ stake, (stateAt uint64 sp calls j).stakes.lookup address = some stake ∧
      stake.amount = amount) ∧
    ∀ k, j ≤ k → k ≤ i → address ∈ (stateAt uint64 sp calls k).stakes

/-- A payout before which at least as much was recorded for the same stake, at least the lock period
ago. -/
def Covered (i : ℕ) (address : String) (now : ℤ) (paid : UInt64) : Prop :=
  ∃ j < i, ∃ t amount, RecordedAt uint64 sp calls j i address t amount ∧
    t + withdrawalLockPeriod ≤ now ∧ paid ≤ amount

variable {uint64 sp calls} {address : String} {i j : ℕ} {call : ℤ × Call} {paid : UInt64}

lemma stateAt_succ (hcall : calls[i]? = some call) :
    stateAt uint64 sp calls (i + 1) = (stateAt uint64 sp calls i).step uint64 call := by
  simp [stateAt, List.take_add_one, hcall]

lemma stateAt_succ_of_none (hcall : calls[i]? = none) :
    stateAt uint64 sp calls (i + 1) = stateAt uint64 sp calls i := by
  simp [stateAt, List.take_add_one, hcall]

lemma stake_step_of_getElem {stake : StakeInfo} (hcall : calls[i]? = some call)
    (hstake : (stateAt uint64 sp calls (i + 1)).stakes.lookup address = some stake) :
    (((stateAt uint64 sp calls i).account address).step uint64 address call).stake =
      some stake := by
  rw [← acts, ← stateAt_succ hcall]
  exact hstake

variable {amount : UInt64} {t : ℤ}

lemma recordedAt_succ_iff (hj : j < i) : RecordedAt uint64 sp calls j (i + 1) address t amount ↔
      RecordedAt uint64 sp calls j i address t amount ∧
        address ∈ (stateAt uint64 sp calls (i + 1)).stakes := by
  simp only [RecordedAt]
  constructor
  · rintro ⟨hcall, hstake, hkept⟩
    exact ⟨⟨hcall, hstake, fun k hjk hki => hkept k hjk (by omega)⟩,
      hkept (i + 1) (by omega) le_rfl⟩
  · rintro ⟨⟨hcall, hstake, hkept⟩, hlast⟩
    refine ⟨hcall, hstake, fun k hjk hki => ?_⟩
    rcases Nat.lt_or_ge k (i + 1) with hlt | hge
    · exact hkept k hjk (by omega)
    · obtain rfl : k = i + 1 := by omega
      exact hlast

lemma recordedAt_self_succ_iff : RecordedAt uint64 sp calls i (i + 1) address t amount ↔
      calls[i]? = some (t, .requestWithdrawal address) ∧
        (∃ stake, (stateAt uint64 sp calls i).stakes.lookup address = some stake ∧
          stake.amount = amount) ∧
        address ∈ (stateAt uint64 sp calls (i + 1)).stakes := by
  simp only [RecordedAt]
  constructor
  · rintro ⟨hcall, hstake, hkept⟩
    exact ⟨hcall, hstake, hkept (i + 1) (by omega) le_rfl⟩
  · rintro ⟨hcall, ⟨stake, hstake, hamount⟩, hlast⟩
    refine ⟨hcall, ⟨stake, hstake, hamount⟩, fun k hik hki => ?_⟩
    rcases Nat.lt_or_ge k (i + 1) with hlt | hge
    · obtain rfl : k = i := by omega
      exact Finmap.mem_of_lookup_eq_some hstake
    · obtain rfl : k = i + 1 := by omega
      exact hlast

lemma PaysAt.exists_request {now : ℤ} (h : PaysAt uint64 sp calls i address now paid) :
    ∃ stake request, (stateAt uint64 sp calls i).stakes.lookup address = some stake ∧
      stake.withdrawalReq = some request ∧ request.requestTime + withdrawalLockPeriod ≤ now ∧
      paid = stake.amount := by
  have hpaid : ((stateAt uint64 sp calls i).account address).payout now = some paid := by
    rw [← (processWithdrawal_spec address now).1, h.2]
    rfl
  obtain ⟨stake, hstake, hpaid⟩ := bind_eq_some_iff.mp hpaid
  obtain ⟨request, hrequest, hpaid⟩ := bind_eq_some_iff.mp hpaid
  split_ifs at hpaid with hlock
  exact ⟨stake, request, hstake, hrequest, by omega, (Option.some.inj hpaid).symm⟩

/-- A pending request was made in the run, if none was pending at the start. By induction on the
call reached: a request that is there was there before, or is being made. -/
lemma exists_recordedAt (hlocal : ∀ call ∈ calls, call.2.isLocal)
    (hstart : ∀ stake, sp.stakes.lookup address = some stake → stake.withdrawalReq = none)
    {stake : StakeInfo} {request : WithdrawalRequest}
    (hstake : (stateAt uint64 sp calls i).stakes.lookup address = some stake)
    (hrequest : stake.withdrawalReq = some request) :
    ∃ j < i, RecordedAt uint64 sp calls j i address request.requestTime request.amount := by
  induction i generalizing stake with
  | zero => exact absurd ((hstart stake hstake).symm.trans hrequest) (by simp)
  | succ i ih =>
    have hpresent := Finmap.mem_of_lookup_eq_some hstake
    cases hcall : calls[i]? with
    | none =>
      rw [stateAt_succ_of_none hcall] at hstake
      obtain ⟨j, hj, hrecorded⟩ := ih hstake hrequest
      exact ⟨j, by omega, (recordedAt_succ_iff hj).mpr ⟨hrecorded, hpresent⟩⟩
    | some timed =>
      obtain ⟨now, call⟩ := timed
      have hafter := stake_step_of_getElem hcall hstake
      by_cases hsame : call = .requestWithdrawal address
      · subst hsame
        obtain ⟨before, hbefore, hnew⟩ := StakeAccount.withdrawalReq_requestWithdrawal hafter
        obtain rfl := Option.some.inj (hnew.symm.trans hrequest)
        exact ⟨i, by omega, recordedAt_self_succ_iff.mpr
          ⟨hcall, ⟨before, hbefore, rfl⟩, hpresent⟩⟩
      · have hkept := StakeAccount.withdrawalReq_step
          (hlocal _ (List.mem_of_getElem? hcall)) hsame hafter
        obtain ⟨before, hbefore, hold⟩ := bind_eq_some_iff.mp (hkept.symm.trans hrequest)
        obtain ⟨j, hj, hrecorded⟩ := ih hbefore hold
        exact ⟨j, by omega, (recordedAt_succ_iff hj).mpr ⟨hrecorded, hpresent⟩⟩

/-- **The lock is respected**: a payout of a run from a pool without requests was requested for the
same stake, at least the lock period ago. -/
theorem lock_respected (hlocal : ∀ call ∈ calls, call.2.isLocal)
    (hstart : ∀ stake, sp.stakes.lookup address = some stake → stake.withdrawalReq = none)
    {now : ℤ} {paid : UInt64} (h : PaysAt uint64 sp calls i address now paid) :
    ∃ j < i, ∃ t amount, RecordedAt uint64 sp calls j i address t amount ∧
      t + withdrawalLockPeriod ≤ now := by
  obtain ⟨stake, request, hstake, hrequest, hlock, -⟩ := h.exists_request
  obtain ⟨j, hj, hrecorded⟩ := exists_recordedAt hlocal hstart hstake hrequest
  exact ⟨j, hj, _, _, hrecorded, hlock⟩

end StakePool

/-! ## Recorded amounts -/

namespace StakeAccount

/-- A stake with a pending request has at most the amount that the request recorded. -/
def Within (acc : StakeAccount) : Prop :=
  ∀ stake ∈ acc.stake, ∀ request ∈ stake.withdrawalReq, stake.amount ≤ request.amount

/-- A stake with a pending request can be raised by an amount without passing what the request
recorded. -/
def RaisesWithin (acc : StakeAccount) (amount : UInt64) : Prop :=
  ∀ stake ∈ acc.stake, ∀ request ∈ stake.withdrawalReq, stake.amount + amount ≤ request.amount

instance (acc : StakeAccount) (amount : UInt64) : Decidable (acc.RaisesWithin amount) :=
  inferInstanceAs (Decidable (∀ stake ∈ acc.stake, ∀ request ∈ stake.withdrawalReq, _))

end StakeAccount

lemma StakeInfo.amount_violate_le (entry : StakeInfo) : entry.violate.amount ≤ entry.amount := by
  simp only [violate]
  split_ifs
  · have hhalf : entry.amount / 2 ≤ entry.amount :=
      UInt64.le_iff_toNat_le.mpr (Nat.div_le_self entry.amount.toNat 2)
    exact UInt64.sub_le hhalf
  · exact UInt64.le_refl _

namespace StakePool

/-- **The calls that keep to the requests**: an `AddStake` or `AddValidator` that goes through does
not raise a stake above what its pending request recorded. -/
def KeepsRequested (uint64 : Float → UInt64) (sp : StakePool) (call : ℤ × Call) : Prop :=
  match call.2 with
  | .addValidator walletAddress stake hostID =>
    walletAddress ≠ "" ∧ hostID ≠ "" ∧ ¬ stake < 0 →
      (sp.account walletAddress).RaisesWithin (uint64 stake)
  | .addStake walletAddress _ amount =>
    ¬ amount ≤ 0 → (sp.account walletAddress).RaisesWithin (uint64 amount)
  | _ => True

instance (uint64 : Float → UInt64) (sp : StakePool) :
    (call : ℤ × Call) → Decidable (sp.KeepsRequested uint64 call)
  | (_, .addValidator _ _ _) | (_, .addStake _ _ _) => inferInstanceAs (Decidable (_ → _))
  | (_, .removeStake _ _) | (_, .requestWithdrawal _) | (_, .processWithdrawal _)
  | (_, .recordViolation _) | (_, .createStake _ _) | (_, .slashValidator _)
  | (_, .syncWithPeer _) => isTrue trivial

variable {uint64 : Float → UInt64} {sp : StakePool} {now : ℤ} {call : Call}

/-- **One call** that keeps to the requests leaves every stake within its request. -/
lemma within_step (hlocal : call.isLocal) (hkeeps : sp.KeepsRequested uint64 (now, call))
    (h : ∀ wallet, (sp.account wallet).Within) (wallet : String) :
    ((sp.step uint64 (now, call)).account wallet).Within := by
  rw [acts]
  intro stake hstake request hrequest
  by_cases hcall : call = .requestWithdrawal wallet
  · subst hcall
    simp only [StakeAccount.step, if_true] at hstake
    obtain ⟨before, -, rfl⟩ := map_eq_some_iff.mp hstake
    obtain rfl := Option.some.inj hrequest
    exact UInt64.le_refl _
  -- the request is the one that was there, so that only the amounts are left to compare
  have hkept := StakeAccount.withdrawalReq_step hlocal hcall hstake
  obtain ⟨before, hbefore, hold⟩ := bind_eq_some_iff.mp (hkept.symm.trans hrequest)
  have hwithin := h wallet before hbefore request hold
  have hsame : (sp.account wallet).stake = some stake → stake.amount ≤ request.amount :=
    fun hstake => Option.some.inj (hbefore.symm.trans hstake) ▸ hwithin
  cases call with
  | addValidator walletAddress amount hostID | addStake walletAddress hostID amount =>
    simp only [StakeAccount.step] at hstake
    split_ifs at hstake with haccepted
    · obtain ⟨rfl, hchecks⟩ := haccepted
      rw [hbefore] at hstake
      obtain rfl := Option.some.inj hstake
      exact hkeeps hchecks before hbefore request hold
    · exact hsame hstake
  | removeStake walletAddress amount =>
    simp only [StakeAccount.step, StakeAccount.remove, hbefore] at hstake
    split_ifs at hstake with haddress hless hzero
    · exact hsame hstake
    · cases hstake
    · obtain rfl := Option.some.inj hstake
      exact UInt64.le_trans (UInt64.sub_le (UInt64.not_lt.mp hless)) hwithin
    · exact hsame hstake
  | requestWithdrawal address =>
    simp only [StakeAccount.step] at hstake
    split_ifs at hstake with haddress
    · exact absurd (by rw [haddress]) hcall
    · exact hsame hstake
  | processWithdrawal address =>
    simp only [StakeAccount.step] at hstake
    split_ifs at hstake
    · cases hstake
    · exact hsame hstake
  | recordViolation address =>
    simp only [StakeAccount.step] at hstake
    split_ifs at hstake
    · rw [hbefore] at hstake
      obtain rfl := Option.some.inj hstake
      exact UInt64.le_trans (StakeInfo.amount_violate_le before) hwithin
    · exact hsame hstake
  | createStake _ _ | slashValidator _ | syncWithPeer _ => cases hlocal

/-- **A run** that keeps to the requests, from a pool without requests, leaves every stake within
its request before each of its calls. -/
lemma within_stateAt {calls : List (ℤ × Call)} (hlocal : ∀ call ∈ calls, call.2.isLocal)
    (hstart : ∀ address, ∀ stake ∈ sp.stakes.lookup address, stake.withdrawalReq = none)
    (hkeeps : Run.Along (step uint64) (KeepsRequested uint64) sp calls) (i : ℕ)
    (wallet : String) : ((stateAt uint64 sp calls i).account wallet).Within := by
  induction i generalizing wallet with
  | zero =>
    intro stake hstake request hrequest
    exact absurd ((hstart wallet stake hstake).symm.trans hrequest) (by simp)
  | succ i ih =>
    cases hcall : calls[i]? with
    | none => exact stateAt_succ_of_none hcall ▸ ih wallet
    | some call =>
      rw [stateAt_succ hcall]
      exact within_step (hlocal _ (List.mem_of_getElem? hcall))
        (Run.along_iff_getElem.mp hkeeps i call hcall) ih wallet

/-- **Withdrawals are covered** along a run of local calls, from a pool without requests, in which
no `AddStake` or `AddValidator` raises a stake above what its pending request recorded. -/
theorem withdrawals_covered (uint64 : Float → UInt64) (sp : StakePool)
    (calls : List (ℤ × Call)) (hlocal : ∀ call ∈ calls, call.2.isLocal)
    (hstart : ∀ address, ∀ stake ∈ sp.stakes.lookup address, stake.withdrawalReq = none)
    (hkeeps : Run.Along (step uint64) (KeepsRequested uint64) sp calls) (i : ℕ) (address : String)
    (now : ℤ) (paid : UInt64) (hpays : PaysAt uint64 sp calls i address now paid) :
    Covered uint64 sp calls i address now paid := by
  obtain ⟨stake, request, hstake, hrequest, hlock, rfl⟩ := hpays.exists_request
  obtain ⟨j, hj, hrecorded⟩ := exists_recordedAt hlocal (hstart address) hstake hrequest
  exact ⟨j, hj, _, _, hrecorded, hlock,
    within_stateAt hlocal hstart hkeeps i address stake hstake request hrequest⟩

def plainRun : List (ℤ × Call) :=
  [(0, .addStake "wallet" "host" 10), (1, .requestWithdrawal "wallet"),
    (1 + withdrawalLockPeriod, .processWithdrawal "wallet")]

/-- A run that takes some of the stake back after the request, and adds some again. -/
def loweredRun : List (ℤ × Call) :=
  [(0, .addStake "wallet" "host" 10), (1, .requestWithdrawal "wallet"),
    (2, .removeStake "wallet" 4), (3, .addStake "wallet" "host" 2),
    (1 + withdrawalLockPeriod, .processWithdrawal "wallet")]

theorem loweredRun_covered :
    PaysAt Float.toUInt64 {} loweredRun 4 "wallet" (1 + withdrawalLockPeriod) 8 ∧
      Covered Float.toUInt64 {} loweredRun 4 "wallet" (1 + withdrawalLockPeriod) 8 := by
  have hpays : PaysAt Float.toUInt64 {} loweredRun 4 "wallet" (1 + withdrawalLockPeriod) 8 :=
    ⟨rfl, by decide +kernel⟩
  exact ⟨hpays, withdrawals_covered Float.toUInt64 {} loweredRun
    (by simp [loweredRun, Call.isLocal]) (by simp) (by decide +kernel) _ _ _ _ hpays⟩

theorem plainRun_lock_respected :
    PaysAt Float.toUInt64 {} plainRun 2 "wallet" (1 + withdrawalLockPeriod) 10 ∧
      ∃ j < 2, ∃ t amount, RecordedAt Float.toUInt64 {} plainRun j 2 "wallet" t amount ∧
        t + withdrawalLockPeriod ≤ 1 + withdrawalLockPeriod := by
  have hpays : PaysAt Float.toUInt64 {} plainRun 2 "wallet" (1 + withdrawalLockPeriod) 10 :=
    ⟨rfl, by decide +kernel⟩
  exact ⟨hpays, lock_respected (by simp [plainRun, Call.isLocal]) (by simp) hpays⟩

def toppedUpRun : List (ℤ × Call) :=
  [(0, .addStake "wallet" "host" 10), (1, .requestWithdrawal "wallet"),
    (withdrawalLockPeriod, .addStake "wallet" "host" 90),
    (1 + withdrawalLockPeriod, .processWithdrawal "wallet")]

/-- 100 are paid out, of which 90 were added a moment before. -/
theorem toppedUpRun_not_covered :
    PaysAt Float.toUInt64 {} toppedUpRun 3 "wallet" (1 + withdrawalLockPeriod) 100 ∧
      ¬ Covered Float.toUInt64 {} toppedUpRun 3 "wallet" (1 + withdrawalLockPeriod) 100 := by
  constructor
  · exact ⟨rfl, by decide +kernel⟩
  · rintro ⟨j, hj, t, amount, ⟨hcall, ⟨stake, hstake, rfl⟩, -⟩, -, hle⟩
    -- the only request is the second call, and it records 10
    have hten : ((stateAt Float.toUInt64 {} toppedUpRun 1).stakes.lookup "wallet").map
        StakeInfo.amount = some 10 := by decide +kernel
    interval_cases j
    · cases hcall
    · rw [hstake, map_some] at hten
      rw [Option.some.inj hten] at hle
      exact absurd hle (by decide)
    · cases hcall

end StakePool

end HybridChain
