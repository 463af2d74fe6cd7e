import HybridChain.Lib.Binary64
import HybridChain.Slashing

/-!
# What slashing does to the sum of the stakes

`SlashValidator` of `slashing.go` takes half of a stake, rounded down, and adds half of it to the
community pool, not rounded.

## Main definitions

* `ExactSlashing`: slashing with exact numbers
* `total`: the stakes and the pool
* `Simulates`: the floats stand for the exact numbers

## Main results

* `total_run_iff`: when the sum stays the same
* `simulates_run`: floats and exact numbers agree
-/

namespace HybridChain

open KeyedLog (Store)
open Binary64 (Denotes)

/-- The validators, the stakes and the community pool, with an exact pool. -/
structure ExactSlashing where
  /-- The validator objects. -/
  validators : ℕ → ValidatorRecord := fun _ => {}
  stakePool : StakePool := {}
  communityPool : ℚ := 0
  /-- A closed database fails every call. -/
  dbClosed : Bool := false

namespace ExactSlashing

/-- `SlashValidator`, with `SlashingPenaltyRate` one half. -/
def slashValidator (s : ExactSlashing) (p : ℕ) : ExactSlashing × Except String Unit :=
  let validator := s.validators p
  let address := validator.address
  match s.stakePool.stakes.lookup address with
  | none => (s, .error s!"no stake found for validator {address}")
  | some stake =>
    let penaltyAmount : ℚ := stake.amount.toNat / 2
    let stake := { stake with amount := stake.amount - UInt64.ofNat ⌊penaltyAmount⌋₊ }
    ({ s with
        validators :=
          Function.update s.validators p { validator with status := .slashed, score := 0 }
        stakePool := { s.stakePool with stakes := s.stakePool.stakes.insert address stake }
        communityPool := s.communityPool + penaltyAmount },
      if s.dbClosed then .error "failed to record slashing event: database closed" else .ok ())

def step (s : ExactSlashing) (p : ℕ) : ExactSlashing := (s.slashValidator p).1

def Succeeds (s : ExactSlashing) (p : ℕ) : Prop := (s.slashValidator p).2 = .ok ()

instance (s : ExactSlashing) (p : ℕ) : Decidable (s.Succeeds p) :=
  inferInstanceAs (Decidable (_ = _))

def amount (s : ExactSlashing) (address : String) : ℕ :=
  (s.stakePool.stakes.lookup address).elim 0 fun stake => stake.amount.toNat

def slashedAmount (s : ExactSlashing) (p : ℕ) : ℕ := s.amount (s.validators p).address

def staked (stakes : Store String StakeInfo) : ℚ :=
  KeyedLog.total (fun _ stake => (stake.amount.toNat : ℚ)) stakes

def total (s : ExactSlashing) : ℚ := staked s.stakePool.stakes + s.communityPool

def Shrinks (s t : ExactSlashing) : Prop := ∀ address, t.amount address ≤ s.amount address

/-- The number of slashes of odd amounts along a run. -/
def oddSlashes : ExactSlashing → List ℕ → ℕ
  | _, [] => 0
  | s, p :: ps => s.slashedAmount p % 2 + oddSlashes (s.step p) ps

variable {s : ExactSlashing} {p : ℕ}

/-! ## One slash -/

lemma floor_half (n : ℕ) : ⌊(n : ℚ) / 2⌋₊ = n / 2 := Nat.floor_div_eq_div n 2

lemma toNat_sub_half (a : UInt64) :
    (a - UInt64.ofNat ⌊(a.toNat : ℚ) / 2⌋₊).toNat = a.toNat - a.toNat / 2 := by
  have hlt := a.toNat_lt
  have hhalf : (UInt64.ofNat ⌊(a.toNat : ℚ) / 2⌋₊).toNat = a.toNat / 2 := by
    rw [floor_half]
    exact UInt64.toNat_ofNat_of_lt' (by change _ < 2 ^ 64; omega)
  rw [UInt64.toNat_sub_of_le _ _ (by rw [UInt64.le_iff_toNat_le, hhalf]; omega), hhalf]

lemma Succeeds.exists_stake (h : s.Succeeds p) :
    ∃ stake, s.stakePool.stakes.lookup (s.validators p).address = some stake := by
  cases hstake : s.stakePool.stakes.lookup (s.validators p).address with
  | none =>
    unfold Succeeds slashValidator at h
    simp only [hstake] at h
    cases h
  | some stake => exact ⟨stake, rfl⟩

def halved (stake : StakeInfo) : StakeInfo :=
  { stake with amount := stake.amount - UInt64.ofNat ⌊(stake.amount.toNat : ℚ) / 2⌋₊ }

lemma step_of_lookup {stake : StakeInfo}
    (h : s.stakePool.stakes.lookup (s.validators p).address = some stake) :
    s.step p = { s with
      validators := Function.update s.validators p
        { s.validators p with status := .slashed, score := 0 }
      stakePool := { s.stakePool with
        stakes := s.stakePool.stakes.insert (s.validators p).address (halved stake) }
      communityPool := s.communityPool + stake.amount.toNat / 2 } := by
  unfold step slashValidator
  simp only [h]
  rfl

lemma step_of_lookup_eq_none (h : s.stakePool.stakes.lookup (s.validators p).address = none) :
    s.step p = s := by
  unfold step slashValidator
  simp only [h]

/-- **What one slash adds**: half a unit if the amount is odd. -/
lemma total_step (h : s.Succeeds p) :
    (s.step p).total = s.total + (s.slashedAmount p % 2 : ℕ) / 2 := by
  obtain ⟨stake, hstake⟩ := h.exists_stake
  have hamount : s.slashedAmount p = stake.amount.toNat := by
    rw [slashedAmount, amount, hstake]
    rfl
  have hweight := KeyedLog.weight_of_lookup (fun _ (stake : StakeInfo) => (stake.amount.toNat : ℚ))
    hstake
  -- the amount is twice its half, and the remainder
  have hsplit : (stake.amount.toNat : ℚ) =
      2 * (stake.amount.toNat / 2 : ℕ) + (stake.amount.toNat % 2 : ℕ) := by
    exact_mod_cast (Nat.div_add_mod stake.amount.toNat 2).symm
  rw [step_of_lookup hstake, total, total, staked, KeyedLog.total_insert, hweight, halved,
    toNat_sub_half, hamount, Nat.cast_sub (Nat.div_le_self _ _), staked]
  linarith

/-- **A slash makes no stake larger.** -/
lemma shrinks_step (s : ExactSlashing) (p : ℕ) : s.Shrinks (s.step p) := by
  intro address
  cases hstake : s.stakePool.stakes.lookup (s.validators p).address with
  | none => rw [step_of_lookup_eq_none hstake]
  | some stake =>
    rw [step_of_lookup hstake, amount, amount, KeyedLog.lookup_insert_eq]
    split_ifs with haddress
    · rw [← haddress, hstake]
      show (halved stake).amount.toNat ≤ stake.amount.toNat
      rw [halved, toNat_sub_half]
      omega
    · exact le_rfl

/-! ## Runs -/

lemma total_run {ps : List ℕ} (hok : Run.Along step Succeeds s ps) :
    (ps.foldl step s).total = s.total + (s.oddSlashes ps : ℚ) / 2 := by
  induction ps generalizing s with
  | nil => simp [oddSlashes]
  | cons p ps ih =>
    rw [List.foldl_cons, ih hok.2, total_step hok.1, oddSlashes, Nat.cast_add]
    ring

/-- **The runs that keep the sum** of the stakes and the community pool: those in which every
slashed amount is even; each odd one adds half a unit. No stake becomes larger. -/
theorem total_run_iff (s : ExactSlashing) (ps : List ℕ) (hok : Run.Along step Succeeds s ps) :
    ((∀ t ∈ List.scanl step s ps, t.total = s.total) ↔
      Run.Along step (fun s p => s.slashedAmount p % 2 = 0) s ps) ∧
    (ps.foldl step s).total = s.total + (s.oddSlashes ps : ℚ) / 2 ∧
    (List.scanl step s ps).Pairwise Shrinks := by
  refine ⟨?_, total_run hok, ?_⟩
  · refine Run.forall_mem_scanl_iff (I := fun t => t.total = s.total) ?_ rfl hok
    intro t p hsame hsucceeds
    rw [total_step hsucceeds, hsame, add_eq_left, div_eq_zero_iff, or_iff_left (by norm_num),
      Nat.cast_eq_zero]
  · rw [Run.pairwise_scanl_iff fun hab hbc address => (hbc address).trans (hab address)]
    exact (Run.along_true s ps).imp fun t p _ => shrinks_step t p

def oneStake (amount : UInt64) : ExactSlashing where
  validators _ := { address := "alice" }
  stakePool := { stakes := Finmap.singleton "alice" (.fresh amount) }

theorem total_run_four : Run.Along step Succeeds (oneStake 4) [0, 0] ∧
      ∀ t ∈ List.scanl step (oneStake 4) [0, 0], t.total = (oneStake 4).total := by
  have hok : Run.Along step Succeeds (oneStake 4) [0, 0] := by decide +kernel
  exact ⟨hok, (total_run_iff (oneStake 4) [0, 0] hok).1.mpr (by decide +kernel)⟩

/-- **Half a unit out of nothing**: a stake of three loses one unit, and the community pool gains
one and a half. -/
theorem total_run_three : (oneStake 3).Succeeds 0 ∧ ((oneStake 3).step 0).amount "alice" = 2 ∧
      ((oneStake 3).step 0).communityPool = 3 / 2 ∧ (oneStake 3).total = 3 ∧
      ((oneStake 3).step 0).total = 7 / 2 := by
  decide +kernel

/-! ## Sizes -/

lemma staked_nonneg (stakes : Store String StakeInfo) : 0 ≤ staked stakes := by
  refine Multiset.sum_nonneg fun q hq => ?_
  obtain ⟨e, -, rfl⟩ := Multiset.mem_map.mp hq
  positivity

lemma amount_le_staked {stakes : Store String StakeInfo} {address : String} {stake : StakeInfo}
    (h : stakes.lookup address = some stake) : (stake.amount.toNat : ℚ) ≤ staked stakes := by
  have hrest := staked_nonneg (stakes.insert address {})
  have hweight :=
    KeyedLog.weight_of_lookup (fun _ (stake : StakeInfo) => (stake.amount.toNat : ℚ)) h
  rw [staked, KeyedLog.total_insert, hweight] at hrest
  have hzero : ((({} : StakeInfo).amount.toNat : ℕ) : ℚ) = 0 := Nat.cast_zero
  rw [hzero] at hrest
  rw [staked]
  linarith

/-- The community pool consists of halves of units. -/
def Halves (s : ExactSlashing) : Prop := ∃ n : ℕ, s.communityPool = n / 2

lemma Halves.step (h : s.Halves) (p : ℕ) : (s.step p).Halves := by
  obtain ⟨n, hn⟩ := h
  cases hstake : s.stakePool.stakes.lookup (s.validators p).address with
  | none => exact ⟨n, by rw [step_of_lookup_eq_none hstake, hn]⟩
  | some stake =>
    refine ⟨n + stake.amount.toNat, ?_⟩
    rw [step_of_lookup hstake, hn, Nat.cast_add, add_div]

lemma total_step_le (s : ExactSlashing) (p : ℕ) : 2 * (s.step p).total ≤ 2 * s.total + 1 := by
  cases hstake : s.stakePool.stakes.lookup (s.validators p).address with
  | none =>
    rw [step_of_lookup_eq_none hstake]
    linarith
  | some stake =>
    -- the sum does not depend on the database
    have hopen : ({ s with dbClosed := false } : ExactSlashing).Succeeds p := by
      unfold Succeeds slashValidator
      simp only [hstake]
      rfl
    have htotal := total_step hopen
    have hsame : (({ s with dbClosed := false } : ExactSlashing).step p).total =
        (s.step p).total := by
      rw [step_of_lookup (s := { s with dbClosed := false }) hstake, step_of_lookup hstake]
      rfl
    have hodd : ((({ s with dbClosed := false } : ExactSlashing).slashedAmount p % 2 : ℕ) : ℚ) ≤
        1 := by
      exact_mod_cast Nat.le_of_lt_succ (Nat.mod_lt _ (by norm_num))
    rw [hsame] at htotal
    have hstart : ({ s with dbClosed := false } : ExactSlashing).total = s.total := rfl
    rw [htotal, hstart]
    linarith

end ExactSlashing

/-! ## Floating-point numbers -/

namespace SlashingState

open ExactSlashing (staked Halves)

/-- A state with a floating-point community pool that is exact. -/
structure Simulates (s : SlashingState) (e : ExactSlashing) : Prop where
  validators : s.validators = e.validators
  stakePool : s.stakePool = e.stakePool
  dbClosed : s.dbClosed = e.dbClosed
  communityPool : Denotes s.communityPool e.communityPool

variable {a : UInt64} {s : SlashingState} {e : ExactSlashing}

lemma denotes_penalty (h : a.toNat ≤ 2 ^ 53) :
    Denotes (a.toFloat * slashingPenaltyRate) (a.toNat / 2) := by
  have hrate : Denotes slashingPenaltyRate (1 / 2) := by
    have hunpack : slashingPenaltyRate.toModel.unpack =
        .finite .positive (2 ^ 52) (-53) (by norm_num) := rfl
    have hconst := Binary64.denotes_of_unpack hunpack (by norm_num) (by norm_num) (.inl le_rfl)
    norm_num at hconst ⊢
    exact hconst
  have hle : (a.toNat : ℚ) * (1 / 2) ≤ 2 ^ 64 := by
    have : (a.toNat : ℚ) ≤ 2 ^ 53 := by exact_mod_cast h
    linarith
  obtain ⟨r, dr, hr⟩ := (Binary64.denotes_toFloat h).mul hrate (Binary64.le_size hle)
  rw [mul_one_div] at hr
  rwa [← hr.eq_of_representable (Binary64.representable_half h)]

lemma toUInt64_penalty (h : a.toNat ≤ 2 ^ 53) :
    (a.toFloat * slashingPenaltyRate).toUInt64 = UInt64.ofNat ⌊(a.toNat : ℚ) / 2⌋₊ := by
  have hle : (a.toNat : ℚ) ≤ 2 ^ 53 := by exact_mod_cast h
  rw [← (denotes_penalty h).toUInt64 (by linarith), UInt64.ofNat_toNat]

lemma denotes_add_penalty {pool : Float} {n : ℕ} (hpool : Denotes pool (n / 2))
    (h : n + a.toNat ≤ 2 ^ 53) :
    Denotes (pool + a.toFloat * slashingPenaltyRate) (n / 2 + a.toNat / 2) := by
  have hsum : (n : ℚ) / 2 + a.toNat / 2 = ((n + a.toNat : ℕ) : ℚ) / 2 := by
    rw [Nat.cast_add, add_div]
  have hle : (n : ℚ) / 2 + a.toNat / 2 ≤ 2 ^ 64 := by
    have : ((n + a.toNat : ℕ) : ℚ) ≤ 2 ^ 53 := by exact_mod_cast h
    linarith
  obtain ⟨r, dr, hr⟩ := hpool.add (denotes_penalty (by omega)) (Binary64.le_size hle)
  have hexact : r = (n : ℚ) / 2 + a.toNat / 2 :=
    hr.eq_of_representable (by rw [hsum]; exact Binary64.representable_half h)
  rwa [← hexact]

/-- **One slash with floating-point numbers is exact**, if the sum is below `2 ^ 52`. -/
lemma Simulates.slashValidator (h : s.Simulates e)
    (hhalves : e.Halves) (hsize : 2 * e.total ≤ 2 ^ 53) (p : ℕ) :
    (s.slashValidator p).1.Simulates (e.slashValidator p).1 ∧
      (s.slashValidator p).2 = (e.slashValidator p).2 := by
  unfold SlashingState.slashValidator ExactSlashing.slashValidator
  rw [h.validators, h.stakePool, h.dbClosed]
  cases hstake : e.stakePool.stakes.lookup (e.validators p).address with
  | none =>
    simp only [hstake]
    exact ⟨h, trivial⟩
  | some stake =>
    obtain ⟨n, hn⟩ := hhalves
    -- the pool and the amount, in halves, are part of the sum
    have hamount := ExactSlashing.amount_le_staked hstake
    have hfits : n + stake.amount.toNat ≤ 2 ^ 53 := by
      have hle : ((n + stake.amount.toNat : ℕ) : ℚ) ≤ 2 ^ 53 := by
        rw [ExactSlashing.total, hn] at hsize
        push_cast
        linarith [ExactSlashing.staked_nonneg e.stakePool.stakes]
      exact_mod_cast hle
    have hpool := denotes_add_penalty (hn ▸ h.communityPool) hfits
    simp only [hstake, toUInt64_penalty (by omega : stake.amount.toNat ≤ 2 ^ 53), hn]
    refine ⟨⟨?_, rfl, h.dbClosed, hpool⟩, trivial⟩
    show Function.update s.validators p _ = _
    rw [h.validators]

/-- **A run with floating-point numbers is exact** while the sum, with half a unit for each slash,
stays below `2 ^ 52`. -/
theorem simulates_run {ps : List ℕ} (h : s.Simulates e)
    (hhalves : e.Halves) (hsize : 2 * e.total + ps.length ≤ 2 ^ 53) :
    (ps.foldl (fun s p => (s.slashValidator p).1) s).Simulates (ps.foldl ExactSlashing.step e) := by
  induction ps generalizing s e with
  | nil => exact h
  | cons p ps ih =>
    rw [List.length_cons, Nat.cast_add, Nat.cast_one] at hsize
    have hlength : (0 : ℚ) ≤ ps.length := by positivity
    have hstep := e.total_step_le p
    refine ih (h.slashValidator hhalves (by linarith) p).1 (hhalves.step p) ?_
    linarith

def oneFloatStake : SlashingState where
  validators := (ExactSlashing.oneStake 4).validators
  stakePool := (ExactSlashing.oneStake 4).stakePool

theorem simulates_run_four :
    ([0, 0].foldl (fun s p => (s.slashValidator p).1) oneFloatStake).Simulates
      ([0, 0].foldl ExactSlashing.step (ExactSlashing.oneStake 4)) :=
  simulates_run ⟨rfl, rfl, rfl, Binary64.denotes_toFloat (n := 0) (by decide)⟩
    ⟨0, by decide +kernel⟩ (by decide +kernel)

end SlashingState

end HybridChain
