import HybridChain.GasRounding

/-!
# The state of the chain

`state.go`: a full block raises the gas price by a tenth and an empty one lowers it by a tenth,
rounded down. A price of 1 is lowered to 0, and the product with 110 wraps around to 0 for exactly
one price.

The supply, the roots and the number of outputs are left out: nothing there sets or reads them.
Times are in nanoseconds.

## Main definitions

* `updateWithBlock`, `validate`
* `KeepsPrice`: blocks that do neither

## Main results

* `validate_run_iff`: when the state is valid
-/

namespace HybridChain

open List

structure State where
  height : UInt64 := 0
  lastBlockHash : String := ""
  lastBlockTime : ℤ
  totalTransactions : UInt64 := 0
  totalBlocks : UInt64 := 0
  difficulty : UInt64
  gasPrice : UInt64
  networkVersion : UInt32
  lastUpdate : ℤ

def newState (now : ℤ) : State where
  lastBlockTime := now
  lastUpdate := now
  networkVersion := 1
  difficulty := 1
  gasPrice := 1000

/-- A block and the time at which the state is updated with it. -/
structure Update where
  now : ℤ
  block : Block

/-- More than four fifths of the gas limit of a block are used. -/
def Block.Raises (block : Block) : Prop :=
  block.header.gasUsed > 0 ∧ utilizationFloat block.header.gasUsed block.header.gasLimit > 0.8

/-- Some gas is used in a block, but less than three tenths of its gas limit. -/
def Block.Lowers (block : Block) : Prop := block.header.gasUsed > 0 ∧
    ¬ utilizationFloat block.header.gasUsed block.header.gasLimit > 0.8 ∧
    utilizationFloat block.header.gasUsed block.header.gasLimit < 0.3

instance (block : Block) : Decidable block.Raises :=
  inferInstanceAs (Decidable (_ ∧ _))

instance (block : Block) : Decidable block.Lowers :=
  inferInstanceAs (Decidable (_ ∧ _ ∧ _))

namespace State

def updateWithBlock (C : Crypto) (s : State) (update : Update) : State :=
  let header := update.block.header
  { s with
    height := header.blockNumber
    lastBlockHash := update.block.getHash C
    lastBlockTime := header.timestamp * 1000000000
    totalBlocks := s.totalBlocks + 1
    totalTransactions := s.totalTransactions + UInt64.ofNat update.block.transactions.length
    lastUpdate := update.now
    difficulty := header.difficulty.toUInt64
    gasPrice :=
      if header.gasUsed > 0 then
        if utilizationFloat header.gasUsed header.gasLimit > 0.8 then s.gasPrice * 110 / 100
        else if utilizationFloat header.gasUsed header.gasLimit < 0.3 then s.gasPrice * 90 / 100
        else s.gasPrice
      else s.gasPrice }

def validate (s : State) : Except String Unit :=
  if s.height < 0 then .error ("invalid height: " ++ toString s.height.toNat)
  else if s.totalBlocks < s.height then .error "total blocks less than height"
  else if s.difficulty < 1 then .error ("invalid difficulty: " ++ toString s.difficulty.toNat)
  else if s.gasPrice < 1 then .error ("invalid gas price: " ++ toString s.gasPrice.toNat)
  else .ok ()

variable {C : Crypto} {s : State} {update : Update}

lemma validate_eq_ok_iff : s.validate = .ok () ↔
    s.height ≤ s.totalBlocks ∧ s.difficulty ≠ 0 ∧ s.gasPrice ≠ 0 := by
  have hone : ∀ n : UInt64, n < 1 ↔ n = 0 := by
    intro n
    rw [UInt64.lt_iff_toNat_lt, ← UInt64.toNat_inj]
    exact Nat.lt_one_iff
  have hheight : ¬ s.height < 0 := UInt64.not_lt_zero
  rw [validate, if_neg hheight, ← UInt64.not_lt]
  simp only [hone]
  split_ifs with htotal hdifficulty hprice
  · exact iff_of_false (fun h => by cases h) fun h => h.1 htotal
  · exact iff_of_false (fun h => by cases h) fun h => h.2.1 hdifficulty
  · exact iff_of_false (fun h => by cases h) fun h => h.2.2 hprice
  · exact iff_of_true rfl ⟨htotal, hdifficulty, hprice⟩

/-! ## The gas price -/

lemma gasPrice_updateWithBlock_cases (C : Crypto) (s : State) (update : Update) :
    (update.block.Raises ∧ ¬ update.block.Lowers ∧
      (s.updateWithBlock C update).gasPrice = s.gasPrice * 110 / 100) ∨
    (¬ update.block.Raises ∧ update.block.Lowers ∧
      (s.updateWithBlock C update).gasPrice = s.gasPrice * 90 / 100) ∨
    (¬ update.block.Raises ∧ ¬ update.block.Lowers ∧
      (s.updateWithBlock C update).gasPrice = s.gasPrice) := by
  unfold updateWithBlock Block.Raises Block.Lowers
  simp only
  split_ifs with hused hhigh hlow
  · exact .inl ⟨⟨hused, hhigh⟩, fun h => h.2.1 hhigh, rfl⟩
  · exact .inr (.inl ⟨fun h => hhigh h.2, ⟨hused, hhigh, hlow⟩, rfl⟩)
  · exact .inr (.inr ⟨fun h => hhigh h.2, fun h => hlow h.2.2, rfl⟩)
  · exact .inr (.inr ⟨fun h => hused h.1, fun h => hused h.1, rfl⟩)

lemma toNat_mul_div (p k : UInt64) : (p * k / 100).toNat = p.toNat * k.toNat % 2 ^ 64 / 100 := by
  rw [UInt64.toNat_div, UInt64.toNat_mul]
  rfl

lemma lowered_eq_zero_iff {p : ℕ} (hpos : p ≠ 0) (hsmall : p ≤ 184467440737095516) :
    p * 90 % 2 ^ 64 / 100 = 0 ↔ p = 1 := by
  rw [Nat.mod_eq_of_lt (by omega)]
  omega

lemma raised_eq_zero_iff {p : ℕ} (hpos : p ≠ 0) (hsmall : p ≤ 184467440737095516) :
    p * 110 % 2 ^ 64 / 100 = 0 ↔ p = 167697673397359561 := by
  rcases Nat.lt_or_ge (p * 110) (2 ^ 64) with hlt | hge
  · rw [Nat.mod_eq_of_lt hlt]
    omega
  · rw [Nat.mod_eq_sub_mod hge, Nat.mod_eq_of_lt (by omega)]
    omega

/-- The price is one that a division by 100 can give. -/
def Small (s : State) : Prop := s.gasPrice.toNat ≤ 184467440737095516

lemma Small.updateWithBlock (h : s.Small) (update : Update) :
    (s.updateWithBlock C update).Small := by
  have hquotient : ∀ n : ℕ, n % 2 ^ 64 / 100 ≤ 184467440737095516 := by
    intro n
    omega
  rw [Small]
  rcases gasPrice_updateWithBlock_cases C s update with
    ⟨-, -, hprice⟩ | ⟨-, -, hprice⟩ | ⟨-, -, hprice⟩
  · rw [hprice, toNat_mul_div]
    exact hquotient _
  · rw [hprice, toNat_mul_div]
    exact hquotient _
  · rw [hprice]
    exact h

/-- A block neither lowers a price of 1 nor raises the one price whose product with 110 wraps around
to less than 100. -/
def KeepsPrice (s : State) (update : Update) : Prop := (update.block.Lowers → s.gasPrice ≠ 1) ∧
    (update.block.Raises → s.gasPrice ≠ 167697673397359561)

instance (s : State) (update : Update) : Decidable (s.KeepsPrice update) :=
  inferInstanceAs (Decidable (_ ∧ _))

lemma gasPrice_ne_zero_of_updateWithBlock (h : (s.updateWithBlock C update).gasPrice ≠ 0) :
    s.gasPrice ≠ 0 := by
  intro hzero
  apply h
  rcases gasPrice_updateWithBlock_cases C s update with
    ⟨-, -, hprice⟩ | ⟨-, -, hprice⟩ | ⟨-, -, hprice⟩ <;> rw [hprice, hzero]
  · rfl
  · rfl

/-- **One block**: when the price does not become 0. -/
lemma gasPrice_updateWithBlock_ne_zero_iff (hne : s.gasPrice ≠ 0) (hsmall : s.Small) :
    (s.updateWithBlock C update).gasPrice ≠ 0 ↔ s.KeepsPrice update := by
  have hpos : s.gasPrice.toNat ≠ 0 := fun h => hne (UInt64.toNat_inj.mp h)
  rw [KeepsPrice]
  rcases gasPrice_updateWithBlock_cases C s update with
    ⟨hup, hnot, hprice⟩ | ⟨hnot, hdown, hprice⟩ | ⟨hnot, hnot', hprice⟩
  · simp only [hup, hnot, true_imp_iff, false_imp_iff, true_and]
    rw [not_iff_not, hprice, ← UInt64.toNat_inj, ← UInt64.toNat_inj, toNat_mul_div]
    exact raised_eq_zero_iff hpos hsmall
  · simp only [hdown, hnot, true_imp_iff, false_imp_iff, and_true]
    rw [not_iff_not, hprice, ← UInt64.toNat_inj, ← UInt64.toNat_inj, toNat_mul_div]
    exact lowered_eq_zero_iff hpos hsmall
  · simp only [hnot, hnot', false_imp_iff, and_true, hprice]
    exact iff_of_true hne trivial

/-- **All blocks**: when the price is not 0 in the end. -/
theorem gasPrice_foldl_ne_zero_iff (hne : s.gasPrice ≠ 0) (hsmall : s.Small)
    (updates : List Update) : (updates.foldl (updateWithBlock C) s).gasPrice ≠ 0 ↔
      Run.Along (updateWithBlock C) KeepsPrice s updates := by
  have hlost : ∀ (s : State) (update : Update),
      (s.updateWithBlock C update).gasPrice ≠ 0 → s.gasPrice ≠ 0 :=
    fun _ _ h => gasPrice_ne_zero_of_updateWithBlock h
  have hall : Run.Along (updateWithBlock C) (fun s _ => s.Small) s updates :=
    Run.along_of_invariant (fun _ update h => h.updateWithBlock update) hsmall updates
  rw [Run.foldl_iff_forall_mem_scanl (I := fun s : State => s.gasPrice ≠ 0) hlost]
  exact Run.forall_mem_scanl_iff (I := fun s : State => s.gasPrice ≠ 0)
    (fun _ _ hne hsmall => gasPrice_updateWithBlock_ne_zero_iff hne hsmall) hne hall

/-! ## The state after some blocks -/

lemma totalBlocks_foldl (s : State) (updates : List Update) :
    (updates.foldl (updateWithBlock C) s).totalBlocks =
      s.totalBlocks + UInt64.ofNat updates.length := by
  induction updates generalizing s with
  | nil => exact (UInt64.add_zero _).symm
  | cons update updates ih =>
    rw [foldl_cons, ih, length_cons, UInt64.ofNat_add]
    show s.totalBlocks + 1 + _ = _
    rw [UInt64.add_assoc, UInt64.add_comm 1]
    rfl

end State

/-- A block that comes after `i` others, with a difficulty and a gas limit that are positive, and
not more gas than the limit. -/
structure Block.InSequence (i : ℕ) (block : Block) : Prop where
  blockNumber : block.header.blockNumber.toNat = i + 1
  difficulty_pos : 1 ≤ block.header.difficulty
  gasLimit_pos : 0 < block.header.gasLimit
  gasUsed_le : block.header.gasUsed ≤ block.header.gasLimit

namespace State

variable {C : Crypto} {s : State} (now : ℤ)

lemma validate_foldl_iff {updates : List Update}
    (h : ∀ (i : ℕ) (update : Update), updates[i]? = some update → update.block.InSequence i) :
    (updates.foldl (updateWithBlock C) (newState now)).validate = .ok () ↔
      (updates.foldl (updateWithBlock C) (newState now)).gasPrice ≠ 0 := by
  rw [validate_eq_ok_iff]
  refine ⟨fun hvalid => hvalid.2.2, fun hprice => ⟨?_, ?_, hprice⟩⟩
  · rw [totalBlocks_foldl]
    rcases updates.eq_nil_or_concat with rfl | ⟨updates, update, rfl⟩
    · exact UInt64.le_refl _
    · have hlast := h updates.length update (by simp)
      rw [concat_eq_append, foldl_append, length_append]
      show update.block.header.blockNumber ≤ 0 + UInt64.ofNat (updates.length + 1)
      rw [UInt64.zero_add, ← hlast.blockNumber, UInt64.ofNat_toNat]
      exact UInt64.le_refl _
  · rcases updates.eq_nil_or_concat with rfl | ⟨updates, update, rfl⟩
    · exact (by decide : (1 : UInt64) ≠ 0)
    · have hlast := h updates.length update (by simp)
      rw [concat_eq_append, foldl_append]
      show update.block.header.difficulty.toUInt64 ≠ 0
      have hpos := hlast.difficulty_pos
      rw [UInt32.le_iff_toNat_le] at hpos
      intro hzero
      rw [← UInt64.toNat_inj, UInt32.toNat_toUInt64] at hzero
      rw [hzero] at hpos
      exact absurd hpos (by decide)

lemma gasPrice_newState_ne_zero : (newState now).gasPrice ≠ 0 :=
  (by decide : (1000 : UInt64) ≠ 0)

lemma small_newState : (newState now).Small := (by decide : 1000 ≤ 184467440737095516)

/-- **When the state is valid** after blocks numbered from 1 with a positive difficulty and gas
limit and not more gas than that: exactly if no block lowers a gas price of 1, and none raises the
one price for which the product wraps around to 0. -/
theorem validate_run_iff (C : Crypto) (now : ℤ) (updates : List Update)
    (h : ∀ (i : ℕ) (update : Update), updates[i]? = some update → update.block.InSequence i) :
    (updates.foldl (updateWithBlock C) (newState now)).validate = .ok () ↔
      Run.Along (updateWithBlock C) KeepsPrice (newState now) updates := by
  rw [validate_foldl_iff now h]
  exact gasPrice_foldl_ne_zero_iff (gasPrice_newState_ne_zero now) (small_newState now) updates

def quietBlocks (n : ℕ) : List Update := (List.range n).map fun i =>
    { now := 0,
      block := { header := {
        blockNumber := UInt64.ofNat (i + 1), difficulty := 1, gasLimit := 15000000,
        gasUsed := 21000 } } }

lemma quietBlocks_inSequence {n : ℕ} (hn : n < 2 ^ 64) (i : ℕ) (update : Update)
    (h : (quietBlocks n)[i]? = some update) : update.block.InSequence i := by
  obtain ⟨hi, rfl⟩ := List.getElem?_eq_some_iff.mp h
  rw [quietBlocks, length_map, length_range] at hi
  simp only [quietBlocks, getElem_map, getElem_range]
  have hgas : (21000 : UInt64) ≤ 15000000 := by decide
  have hlimit : (0 : UInt64) < 15000000 := by decide
  exact ⟨UInt64.toNat_ofNat_of_lt' (lt_of_le_of_lt hi hn), UInt32.le_refl _, hlimit, hgas⟩

theorem validate_run_ten :
    ((quietBlocks 10).foldl (updateWithBlock .sample) (newState 0)).validate = .ok () := by
  refine (validate_run_iff .sample 0 _ (quietBlocks_inSequence (by norm_num))).mpr ?_
  decide +kernel

/-- Fifty quiet blocks lower the gas price to 0. -/
theorem validate_run_fifty : (∀ (i : ℕ) (update : Update), (quietBlocks 50)[i]? = some update →
      update.block.InSequence i) ∧
    ((quietBlocks 50).foldl (updateWithBlock .sample) (newState 0)).validate =
      .error "invalid gas price: 0" := by
  refine ⟨quietBlocks_inSequence (by norm_num), ?_⟩
  decide +kernel

end State

end HybridChain
