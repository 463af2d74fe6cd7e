import HybridChain.Lib.Run

/-!
# The gas of the transactions of a block

`tracker.go` of the package `gas`: the sum of the gas of the accepted transactions is a machine
word, which may wrap around.

## Main definitions

* `BlockGasTracker`, `addTransaction`
* `Books`, `Exact`, `Fair`: what the accounting should be

## Main results

* `run_exact_iff`: exact accounting is the same as no wrapped sum
-/

namespace HybridChain

/-- `BlockGasTracker`, without its lock. Its gas model is never read. -/
structure BlockGasTracker where
  gasUsed : UInt64 := 0
  gasLimit : UInt64
  txCount : ℕ := 0
  deriving DecidableEq

def newBlockGasTracker (gasLimit : UInt64) : BlockGasTracker where
  gasLimit := gasLimit

namespace BlockGasTracker

/-- `AddTransaction`, for a transaction that uses `gasUsed`. -/
def addTransaction (bt : BlockGasTracker) (gasUsed : UInt64) : Except String BlockGasTracker :=
  if bt.gasUsed + gasUsed > bt.gasLimit then .error "block gas limit exceeded"
  else .ok { bt with gasUsed := bt.gasUsed + gasUsed, txCount := bt.txCount + 1 }

def reset (bt : BlockGasTracker) : BlockGasTracker := { bt with gasUsed := 0, txCount := 0 }

/-! ## Whole runs -/

inductive Call where
  | addTransaction (gasUsed : UInt64)
  | reset
  deriving DecidableEq

/-- A tracker and the amounts that it has accepted since the last reset. -/
structure Books where
  tracker : BlockGasTracker
  accepted : List UInt64 := []
  deriving DecidableEq

namespace Books

def step (books : Books) : Call → Books
  | .addTransaction gasUsed =>
    match books.tracker.addTransaction gasUsed with
    | .error _ => books
    | .ok tracker => { tracker := tracker, accepted := books.accepted ++ [gasUsed] }
  | .reset => { tracker := books.tracker.reset }

/-- The accepted amounts, added up without a bound. -/
def total (books : Books) : ℕ := (books.accepted.map UInt64.toNat).sum

/-- The tracker has the exact sum of the accepted amounts, and the sum is within the limit. -/
structure Exact (gasLimit : UInt64) (books : Books) : Prop where
  limit_eq : books.tracker.gasLimit = gasLimit
  gasUsed_eq : books.tracker.gasUsed.toNat = books.total
  gasUsed_le : books.tracker.gasUsed ≤ gasLimit

/-- Adding a transaction does not lower the gas that is used, and it is refused only if it would
exceed the limit. -/
def Fair (books : Books) : Call → Prop
  | .addTransaction gasUsed =>
    books.tracker.gasUsed ≤ (books.step (.addTransaction gasUsed)).tracker.gasUsed ∧
      ∀ e, books.tracker.addTransaction gasUsed = .error e →
        books.tracker.gasLimit.toNat < books.total + gasUsed.toNat
  | .reset => True

/-- The sum does not wrap around to one that is within the limit. -/
def NoWrap (books : Books) : Call → Prop
  | .addTransaction gasUsed =>
    ¬ (2 ^ 64 ≤ books.tracker.gasUsed.toNat + gasUsed.toNat ∧
      books.tracker.gasUsed.toNat + gasUsed.toNat ≤ books.tracker.gasLimit.toNat + 2 ^ 64)
  | .reset => True

/-- **What happens to a transaction** depends on the sum modulo the size of a word: it is refused
and nothing changes, or it is accepted. -/
lemma step_addTransaction_cases (books : Books) (gasUsed : UInt64) :
    (books.tracker.gasLimit.toNat < (books.tracker.gasUsed.toNat + gasUsed.toNat) % 2 ^ 64 ∧
      books.step (.addTransaction gasUsed) = books) ∨
    ((books.tracker.gasUsed.toNat + gasUsed.toNat) % 2 ^ 64 ≤ books.tracker.gasLimit.toNat ∧
      (∀ e, books.tracker.addTransaction gasUsed ≠ .error e) ∧
      books.step (.addTransaction gasUsed) =
        { tracker := { books.tracker with
            gasUsed := books.tracker.gasUsed + gasUsed, txCount := books.tracker.txCount + 1 },
          accepted := books.accepted ++ [gasUsed] }) := by
  rw [← UInt64.toNat_add, ← UInt64.lt_iff_toNat_lt, ← UInt64.le_iff_toNat_le, step, addTransaction]
  by_cases hlimit : books.tracker.gasUsed + gasUsed > books.tracker.gasLimit
  · rw [if_pos hlimit]
    exact .inl ⟨hlimit, rfl⟩
  · rw [if_neg hlimit]
    exact .inr ⟨UInt64.not_lt.mp hlimit, fun e herror => (by cases herror), rfl⟩

lemma total_append (tracker : BlockGasTracker) (accepted : List UInt64) (gasUsed : UInt64) :
    total { tracker := tracker, accepted := accepted ++ [gasUsed] } =
      (accepted.map UInt64.toNat).sum + gasUsed.toNat := by
  rw [total, List.map_append, List.sum_append, List.map_singleton, List.sum_singleton]

/-- **One call** keeps the books exact, and is fair, exactly if the sum does not wrap around to one
that is accepted. -/
lemma Exact.exact_and_fair_iff {gasLimit : UInt64} {books : Books} (h : books.Exact gasLimit)
    (call : Call) :
    (books.step call).Exact gasLimit ∧ books.Fair call ↔ books.NoWrap call := by
  obtain ⟨rfl, hused, hle⟩ := h
  rw [UInt64.le_iff_toNat_le] at hle
  have hword := books.tracker.gasLimit.toNat_lt
  cases call with
  | reset =>
    refine iff_of_true ⟨⟨rfl, rfl, ?_⟩, trivial⟩ trivial
    exact UInt64.le_iff_toNat_le.mpr (Nat.zero_le _)
  | addTransaction gasUsed =>
    have hamount := gasUsed.toNat_lt
    rw [Fair, NoWrap]
    rcases step_addTransaction_cases books gasUsed with ⟨hover, hstep⟩ | ⟨hfits, haccepted, hstep⟩
    · rw [hstep]
      refine iff_of_true ⟨⟨rfl, hused, ?_⟩, UInt64.le_refl _, fun _ _ => ?_⟩ ?_
      · exact UInt64.le_iff_toNat_le.mpr hle
      · omega
      · omega
    · rw [hstep]
      constructor
      · rintro ⟨⟨-, hsum, -⟩, -, -⟩ ⟨hwrap, -⟩
        rw [total_append, UInt64.toNat_add] at hsum
        rw [total] at hused
        omega
      · intro hnot
        have hsmall : books.tracker.gasUsed.toNat + gasUsed.toNat < 2 ^ 64 := by omega
        have hsum : (books.tracker.gasUsed + gasUsed).toNat =
            books.tracker.gasUsed.toNat + gasUsed.toNat := by
          rw [UInt64.toNat_add, Nat.mod_eq_of_lt hsmall]
        refine ⟨⟨rfl, ?_, ?_⟩, ?_, fun e herror => absurd herror (haccepted e)⟩
        · rw [total_append, hsum, hused, total]
        · rw [UInt64.le_iff_toNat_le, hsum]
          omega
        · rw [UInt64.le_iff_toNat_le, hsum]
          omega

end Books

/-- **When the accounting is exact**: the gas used is the sum accepted since the last reset, within
the limit, and a transaction is refused only if it would exceed the limit, exactly if no call makes
the sum wrap around to one within the limit. -/
theorem run_exact_iff (gasLimit : UInt64) (calls : List Call) :
    ((∀ books ∈ List.scanl Books.step { tracker := newBlockGasTracker gasLimit } calls,
        books.Exact gasLimit) ∧
      Run.Along Books.step Books.Fair { tracker := newBlockGasTracker gasLimit } calls) ↔
      Run.Along Books.step Books.NoWrap { tracker := newBlockGasTracker gasLimit } calls := by
  refine Run.forall_mem_and_along_iff (fun books call hexact _ => hexact.exact_and_fair_iff call)
    ?_ (Run.along_true _ _)
  exact ⟨rfl, rfl, UInt64.le_iff_toNat_le.mpr (Nat.zero_le _)⟩

/-- After a transaction of 1 gas, one of `2 ^ 64 - 1` is accepted, and no gas is used any more. -/
theorem run_not_exact : (newBlockGasTracker 15000000).addTransaction 1 =
        .ok { gasUsed := 1, gasLimit := 15000000, txCount := 1 } ∧
      addTransaction { gasUsed := 1, gasLimit := 15000000, txCount := 1 } 18446744073709551615 =
        .ok { gasUsed := 0, gasLimit := 15000000, txCount := 2 } ∧
      ¬ ∀ books ∈ List.scanl Books.step { tracker := newBlockGasTracker 15000000 }
          [.addTransaction 1, .addTransaction 18446744073709551615], books.Exact 15000000 := by
  refine ⟨by decide, by decide, fun hexact => ?_⟩
  have hlast := hexact _ (Run.foldl_mem_scanl _ _)
  exact absurd hlast.gasUsed_eq (by decide)

end BlockGasTracker

end HybridChain
