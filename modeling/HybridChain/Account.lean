import HybridChain.Transaction

/-!
# Account states

`account_state.go`: the account manager keeps account states in memory, backed by a database.

The cache of balances and the two background loops are left out: no modelled function reads what
they write.

## Main definitions

* `AccountManager`, `getAccountState`, `saveAccountState`
* `update`: a change made through the pointer that `GetAccountState` hands out

## Main results

* `view_foldl_update`: a loop of updates changes each account on its own
-/

namespace HybridChain

open KeyedLog (Store)

/-- The state of one account. -/
@[ext]
structure AccountState where
  address : String
  nonce : UInt64 := 0
  balance : ℚ := 0
  lastActivity : ℤ := 0
  utxos : Store String String := ∅
  pendingTxs : Store String Bool := ∅
  deriving DecidableEq

/-- The account manager: the accounts in memory, and the database entries `acc:<address>`. -/
structure AccountManager where
  accounts : Store String AccountState
  stored : Store String AccountState
  /-- A closed database fails every call. -/
  closed : Bool := false

namespace AccountManager

variable (am : AccountManager)

/-- `loadAccountState`: an error is `none`. -/
def loadAccountState (address : String) : Option AccountState :=
  if am.closed then none else am.stored.lookup address

/-- `saveAccountState`, under the address the state carries. -/
def saveAccountState (state : AccountState) : AccountManager :=
  if am.closed then am else { am with stored := am.stored.insert state.address state }

/-- `GetAccountState`: the state and the manager that now holds it in memory. -/
def getAccountState (address : String) : AccountState × AccountManager :=
  match am.accounts.lookup address with
  | some state => (state, am)
  | none =>
    let (state, am) :=
      match am.loadAccountState address with
      | some state => (state, am)
      | none => ({ address := address }, am.saveAccountState { address := address })
    (state, { am with accounts := am.accounts.insert address state })

/-- The state an address has: what `getAccountState` returns. -/
def view (address : String) : AccountState := (am.getAccountState address).1

/-- Fetch the state of an address and change it through the pointer. -/
def update (address : String) (f : AccountState → AccountState) : AccountManager :=
  let (state, am) := am.getAccountState address
  { am with accounts := am.accounts.insert address (f state) }

/-- `BatchUpdateAccounts` on the states of the given addresses, which are those in memory. -/
def batchUpdateAccounts (addresses : List String) : AccountManager :=
  if am.closed then am
  else
    { am with
      stored := addresses.foldl
        (fun db address => match am.accounts.lookup address with
          | some state => db.insert address state
          | none => db)
        am.stored }

/-! ## What an address sees -/

lemma view_eq (a : String) :
    am.view a = ((am.accounts.lookup a).orElse fun _ => am.loadAccountState a).getD
      { address := a } := by
  unfold view getAccountState
  cases am.accounts.lookup a with
  | some state => rfl
  | none => cases am.loadAccountState a <;> rfl

variable (a b : String)

lemma view_getAccountState : (am.getAccountState a).2.view b = am.view b := by
  unfold getAccountState
  cases hmem : am.accounts.lookup a with
  | some state => rfl
  | none =>
    cases hload : am.loadAccountState a with
    | some state =>
      by_cases hab : a = b
      · subst hab
        simp [view_eq, hmem, hload]
      · simp [view_eq, loadAccountState, KeyedLog.lookup_insert_eq, hab]
    | none =>
      by_cases hab : a = b
      · subst hab
        simp [view_eq, hmem, hload]
      · by_cases hc : am.closed <;>
          simp [view_eq, saveAccountState, loadAccountState, KeyedLog.lookup_insert_eq, hab, hc]

lemma view_insert (state : AccountState) :
    ({ am with accounts := am.accounts.insert a state } : AccountManager).view b =
      if a = b then state else am.view b := by
  by_cases hab : a = b
  · subst hab
    simp [view_eq]
  · simp [view_eq, loadAccountState, KeyedLog.lookup_insert_eq, hab]

/-- **An update changes the view of its own address only.** -/
@[simp] lemma view_update (f : AccountState → AccountState) :
    (am.update a f).view b = if a = b then f (am.view a) else am.view b := by
  rw [show am.update a f = { (am.getAccountState a).2 with
    accounts := (am.getAccountState a).2.accounts.insert a (f (am.view a)) } from rfl,
    view_insert, view_getAccountState]

@[simp] lemma view_batchUpdateAccounts (as : List String) (b : String) :
    (am.batchUpdateAccounts as).view b = am.view b := by
  unfold batchUpdateAccounts
  by_cases hc : am.closed
  · rw [if_pos hc]
  rw [if_neg hc]
  simp only [view_eq, loadAccountState, if_neg hc]
  cases hmem : am.accounts.lookup b with
  | some state => rfl
  | none =>
    -- `b` is not in memory, so no write of the batch is under its key
    have hkeep : ∀ db : Store String AccountState,
        (as.foldl (fun db address => match am.accounts.lookup address with
          | some state => db.insert address state
          | none => db) db).lookup b = db.lookup b := by
      induction as with
      | nil => intro db; rfl
      | cons a as ih =>
        intro db
        rw [List.foldl_cons, ih]
        cases ha : am.accounts.lookup a with
        | none => rfl
        | some state =>
          have hab : a ≠ b := by
            rintro rfl
            simp [hmem] at ha
          simp [KeyedLog.lookup_insert_eq, hab]
    simp only [hkeep, Option.orElse_none]

/-- **Updates of distinct accounts do not interfere**: each account is changed by its own update,
so the order in which the accounts are visited does not matter. -/
theorem view_foldl_update (f : String → AccountState → AccountState) {as : List String}
    (has : as.Nodup) (b : String) :
    (as.foldl (fun am a => am.update a (f a)) am).view b =
      if b ∈ as then f b (am.view b) else am.view b := by
  induction as generalizing am with
  | nil => simp
  | cons a as ih =>
    rw [List.nodup_cons] at has
    rw [List.foldl_cons, ih _ has.2, view_update]
    by_cases hab : a = b
    · subst hab
      simp [has.1]
    · simp [hab, Ne.symm hab]

end AccountManager

end HybridChain
