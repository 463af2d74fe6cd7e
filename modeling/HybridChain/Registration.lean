import HybridChain.StakeLedger

/-!
# Registration messages

Two handlers of a node (`p2p.go`) register validators that a peer tells of, by `AddValidator`, which
adds to a stake that is there.

A message is what the JSON decoder makes of it. Whether the transaction that a broadcast names is
known is only logged.

## Main definitions

* `handleValidatorBroadcast`, `handleStakeSync`
* `Registration.Adds`

## Main results

* `registrations_idempotent_iff`: only messages that add nothing are idempotent
-/

namespace HybridChain

open KeyedLog (Store)

/-! ## Messages -/

/-- A value in a decoded `map[string]interface{}`. -/
inductive GoValue where
  | string (s : String)
  | float64 (x : Float)
  | other

abbrev GoMap := Store String GoValue

/-- The type assertion `data[key].(string)`. -/
def stringField (data : GoMap) (key : String) : Option String :=
  match data.lookup key with
  | some (.string s) => some s
  | _ => none

/-- The type assertion `data[key].(float64)`. -/
def floatField (data : GoMap) (key : String) : Option Float :=
  match data.lookup key with
  | some (.float64 x) => some x
  | _ => none

/-- What a message says about a validator. -/
structure Registration where
  address : String
  stake : Float
  hostID : String

/-- Read a registration, its address and its host being under given keys. -/
def readRegistration (data : GoMap) (addressKey hostKey : String) : Option Registration := do
  let address ← stringField data addressKey
  let stake ← floatField data "stake"
  let hostID ← stringField data hostKey
  return { address := address, stake := stake, hostID := hostID }

/-- The registration in a validator broadcast, which also has to name a transaction. -/
def broadcastRegistration (data : GoMap) : Option Registration := do
  let registration ← readRegistration data "address" "host_id"
  let _ ← stringField data "transaction_id"
  return registration

def updateRegistration (data : GoMap) : Option Registration :=
  readRegistration data "validator" "hostID"

/-! ## The handlers -/

variable (uint64 : Float → UInt64)

/-- Register a validator with the pool of a node, if it has one. -/
def register (pool : Option StakePool) (registration : Registration) (now : ℤ) :
    Option StakePool × Except String Unit :=
  match pool with
  | none => (none, .error "Stake pool not available")
  | some sp =>
    let result :=
      sp.addValidator uint64 registration.address registration.stake registration.hostID now
    (some result.1, result.2)

/-- `handleValidatorBroadcast`: the pool of the node afterwards, and the answer. -/
def handleValidatorBroadcast (pool : Option StakePool) (validatorData : Option GoMap) (now : ℤ) :
    Option StakePool × Option String :=
  match validatorData.bind broadcastRegistration with
  | none => (pool, none)
  | some registration =>
    match register uint64 pool registration now with
    | (pool, .error _) => (pool, some "ER")
    | (pool, .ok _) => (pool, some "OK")

/-- What a peer sends to `handleStakeSync`: a request with a type, and then an update. -/
structure StakeSyncMessage where
  requestType : Option String
  update : Option GoMap

/-- `handleStakeSync`: the pool of the node afterwards, and the stakes sent back. -/
def handleStakeSync (pool : Option StakePool) (message : StakeSyncMessage) (now : ℤ) :
    Option StakePool × Option (Store String StakeInfo) :=
  match message.requestType with
  | none => (pool, none)
  | some requestType =>
    if requestType = "sync" then (pool, pool.map StakePool.stakes)
    else
      match message.update.bind updateRegistration with
      | none => (pool, none)
      | some registration => ((register uint64 pool registration now).1, none)

/-- The registration that `handleStakeSync` acts on. -/
def StakeSyncMessage.registration (message : StakeSyncMessage) : Option Registration :=
  if message.requestType.any (· ≠ "sync") then message.update.bind updateRegistration else none

/-! ## Handling a message twice -/

/-- The amount and the hosts that a pool has for a wallet. -/
def holding (pool : Option StakePool) (wallet : String) :
    Option (Option (UInt64 × String) × Option String) :=
  pool.map fun sp => ((sp.stakes.lookup wallet).map fun stake => (stake.amount, stake.hostID),
    sp.walletToHost.lookup wallet)

/-- A registration that is accepted and whose stake is not zero. -/
def Registration.Adds (registration : Registration) : Prop :=
  registration.address ≠ "" ∧ registration.hostID ≠ "" ∧ ¬ registration.stake < 0 ∧
    uint64 registration.stake ≠ 0

instance (registration : Registration) : Decidable (registration.Adds uint64) :=
  inferInstanceAs (Decidable (_ ∧ _))

variable {uint64} {registration : Registration} (pool : Option StakePool)

lemma handleValidatorBroadcast_fst (validatorData : Option GoMap) (now : ℤ) :
    (handleValidatorBroadcast uint64 pool validatorData now).1 =
      (validatorData.bind broadcastRegistration).elim pool fun registration =>
        (register uint64 pool registration now).1 := by
  rw [handleValidatorBroadcast]
  cases validatorData.bind broadcastRegistration with
  | none => rfl
  | some registration =>
    simp only [Option.elim_some]
    split <;> simp_all

lemma handleStakeSync_fst (message : StakeSyncMessage) (now : ℤ) :
    (handleStakeSync uint64 pool message now).1 = message.registration.elim pool fun registration =>
        (register uint64 pool registration now).1 := by
  rw [handleStakeSync, StakeSyncMessage.registration]
  cases message.requestType with
  | none => rfl
  | some requestType =>
    by_cases hsync : requestType = "sync"
    · simp [hsync]
    · simp only [hsync, if_false, Option.any_some, ne_eq, not_false_iff, decide_true, if_true]
      cases message.update.bind updateRegistration <;> rfl

lemma register_of_rejected (sp : StakePool) (now : ℤ)
    (h : registration.address = "" ∨ registration.hostID = "" ∨ registration.stake < 0) :
    (register uint64 (some sp) registration now).1 = some sp := by
  simp only [register, StakePool.addValidator]
  split_ifs <;> first | rfl | simp_all

lemma holding_register (uint64 : Float → UInt64) (sp : StakePool) (now : ℤ)
    (haddress : registration.address ≠ "") (hhost : registration.hostID ≠ "")
    (hstake : ¬ registration.stake < 0) (wallet : String) :
    holding (register uint64 (some sp) registration now).1 wallet =
      if registration.address = wallet then
        some (some (((sp.stakes.lookup wallet).elim 0 StakeInfo.amount) +
          uint64 registration.stake, registration.hostID), some registration.hostID)
      else holding (some sp) wallet := by
  simp only [register, StakePool.addValidator, if_neg haddress, if_neg hhost, if_neg hstake,
    holding, Option.map_some, KeyedLog.lookup_insert_eq]
  split_ifs with heq
  · subst heq
    cases sp.stakes.lookup registration.address <;> simp [StakeInfo.register, StakeInfo.create]
  · rfl

lemma exists_register (uint64 : Float → UInt64) (sp : StakePool) (now : ℤ)
    (haddress : registration.address ≠ "") (hhost : registration.hostID ≠ "")
    (hstake : ¬ registration.stake < 0) :
    ∃ once, (register uint64 (some sp) registration now).1 = some once ∧
      (once.stakes.lookup registration.address).elim 0 StakeInfo.amount =
        (sp.stakes.lookup registration.address).elim 0 StakeInfo.amount +
          uint64 registration.stake := by
  obtain ⟨once, hregister⟩ :
      ∃ once, (register uint64 (some sp) registration now).1 = some once := ⟨_, rfl⟩
  refine ⟨once, hregister, ?_⟩
  have hheld := holding_register uint64 sp now haddress hhost hstake registration.address
  rw [hregister, if_pos rfl, holding, Option.map_some, Option.some_inj, Prod.mk.injEq,
    Option.map_eq_some_iff] at hheld
  obtain ⟨⟨stake, hlookup, hheld⟩, -⟩ := hheld
  rw [hlookup]
  exact congrArg Prod.fst hheld

/-- **Registering twice** leaves what registering once leaves exactly if nothing was added. -/
lemma register_twice_iff (registration : Registration) (now later : ℤ) : (∀ wallet,
      holding (register uint64 (register uint64 pool registration now).1 registration later).1
          wallet = holding (register uint64 pool registration now).1 wallet) ↔
      pool = none ∨ ¬ registration.Adds uint64 := by
  cases pool with
  | none => simp [register]
  | some sp =>
    by_cases hrejected :
        registration.address = "" ∨ registration.hostID = "" ∨ registration.stake < 0
    · have hadds : ¬ registration.Adds uint64 := by
        rintro ⟨haddress, hhost, hstake, -⟩
        tauto
      simp [register_of_rejected sp _ hrejected, hadds]
    · simp only [not_or] at hrejected
      obtain ⟨haddress, hhost, hstake⟩ := hrejected
      have hadds : registration.Adds uint64 ↔ uint64 registration.stake ≠ 0 := by
        simp [Registration.Adds, haddress, hhost, hstake]
      have honce := holding_register uint64 sp now haddress hhost hstake
      obtain ⟨once, hregister, hamount⟩ := exists_register uint64 sp now haddress hhost hstake
      rw [hregister] at honce ⊢
      rw [hadds, not_not]
      constructor
      · intro h
        have hsame := h registration.address
        rw [holding_register uint64 once later haddress hhost hstake, if_pos rfl, hamount,
          honce, if_pos rfl] at hsame
        right
        simpa using hsame
      · rintro (hnone | hzero) wallet
        · cases hnone
        · rw [holding_register uint64 once later haddress hhost hstake]
          split_ifs with heq
          · subst heq
            rw [hamount, honce, if_pos rfl, hzero]
            simp
          · rfl

/-- **Registration messages are idempotent** exactly if they add nothing: if the node has no pool or
the message is no accepted registration of a stake. -/
theorem registrations_idempotent_iff (uint64 : Float → UInt64) (pool : Option StakePool)
    (now later : ℤ) : (∀ validatorData : Option GoMap,
      (∀ wallet, holding (handleValidatorBroadcast uint64
          (handleValidatorBroadcast uint64 pool validatorData now).1 validatorData later).1 wallet =
        holding (handleValidatorBroadcast uint64 pool validatorData now).1 wallet) ↔
      pool = none ∨ ∀ registration ∈ validatorData.bind broadcastRegistration,
        ¬ registration.Adds uint64) ∧ ∀ message : StakeSyncMessage,
      (∀ wallet, holding (handleStakeSync uint64
          (handleStakeSync uint64 pool message now).1 message later).1 wallet =
        holding (handleStakeSync uint64 pool message now).1 wallet) ↔
      pool = none ∨ ∀ registration ∈ message.registration, ¬ registration.Adds uint64 := by
  constructor
  · intro validatorData
    simp only [handleValidatorBroadcast_fst]
    cases validatorData.bind broadcastRegistration with
    | none => simp
    | some registration => simpa using register_twice_iff pool registration now later
  · intro message
    simp only [handleStakeSync_fst]
    cases message.registration with
    | none => simp
    | some registration => simpa using register_twice_iff pool registration now later

def fiveBroadcast : GoMap :=
  (((∅ : GoMap).insert "address" (.string "wallet")).insert "stake" (.float64 5)).insert "host_id"
    (.string "host") |>.insert "transaction_id" (.string "tx")

/-- Handled twice, a broadcast about a stake of 5 makes it 10. -/
theorem replayed_broadcast_adds :
    holding (handleValidatorBroadcast Float.toUInt64 (some {}) (some fiveBroadcast) 0).1 "wallet" =
        some (some (5, "host"), some "host") ∧ holding (handleValidatorBroadcast Float.toUInt64
        (handleValidatorBroadcast Float.toUInt64 (some {}) (some fiveBroadcast) 0).1
          (some fiveBroadcast) 1).1 "wallet" = some (some (10, "host"), some "host") := by
  decide +kernel

end HybridChain
