import HybridChain.Slashing
import HybridChain.Lib.Cells

/-!
# The stake pool in full

The stake pool (`stake_pool.go`) with all its operations on its two maps, the stakes and the hosts
of the wallets.

Times are nanoseconds, and all calls of `time.Now` within one operation give the same time. Go fixes
the conversion of a `float64` to a `uint64` only where the value fits; here it is a parameter. No
entry of the pool is nil. The message about a locked withdrawal leaves out the time.

## Main definitions

* `step`: the operations
* `StakeAccount.step`: what they do to one wallet

## Main results

* `acts`: every operation acts on each wallet separately
* `paired_run_iff`: when stakes and hosts stay paired
-/

namespace HybridChain

open Finmap
open KeyedLog (Store)

/-! ## Stakes -/

/-- The stakes a peer sends, some of them nil, and the order in which they are enumerated. -/
structure PeerStakes where
  stakes : Store String (Option StakeInfo)
  order : List String
  nodup : order.Nodup
  mem_order : ∀ wallet, wallet ∈ order ↔ wallet ∈ stakes

def withdrawalLockPeriod : ℤ := 72 * hour

def unixTime (now : ℤ) : ℤ := now / 1000000000

namespace StakeInfo

/-- The stake that `CreateStake` writes. -/
def create (address : String) (amount : UInt64) (now : ℤ) : StakeInfo where
  address := address
  amount := amount
  startTime := now
  lastRewardTime := now
  lastActive := now
  performance := some { lastUpdate := now }

/-- A stake as `AddValidator` writes it. -/
def register (entry : Option StakeInfo) (address : String) (stake : UInt64) (hostID : String)
    (now : ℤ) : StakeInfo :=
  match entry with
  | none =>
    { create address stake now with
      hostID := hostID
      timestamp := unixTime now
      isValidator := true }
  | some entry =>
    { entry with
      amount := entry.amount + stake
      lastActive := now
      hostID := hostID
      isValidator := true
      timestamp := unixTime now }

/-- A stake as `AddStake` writes it. -/
def raise (entry : Option StakeInfo) (address : String) (amount : UInt64) (now : ℤ) : StakeInfo :=
  match entry with
  | none => { address := address, amount := amount, startTime := now, lastActive := now }
  | some entry => { entry with amount := entry.amount + amount }

/-- A stake as `RequestWithdrawal` writes it. -/
def request (entry : StakeInfo) (now : ℤ) : StakeInfo :=
  { entry with
    withdrawalReq := some { requestTime := now, amount := entry.amount, status := "pending" } }

/-- A stake as `RecordViolation` writes it. -/
def violate (entry : StakeInfo) : StakeInfo :=
  let entry := { entry with violations := entry.violations + 1 }
  if entry.violations ≥ slashingThreshold then
    { entry with amount := entry.amount - entry.amount / 2 }
  else entry

/-- A stake as `SlashValidator` writes it. -/
def slash (uint64 : Float → UInt64) (entry : StakeInfo) : StakeInfo :=
  { entry with amount := entry.amount - uint64 (entry.amount.toFloat * slashingPenaltyRate) }

end StakeInfo

/-! ## The operations -/

namespace StakePool

variable (uint64 : Float → UInt64) (sp : StakePool)

def addValidator (walletAddress : String) (stake : Float) (hostID : String) (now : ℤ) :
    StakePool × Except String Unit :=
  if walletAddress = "" then (sp, .error "wallet address cannot be empty")
  else if hostID = "" then (sp, .error "host ID cannot be empty")
  else if stake < 0 then (sp, .error "stake amount cannot be negative")
  else
    ({ stakes := sp.stakes.insert walletAddress
        (.register (sp.stakes.lookup walletAddress) walletAddress (uint64 stake) hostID now)
       walletToHost := sp.walletToHost.insert walletAddress hostID }, .ok ())

def addStake (walletAddress hostID : String) (amount : Float) (now : ℤ) :
    StakePool × Except String Unit :=
  if amount ≤ 0 then (sp, .error "stake amount must be positive")
  else
    ({ stakes := sp.stakes.insert walletAddress
        (.raise (sp.stakes.lookup walletAddress) walletAddress (uint64 amount) now)
       walletToHost := sp.walletToHost.insert walletAddress hostID }, .ok ())

def removeStake (walletAddress : String) (amount : Float) : StakePool × Except String Unit :=
  match sp.stakes.lookup walletAddress with
  | none => (sp, .error "not enough stake to remove")
  | some stake =>
    if stake.amount < uint64 amount then (sp, .error "not enough stake to remove")
    else
      let stake := { stake with amount := stake.amount - uint64 amount }
      if stake.amount = 0 then
        ({ stakes := sp.stakes.erase walletAddress
           walletToHost := sp.walletToHost.erase walletAddress }, .ok ())
      else ({ sp with stakes := sp.stakes.insert walletAddress stake }, .ok ())

def requestWithdrawal (address : String) (now : ℤ) : StakePool × Except String Unit :=
  match sp.stakes.lookup address with
  | none => (sp, .error s!"no stake found for address: {address}")
  | some stake => ({ sp with stakes := sp.stakes.insert address (stake.request now) }, .ok ())

/-- `ProcessWithdrawal`, with the amount that is paid out. -/
def processWithdrawal (address : String) (now : ℤ) : StakePool × Except String UInt64 :=
  match sp.stakes.lookup address with
  | none => (sp, .error s!"no stake found for address: {address}")
  | some stake =>
    match stake.withdrawalReq with
    | none => (sp, .error "no withdrawal request found")
    | some request =>
      if now - request.requestTime < withdrawalLockPeriod then (sp, .error "withdrawal locked")
      else ({ sp with stakes := sp.stakes.erase address }, .ok stake.amount)

def recordViolation (address : String) : StakePool × Except String Unit :=
  match sp.stakes.lookup address with
  | none => (sp, .error s!"no stake found for address: {address}")
  | some stake => ({ sp with stakes := sp.stakes.insert address stake.violate }, .ok ())

def createStake (address : String) (amount : UInt64) (now : ℤ) : StakePool × StakeInfo :=
  let stake := StakeInfo.create address amount now
  ({ sp with stakes := sp.stakes.insert address stake }, stake)

/-- What `SlashValidator` does to the pool, for a validator with this address. -/
def slashValidator (address : String) : StakePool :=
  match sp.stakes.lookup address with
  | none => sp
  | some stake => { sp with stakes := sp.stakes.insert address (stake.slash uint64) }

/-- One turn of the loop of `SyncWithPeer`. -/
def mergeStake (wallet : String) (peerStake : Option StakeInfo) : StakePool :=
  match peerStake with
  | none => sp
  | some peerStake =>
    match sp.stakes.lookup wallet with
    | none =>
      { stakes := sp.stakes.insert wallet peerStake
        walletToHost := sp.walletToHost.insert wallet peerStake.hostID }
    | some existingStake =>
      if peerStake.amount > existingStake.amount then
        { stakes := sp.stakes.insert wallet peerStake
          walletToHost := sp.walletToHost.insert wallet peerStake.hostID }
      else sp

/-- The merge of `SyncWithPeer` with the stakes received. -/
def syncWithPeer (peer : PeerStakes) : StakePool :=
  peer.order.foldl (fun sp wallet => sp.mergeStake wallet (peer.stakes.lookup wallet).join) sp

inductive Call where
  | addValidator (walletAddress : String) (stake : Float) (hostID : String)
  | addStake (walletAddress hostID : String) (amount : Float)
  | removeStake (walletAddress : String) (amount : Float)
  | requestWithdrawal (address : String)
  | processWithdrawal (address : String)
  | recordViolation (address : String)
  | createStake (address : String) (amount : UInt64)
  | slashValidator (address : String)
  | syncWithPeer (peer : PeerStakes)

def step (call : ℤ × Call) : StakePool :=
  match call.2 with
  | .addValidator walletAddress stake hostID =>
    (sp.addValidator uint64 walletAddress stake hostID call.1).1
  | .addStake walletAddress hostID amount =>
    (sp.addStake uint64 walletAddress hostID amount call.1).1
  | .removeStake walletAddress amount => (sp.removeStake uint64 walletAddress amount).1
  | .requestWithdrawal address => (sp.requestWithdrawal address call.1).1
  | .processWithdrawal address => (sp.processWithdrawal address call.1).1
  | .recordViolation address => (sp.recordViolation address).1
  | .createStake address amount => (sp.createStake address amount call.1).1
  | .slashValidator address => sp.slashValidator uint64 address
  | .syncWithPeer peer => sp.syncWithPeer peer

end StakePool

/-! ## Accounts -/

structure StakeAccount where
  stake : Option StakeInfo
  host : Option String

def StakePool.account (sp : StakePool) (wallet : String) : StakeAccount where
  stake := sp.stakes.lookup wallet
  host := sp.walletToHost.lookup wallet

/-- What a peer has for a wallet: nothing, also if its entry is nil. -/
def PeerStakes.entry (peer : PeerStakes) (wallet : String) : Option StakeInfo :=
  (peer.stakes.lookup wallet).join

namespace StakeAccount

open StakePool (Call)

variable (uint64 : Float → UInt64)

/-- What `RemoveStake` leaves of an account. -/
def remove (acc : StakeAccount) (amount : UInt64) : StakeAccount :=
  match acc.stake with
  | none => acc
  | some stake =>
    if stake.amount < amount then acc
    else if stake.amount - amount = 0 then { stake := none, host := none }
    else { acc with stake := some { stake with amount := stake.amount - amount } }

/-- The amount that `ProcessWithdrawal` pays out, if it does. -/
def payout (acc : StakeAccount) (now : ℤ) : Option UInt64 :=
  acc.stake.bind fun stake => stake.withdrawalReq.bind fun request =>
    if now - request.requestTime < withdrawalLockPeriod then none else some stake.amount

/-- What the merge of a peer's stake leaves of an account. -/
def merge (acc : StakeAccount) (peerStake : Option StakeInfo) : StakeAccount :=
  match peerStake with
  | none => acc
  | some peerStake =>
    if acc.stake.all fun stake => stake.amount < peerStake.amount then
      { stake := some peerStake, host := some peerStake.hostID }
    else acc

/-- **The effect of a call on the account of one wallet.** -/
def step (wallet : String) (acc : StakeAccount) (call : ℤ × Call) : StakeAccount :=
  match call.2 with
  | .addValidator walletAddress stake hostID =>
    if walletAddress = wallet ∧ walletAddress ≠ "" ∧ hostID ≠ "" ∧ ¬ stake < 0 then
      { stake := some (.register acc.stake wallet (uint64 stake) hostID call.1)
        host := some hostID }
    else acc
  | .addStake walletAddress hostID amount =>
    if walletAddress = wallet ∧ ¬ amount ≤ 0 then
      { stake := some (.raise acc.stake wallet (uint64 amount) call.1), host := some hostID }
    else acc
  | .removeStake walletAddress amount =>
    if walletAddress = wallet then acc.remove (uint64 amount) else acc
  | .requestWithdrawal address =>
    if address = wallet then { acc with stake := acc.stake.map (·.request call.1) } else acc
  | .processWithdrawal address =>
    if address = wallet ∧ (acc.payout call.1).isSome then { acc with stake := none } else acc
  | .recordViolation address =>
    if address = wallet then { acc with stake := acc.stake.map StakeInfo.violate } else acc
  | .createStake address amount =>
    if address = wallet then { acc with stake := some (.create wallet amount call.1) } else acc
  | .slashValidator address =>
    if address = wallet then { acc with stake := acc.stake.map (StakeInfo.slash uint64) } else acc
  | .syncWithPeer peer => acc.merge (peer.entry wallet)

end StakeAccount

namespace StakePool

variable {uint64 : Float → UInt64} {sp : StakePool} (address : String) (stake : StakeInfo) (now : ℤ)
  (wallet : String)

lemma account_insert (host : String) (wallet : String) :
    account { stakes := sp.stakes.insert address stake
              walletToHost := sp.walletToHost.insert address host } wallet =
      if address = wallet then { stake := some stake, host := some host }
      else sp.account wallet := by
  split_ifs with h
  · simp [account, h]
  · simp [account, lookup_insert_of_ne _ (Ne.symm h)]

lemma account_insert_stake : account { sp with stakes := sp.stakes.insert address stake } wallet =
      if address = wallet then { sp.account wallet with stake := some stake }
      else sp.account wallet := by
  split_ifs with h
  · simp [account, h]
  · simp [account, lookup_insert_of_ne _ (Ne.symm h)]

/-- Three operations rewrite the stake under an address, if there is one. -/
lemma account_map_stake {ρ : Type} (p : ρ → StakePool) (f : StakeInfo → StakeInfo) {r : ρ}
    {r' : StakeInfo → ρ} (hnone : p r = sp) (hsome : ∀ stake, p (r' stake) =
      { sp with stakes := sp.stakes.insert address (f stake) }) :
    (p (match sp.stakes.lookup address with
      | none => r
      | some stake => r' stake)).account wallet =
      if address = wallet then { sp.account wallet with stake := (sp.account wallet).stake.map f }
      else sp.account wallet := by
  cases hstake : sp.stakes.lookup address with
  | none =>
    rw [hnone, eq_comm, ite_eq_right_iff]
    rintro rfl
    simp [account, hstake]
  | some stake =>
    rw [hsome, account_insert_stake]
    split_ifs with h
    · subst h
      simp [account, hstake]
    · rfl

lemma account_removeStake (amount : Float) (wallet : String) :
    (sp.removeStake uint64 address amount).1.account wallet =
      if address = wallet then (sp.account wallet).remove (uint64 amount)
      else sp.account wallet := by
  by_cases h : address = wallet
  · subst h
    rw [if_pos rfl, removeStake, StakeAccount.remove]
    cases hstake : sp.stakes.lookup address with
    | none => simp [account, hstake]
    | some stake =>
      simp only [account, hstake]
      split_ifs <;> simp [hstake]
  · rw [if_neg h, removeStake]
    cases hstake : sp.stakes.lookup address with
    | none => rfl
    | some stake =>
      simp only []
      split_ifs <;> simp [account, lookup_insert_of_ne _ (Ne.symm h), lookup_erase_ne (Ne.symm h)]

/-- **A withdrawal** pays what the account says, and then deletes the stake. -/
lemma processWithdrawal_spec :
    (sp.processWithdrawal address now).2.toOption = (sp.account address).payout now ∧
      (sp.processWithdrawal address now).1 = if ((sp.account address).payout now).isSome then
          { sp with stakes := sp.stakes.erase address }
        else sp := by
  rw [processWithdrawal, StakeAccount.payout]
  cases hstake : sp.stakes.lookup address with
  | none => simp [account, hstake, Except.toOption]
  | some stake =>
    cases hrequest : stake.withdrawalReq with
    | none => simp [account, hstake, hrequest, Except.toOption]
    | some request =>
      simp only [account, hstake, hrequest, Option.bind_some]
      split_ifs <;> simp_all [Except.toOption]

lemma account_processWithdrawal : (sp.processWithdrawal address now).1.account wallet =
      if address = wallet ∧ ((sp.account wallet).payout now).isSome then
        { sp.account wallet with stake := none }
      else sp.account wallet := by
  rw [(processWithdrawal_spec address now).2]
  by_cases h : address = wallet
  · subst h
    simp only [true_and]
    split_ifs
    · simp [account]
    · rfl
  · simp only [h, false_and, if_false]
    split_ifs
    · simp [account, lookup_erase_ne (Ne.symm h)]
    · rfl

lemma account_mergeStake (peerStake : Option StakeInfo) (wallet : String) :
    (sp.mergeStake address peerStake).account wallet =
      if address = wallet then (sp.account wallet).merge peerStake else sp.account wallet := by
  cases peerStake with
  | none => simp [mergeStake, StakeAccount.merge]
  | some peerStake =>
    -- whether the peer's stake is taken is read off the account of the address
    have hmerge : sp.mergeStake address (some peerStake) =
        if (sp.account address).stake.all fun stake => stake.amount < peerStake.amount then
          { stakes := sp.stakes.insert address peerStake
            walletToHost := sp.walletToHost.insert address peerStake.hostID }
        else sp := by
      rw [mergeStake]
      cases hstake : sp.stakes.lookup address <;> simp [account, hstake]
    rw [hmerge, StakeAccount.merge]
    by_cases h : address = wallet
    · subst h
      rw [if_pos rfl]
      split_ifs
      · simp [account_insert]
      · rfl
    · rw [if_neg h]
      split_ifs
      · rw [account_insert, if_neg h]
      · rfl

lemma account_syncWithPeer (peer : PeerStakes) (wallet : String) :
    (sp.syncWithPeer peer).account wallet = (sp.account wallet).merge (peer.entry wallet) := by
  have hlocal : Cells.Local account
      (fun sp wallet => sp.mergeStake wallet (peer.stakes.lookup wallet).join)
      (fun wallet acc => acc.merge (peer.entry wallet)) := by
    intro sp address wallet
    rw [account_mergeStake]
    split_ifs with h
    · rw [h]
      rfl
    · rfl
  rw [syncWithPeer, hlocal.view_foldl peer.nodup, ite_eq_left_iff]
  intro hnot
  have hnone : peer.entry wallet = none := by
    rw [PeerStakes.entry, lookup_eq_none.mpr (mt (peer.mem_order wallet).mpr hnot)]
    rfl
  rw [hnone]
  rfl

/-- **A pool is the product of its accounts**: every call acts on each wallet separately. -/
theorem acts (uint64 : Float → UInt64) :
    Cells.Acts account (step uint64) (StakeAccount.step uint64) := by
  rintro sp ⟨now, call⟩ wallet
  cases call with
  | addValidator walletAddress stake hostID =>
    simp only [step, addValidator, StakeAccount.step]
    by_cases hwallet : walletAddress = ""
    · simp [hwallet]
    by_cases hhost : hostID = ""
    · simp [hwallet, hhost]
    by_cases hnegative : stake < 0
    · simp [hwallet, hhost, hnegative]
    simp only [hwallet, hhost, hnegative, if_false, account_insert, ne_eq, not_false_iff, and_true]
    split_ifs with h
    · rw [h]
      rfl
    · rfl
  | addStake walletAddress hostID amount =>
    simp only [step, addStake, StakeAccount.step]
    by_cases hamount : amount ≤ 0
    · simp [hamount]
    simp only [hamount, if_false, account_insert, not_false_iff, and_true]
    split_ifs with h
    · rw [h]
      rfl
    · rfl
  | removeStake walletAddress amount => exact account_removeStake walletAddress amount wallet
  | requestWithdrawal address =>
    exact account_map_stake _ _ Prod.fst (·.request now) rfl fun _ => rfl
  | processWithdrawal address => exact account_processWithdrawal address now wallet
  | recordViolation address =>
    exact account_map_stake _ _ Prod.fst StakeInfo.violate rfl fun _ => rfl
  | createStake address amount =>
    simp only [step, createStake, StakeAccount.step, account_insert_stake]
    split_ifs with h
    · rw [h]
    · rfl
  | slashValidator address =>
    exact account_map_stake _ _ id (StakeInfo.slash uint64) rfl fun _ => rfl
  | syncWithPeer peer => exact account_syncWithPeer peer wallet

end StakePool

/-! ## Stakes and hosts -/

variable (uint64 : Float → UInt64)

namespace StakeAccount

/-- An account with a stake and a host, or with neither. -/
def Paired (acc : StakeAccount) : Prop := acc.stake.isSome = acc.host.isSome

instance (acc : StakeAccount) : Decidable acc.Paired := inferInstanceAs (Decidable (_ = _))

/-- The calls after which a paired account is paired. -/
def KeepsPaired (wallet : String) (acc : StakeAccount) (call : ℤ × StakePool.Call) : Prop :=
  match call.2 with
  | .processWithdrawal address => address = wallet → acc.payout call.1 = none
  | .createStake address _ => address = wallet → acc.stake.isSome
  | _ => True

variable {acc acc' : StakeAccount}

lemma Paired.ite {c : Prop} [Decidable c] (h' : acc'.Paired) (h : acc.Paired) :
    (if c then acc' else acc).Paired := by
  split_ifs
  · exact h'
  · exact h

lemma Paired.map_stake (h : acc.Paired) (f : StakeInfo → StakeInfo) :
    Paired { acc with stake := acc.stake.map f } := by
  simpa [Paired] using h

lemma Paired.remove (h : acc.Paired) (amount : UInt64) : (acc.remove amount).Paired := by
  rw [StakeAccount.remove]
  cases hstake : acc.stake with
  | none => exact h
  | some stake =>
    have hhost : acc.host.isSome := by rw [← h, hstake]; rfl
    simp only []
    split_ifs
    · exact h
    · rfl
    · simp [Paired, hhost]

lemma Paired.merge (h : acc.Paired) (peerStake : Option StakeInfo) :
    (acc.merge peerStake).Paired := by
  cases peerStake with
  | none => exact h
  | some peerStake =>
    rw [StakeAccount.merge]
    split_ifs
    · rfl
    · exact h

lemma isSome_stake_of_payout {now : ℤ} (h : (acc.payout now).isSome) : acc.stake.isSome := by
  cases hstake : acc.stake with
  | none => simp [payout, hstake] at h
  | some stake => rfl

/-- **One call** keeps an account paired exactly as `KeepsPaired` says. -/
lemma paired_step_iff (wallet : String) (h : acc.Paired)
    (call : ℤ × StakePool.Call) :
    (acc.step uint64 wallet call).Paired ↔ acc.KeepsPaired wallet call := by
  obtain ⟨now, call⟩ := call
  cases call with
  | processWithdrawal address =>
    simp only [step, KeepsPaired]
    by_cases hpay : address = wallet ∧ (acc.payout now).isSome
    · -- the stake is deleted and the host is not
      have hhost : acc.host.isSome := h ▸ isSome_stake_of_payout hpay.2
      have hpaid : acc.payout now ≠ none := Option.isSome_iff_ne_none.mp hpay.2
      rw [if_pos hpay]
      simp [Paired, hhost, hpay.1, hpaid]
    · rw [if_neg hpay]
      refine iff_of_true h fun heq => ?_
      simpa using fun hpaid => hpay ⟨heq, hpaid⟩
  | createStake address amount =>
    simp only [step, KeepsPaired]
    by_cases heq : address = wallet
    · simp only [heq, if_true, forall_true_left]
      rw [h]
      exact eq_comm
    · rw [if_neg heq]
      exact iff_of_true h fun heq' => absurd heq' heq
  | addValidator walletAddress stake hostID | addStake walletAddress hostID amount =>
    exact iff_of_true (Paired.ite rfl h) trivial
  | removeStake walletAddress amount => exact iff_of_true (Paired.ite (h.remove _) h) trivial
  | requestWithdrawal address | recordViolation address | slashValidator address =>
    exact iff_of_true (Paired.ite (h.map_stake _) h) trivial
  | syncWithPeer peer => exact iff_of_true (h.merge _) trivial

end StakeAccount

namespace StakePool

/-- The wallets with a stake and the wallets with a host are the same. -/
def Paired (sp : StakePool) : Prop := ∀ wallet, wallet ∈ sp.stakes ↔ wallet ∈ sp.walletToHost

/-- The calls after which stakes and hosts that were paired are paired: a withdrawal may not be due,
and a stake may be created only for a wallet that has one. -/
def KeepsPaired (sp : StakePool) (call : ℤ × Call) : Prop :=
  match call.2 with
  | .processWithdrawal address => (sp.account address).payout call.1 = none
  | .createStake address _ => address ∈ sp.stakes
  | _ => True

variable {sp : StakePool}

lemma paired_iff_account : sp.Paired ↔ ∀ wallet, (sp.account wallet).Paired := by
  refine forall_congr' fun wallet => ?_
  rw [StakeAccount.Paired, Bool.eq_iff_iff]
  exact iff_congr lookup_isSome.symm lookup_isSome.symm

lemma keepsPaired_iff_account (call : ℤ × Call) :
    sp.KeepsPaired call ↔ ∀ wallet, (sp.account wallet).KeepsPaired wallet call := by
  obtain ⟨now, call⟩ := call
  cases call with
  | processWithdrawal address =>
    simp [KeepsPaired, StakeAccount.KeepsPaired]
  | createStake address amount =>
    simp [KeepsPaired, StakeAccount.KeepsPaired, account, lookup_isSome]
  | _ => exact iff_of_true trivial fun _ => trivial

/-- **One call** keeps stakes and hosts paired exactly as `KeepsPaired` says. -/
lemma paired_step_iff (h : sp.Paired) (call : ℤ × Call) :
    (sp.step uint64 call).Paired ↔ sp.KeepsPaired call := by
  rw [paired_iff_account, keepsPaired_iff_account]
  refine forall_congr' fun wallet => ?_
  rw [acts uint64 sp call wallet]
  exact StakeAccount.paired_step_iff uint64 wallet (paired_iff_account.mp h wallet) call

/-- **Stakes and hosts stay paired** along a run from a new pool exactly if no withdrawal is paid
out and no stake is created for a wallet without one. -/
theorem paired_run_iff (uint64 : Float → UInt64) (calls : List (ℤ × Call)) :
    (∀ sp ∈ calls.scanl (step uint64) {}, sp.Paired) ↔
      Run.Along (step uint64) KeepsPaired {} calls := by
  have hnew : Paired {} := fun _ => iff_of_false notMem_empty notMem_empty
  exact Run.forall_mem_scanl_iff (P := fun _ _ => True)
    (fun sp call h _ => paired_step_iff uint64 h call) hnew (Run.along_true _ _)

/-- `CreateStake` writes no host. -/
theorem stake_without_host :
    ¬ Paired ([(0, .createStake "wallet" 10)].foldl (step Float.toUInt64) {}) := by
  intro h
  have hpaired := paired_iff_account.mp h "wallet"
  rw [(acts Float.toUInt64).view_foldl] at hpaired
  revert hpaired
  decide +kernel

end StakePool

end HybridChain
