import HybridChain.StakeLedger

/-!
# Gossip about stakes

`SyncWithPeer` merges the stakes of a peer into the pool: of two amounts the greater one is kept.

## Main definitions

* `amount`, `Reduction`

## Main results

* `syncWithPeer_converges`: merges end with the greatest amounts
* `reduction_survives_iff`, `withdrawn_stake_returns`: and take reductions back
-/

namespace HybridChain

/-! ## Amounts are joined -/

def amountOf (stake : Option StakeInfo) : WithBot ℕ :=
  stake.elim ⊥ fun stake => (stake.amount.toNat : WithBot ℕ)

def StakeAccount.amount (acc : StakeAccount) : WithBot ℕ := amountOf acc.stake

def PeerStakes.amount (peer : PeerStakes) (wallet : String) : WithBot ℕ :=
  amountOf (peer.entry wallet)

lemma StakeAccount.amount_merge (acc : StakeAccount) (peerStake : Option StakeInfo) :
    (acc.merge peerStake).amount = acc.amount ⊔ amountOf peerStake := by
  obtain ⟨stake, host⟩ := acc
  cases peerStake with
  | none => simp [merge, amountOf]
  | some peerStake =>
    cases stake with
    | none => simp [merge, amount, amountOf]
    | some stake =>
      simp only [merge, amount, Option.all_some, decide_eq_true_eq]
      split_ifs with hless
      · rw [UInt64.lt_iff_toNat_lt] at hless
        exact (sup_eq_right.mpr (WithBot.coe_le_coe.mpr hless.le)).symm
      · rw [UInt64.lt_iff_toNat_lt, not_lt] at hless
        exact (sup_eq_left.mpr (WithBot.coe_le_coe.mpr hless)).symm

lemma StakeAccount.host_merge {acc : StakeAccount} {peerStake : Option StakeInfo}
    (h : acc.stake.isSome → acc.host.isSome) (hstake : (acc.merge peerStake).stake.isSome) :
    (acc.merge peerStake).host.isSome := by
  cases peerStake with
  | none => exact h hstake
  | some peerStake =>
    rw [merge] at hstake ⊢
    split_ifs at hstake ⊢
    · rfl
    · exact h hstake

namespace StakePool

def amount (sp : StakePool) (wallet : String) : WithBot ℕ := (sp.account wallet).amount

variable {sp : StakePool}

/-- **A merge joins the amounts.** -/
lemma amount_syncWithPeer (peer : PeerStakes) (wallet : String) :
    (sp.syncWithPeer peer).amount wallet = sp.amount wallet ⊔ peer.amount wallet := by
  rw [amount, account_syncWithPeer, StakeAccount.amount_merge]
  rfl

lemma amount_foldl_syncWithPeer (sp : StakePool) (peers : List PeerStakes) (wallet : String) :
    (peers.foldl syncWithPeer sp).amount wallet =
      (peers.map fun peer => peer.amount wallet).foldl (· ⊔ ·) (sp.amount wallet) := by
  induction peers generalizing sp with
  | nil => rfl
  | cons peer peers ih => rw [List.foldl_cons, ih, amount_syncWithPeer]; rfl

lemma isGreatest_foldl_syncWithPeer (sp : StakePool) (peers : List PeerStakes) (wallet : String) :
    IsGreatest (insert (sp.amount wallet) {a | ∃ peer ∈ peers, peer.amount wallet = a})
      ((peers.foldl syncWithPeer sp).amount wallet) := by
  rw [amount_foldl_syncWithPeer]
  simpa [List.mem_map] using
    Cells.isGreatest_foldl_sup (sp.amount wallet) (peers.map fun peer => peer.amount wallet)

lemma host_foldl_syncWithPeer (peers : List PeerStakes) {wallet : String}
    (h : wallet ∈ sp.stakes → wallet ∈ sp.walletToHost)
    (hstake : wallet ∈ (peers.foldl syncWithPeer sp).stakes) :
    wallet ∈ (peers.foldl syncWithPeer sp).walletToHost := by
  induction peers generalizing sp with
  | nil => exact h hstake
  | cons peer peers ih =>
    refine ih (fun hmem => ?_) hstake
    rw [← Finmap.lookup_isSome] at hmem ⊢
    have hacc : (sp.syncWithPeer peer).account wallet = _ := account_syncWithPeer peer wallet
    have hhost := congrArg StakeAccount.host hacc
    have hstake := congrArg StakeAccount.stake hacc
    simp only [account] at hhost hstake
    rw [hhost]
    refine StakeAccount.host_merge (fun hold => ?_) (hstake ▸ hmem)
    exact Finmap.lookup_isSome.mpr (h (Finmap.lookup_isSome.mp hold))

/-- **Gossip about stakes converges**: after any merges every wallet has the greatest of its amount
at the start and the amounts received for it, whatever their order and number; and every wallet that
was added has a host. -/
theorem syncWithPeer_converges (sp : StakePool) (peers : List PeerStakes) : (∀ wallet, IsGreatest
      (insert (sp.amount wallet) {a | ∃ peer ∈ peers, peer.amount wallet = a})
      ((peers.foldl syncWithPeer sp).amount wallet)) ∧ (∀ others : List PeerStakes,
      (∀ received, received ∈ peers.map PeerStakes.stakes ↔
        received ∈ others.map PeerStakes.stakes) →
      ∀ wallet, (peers.foldl syncWithPeer sp).amount wallet =
        (others.foldl syncWithPeer sp).amount wallet) ∧
    ∀ wallet, wallet ∉ sp.stakes → wallet ∈ (peers.foldl syncWithPeer sp).stakes →
      wallet ∈ (peers.foldl syncWithPeer sp).walletToHost := by
  refine ⟨isGreatest_foldl_syncWithPeer sp peers, fun others hsame wallet => ?_,
    fun wallet hnew hmem => host_foldl_syncWithPeer peers (fun h => absurd h hnew) hmem⟩
  have hpeers := isGreatest_foldl_syncWithPeer sp peers wallet
  -- the amounts received are read off the maps received
  have hset : {a | ∃ peer ∈ peers, peer.amount wallet = a} =
      {a | ∃ peer ∈ others, peer.amount wallet = a} := by
    have himage : ∀ l : List PeerStakes, {a | ∃ peer ∈ l, peer.amount wallet = a} =
        {a | ∃ received ∈ l.map PeerStakes.stakes,
          amountOf (received.lookup wallet).join = a} := by
      intro l
      ext a
      simp [PeerStakes.amount, PeerStakes.entry]
    rw [himage, himage]
    ext a
    exact exists_congr fun received => and_congr_left fun _ => hsame received
  rw [hset] at hpeers
  exact hpeers.unique (isGreatest_foldl_syncWithPeer sp others wallet)

end StakePool

/-! ## Reductions and earlier pools -/

def PeerStakes.Shows (peer : PeerStakes) (sp : StakePool) : Prop :=
  peer.stakes = KeyedLog.mapValues some sp.stakes

namespace StakePool

/-- The amount of a wallet, zero if it has no stake. -/
def stakeOf (sp : StakePool) (wallet : String) : ℕ := (sp.amount wallet).unbotD 0

/-- A pool as a peer sends it, enumerated in some order. -/
noncomputable def toPeer (sp : StakePool) : PeerStakes where
  stakes := KeyedLog.mapValues some sp.stakes
  order := sp.stakes.keys.toList
  nodup := Finset.nodup_toList _
  mem_order wallet := by
    rw [Finset.mem_toList, Finmap.mem_keys, ← Finmap.lookup_isSome, ← Finmap.lookup_isSome,
      KeyedLog.lookup_mapValues, Option.isSome_map]

lemma shows_toPeer (sp : StakePool) : sp.toPeer.Shows sp := rfl

/-- The operations that take stake away. -/
inductive Reduction where
  | recordViolation
  | slashValidator
  | processWithdrawal

def Reduction.call (wallet : String) : Reduction → Call
  | .recordViolation => .recordViolation wallet
  | .slashValidator => .slashValidator wallet
  | .processWithdrawal => .processWithdrawal wallet

variable {sp earlier : StakePool} {peer : PeerStakes}

lemma amount_of_shows (h : peer.Shows sp) (wallet : String) :
    peer.amount wallet = sp.amount wallet := by
  rw [PeerStakes.amount, PeerStakes.entry, h, KeyedLog.lookup_mapValues]
  cases hstake : sp.stakes.lookup wallet <;> simp [amount, account, StakeAccount.amount, hstake]

variable {wallet : String} {n : ℕ}

lemma stakeOf_le_iff : sp.stakeOf wallet ≤ n ↔ sp.amount wallet ≤ (n : WithBot ℕ) := by
  rw [stakeOf, WithBot.unbotD_le_iff fun _ => Nat.zero_le n]
  exact Iff.rfl

lemma stakeOf_foldl_syncWithPeer_le_iff {peers : List PeerStakes} :
    (peers.foldl syncWithPeer sp).stakeOf wallet ≤ n ↔
      sp.stakeOf wallet ≤ n ∧ ∀ peer ∈ peers, peer.amount wallet ≤ (n : WithBot ℕ) := by
  rw [stakeOf_le_iff, (isGreatest_foldl_syncWithPeer sp peers wallet).isLUB |> isLUB_le_iff,
    mem_upperBounds, Set.forall_mem_insert, stakeOf_le_iff]
  simp

/-- **The pool from before a reduction takes it back.** -/
lemma reduction_undone (h : sp.stakeOf wallet ≤ earlier.stakeOf wallet) :
    (sp.syncWithPeer earlier.toPeer).stakeOf wallet = earlier.stakeOf wallet := by
  have hpeer := amount_of_shows earlier.shows_toPeer wallet
  rw [stakeOf, amount_syncWithPeer, hpeer]
  cases hnow : sp.amount wallet <;> cases hbefore : earlier.amount wallet <;> simp_all [stakeOf]

/-- **When a reduction survives**: merges with earlier states of the pool never raise the amount of
the wallet over what the reduction has left, exactly if it never was higher; so not if the
reduction has taken anything. -/
theorem reduction_survives_iff (uint64 : Float → UInt64) (sp : StakePool)
    (calls : List (ℤ × Call)) (now : ℤ) (reduction : Reduction) (wallet : String) :
    (∀ peers : List PeerStakes,
      (∀ peer ∈ peers, ∃ earlier ∈ calls.scanl (step uint64) sp, peer.Shows earlier) →
      (peers.foldl syncWithPeer (step uint64 (calls.foldl (step uint64) sp)
          (now, reduction.call wallet))).stakeOf wallet ≤
        (step uint64 (calls.foldl (step uint64) sp) (now, reduction.call wallet)).stakeOf wallet) ↔
    ∀ earlier ∈ calls.scanl (step uint64) sp, earlier.stakeOf wallet ≤
      (step uint64 (calls.foldl (step uint64) sp) (now, reduction.call wallet)).stakeOf wallet := by
  generalize step uint64 (calls.foldl (step uint64) sp) (now, reduction.call wallet) = reduced
  constructor
  · intro h earlier hearlier
    have hone := h [earlier.toPeer] (by simpa using ⟨earlier, hearlier, earlier.shows_toPeer⟩)
    rw [stakeOf_foldl_syncWithPeer_le_iff] at hone
    have hpeer := hone.2 _ List.mem_cons_self
    rw [amount_of_shows earlier.shows_toPeer] at hpeer
    exact stakeOf_le_iff.mpr hpeer
  · intro h peers hpeers
    refine stakeOf_foldl_syncWithPeer_le_iff.mpr ⟨le_rfl, fun peer hpeer => ?_⟩
    obtain ⟨earlier, hearlier, hshows⟩ := hpeers peer hpeer
    rw [amount_of_shows hshows]
    exact stakeOf_le_iff.mp (h earlier hearlier)

def requestedStake : StakePool :=
  [(0, .addStake "wallet" "host" 10), (0, .requestWithdrawal "wallet")].foldl
    (step Float.toUInt64) {}

/-- A stake that has been paid out is back after a merge with the pool from before. -/
theorem withdrawn_stake_returns : (requestedStake.step Float.toUInt64
        (withdrawalLockPeriod, .processWithdrawal "wallet")).stakeOf "wallet" = 0 ∧
      ((requestedStake.step Float.toUInt64
        (withdrawalLockPeriod, .processWithdrawal "wallet")).syncWithPeer
          requestedStake.toPeer).stakeOf "wallet" = 10 := by
  have hacts := acts Float.toUInt64
  have hbefore : requestedStake.stakeOf "wallet" = 10 := by
    rw [stakeOf, amount, requestedStake, hacts.view_foldl]
    decide +kernel
  have hafter : (requestedStake.step Float.toUInt64
      (withdrawalLockPeriod, .processWithdrawal "wallet")).stakeOf "wallet" = 0 := by
    rw [stakeOf, amount, hacts, requestedStake, hacts.view_foldl]
    decide +kernel
  refine ⟨hafter, ?_⟩
  rw [reduction_undone (hafter.le.trans (Nat.zero_le _)), hbefore]

end StakePool

end HybridChain
