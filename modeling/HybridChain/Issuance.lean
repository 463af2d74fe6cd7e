import HybridChain.BlockProduction
import HybridChain.Lib.Halving
import HybridChain.Supply

/-!
# Issuance

What mining issues over the blocks of a chain, and what `GetCirculatingSupply` of the RPC interface
computes for it. The reward is halved every 210000 blocks; the miner's and the validator's part are
raised to a minimum each.

## Main definitions

* `totalSupply`, `getCirculatingSupply`
* `mintedBy`: what a chain has issued
* `WithinSchedule`: not more than the schedule says

## Main results

* `totalSupply_eq_sum`: the supply is the sum of the rewards
* `issuance_bounded_iff`: how long mining is within it
-/

namespace HybridChain

open List
open KeyedLog (Store)
open Finset (range Icc)
open Halving (subsidy)

/-! ## The reported supply -/

/-- The blocks that are counted in one turn of the loop. -/
def blocksAtReward (remainingBlocks : UInt64) : UInt64 :=
  if remainingBlocks > rewardHalvingBlocks then rewardHalvingBlocks else remainingBlocks

variable (remainingBlocks : UInt64)

lemma toNat_blocksAtReward :
    (blocksAtReward remainingBlocks).toNat = min 210000 remainingBlocks.toNat := by
  have hinterval : rewardHalvingBlocks.toNat = 210000 := rfl
  unfold blocksAtReward
  split_ifs with hlong <;>
  · rw [gt_iff_lt, UInt64.lt_iff_toNat_lt, hinterval] at hlong
    omega

lemma toNat_sub_blocksAtReward :
    (remainingBlocks - blocksAtReward remainingBlocks).toNat = remainingBlocks.toNat - 210000 := by
  have hcount := toNat_blocksAtReward remainingBlocks
  have hle : blocksAtReward remainingBlocks ≤ remainingBlocks := by
    rw [UInt64.le_iff_toNat_le]
    omega
  rw [UInt64.toNat_sub_of_le _ _ hle]
  omega

/-- The loop of `GetCirculatingSupply`, with the number of turns it has taken. -/
def supplyLoop (i : ℕ) (remainingBlocks : UInt64) (totalSupply : ℚ) : ℕ × ℚ :=
  if _h : remainingBlocks > 0 then
    let rewardAtLevel := initialBlockReward / 2 ^ i
    supplyLoop (i + 1) (remainingBlocks - blocksAtReward remainingBlocks)
      (totalSupply + (blocksAtReward remainingBlocks).toNat * rewardAtLevel)
  else (i, totalSupply)
  termination_by remainingBlocks.toNat
  decreasing_by
    have hpos : 0 < remainingBlocks.toNat := UInt64.lt_iff_toNat_lt.mp _h
    rw [toNat_sub_blocksAtReward]
    omega

/-- The supply that `GetCirculatingSupply` computes from the height. -/
def totalSupply (height : UInt64) : ℚ := if height > 0 then (supplyLoop 0 height 0).2 else 0

/-- `GetCirculatingSupply`: the sum of the unspent outputs is used if it is positive. -/
def getCirculatingSupply (bc : Blockchain) : ℚ :=
  match bc.utxoPool with
  | some pool => if pool.supply > 0 then pool.supply else totalSupply bc.getHeight
  | none => totalSupply bc.getHeight

/-- **What the loop computes**: the number of intervals begun, and the sum of the rewards. -/
lemma supplyLoop_eq (i : ℕ) (remainingBlocks : UInt64) (totalSupply : ℚ) :
    supplyLoop i remainingBlocks totalSupply = (i + (remainingBlocks.toNat + 209999) / 210000,
        totalSupply + ∑ n ∈ range remainingBlocks.toNat,
          subsidy initialBlockReward 210000 i n) := by
  induction hn : remainingBlocks.toNat using Nat.strong_induction_on
    generalizing i remainingBlocks totalSupply with
  | h n ih =>
    have hpos : remainingBlocks > 0 ↔ 0 < n := by rw [gt_iff_lt, UInt64.lt_iff_toNat_lt, hn]; rfl
    rw [supplyLoop]
    split_ifs with hremaining
    · rw [hpos] at hremaining
      have hcount := toNat_blocksAtReward remainingBlocks
      have hrest := toNat_sub_blocksAtReward remainingBlocks
      rw [hn] at hcount hrest
      simp only
      rw [ih _ (by omega) _ _ _ hrest, hcount, add_assoc totalSupply]
      rcases Nat.le_total n 210000 with hle | hge
      · rw [Nat.min_eq_right hle, Nat.sub_eq_zero_of_le hle, Finset.sum_range_zero, add_zero,
          Halving.sum_of_le hle]
        congr 1
        omega
      · obtain ⟨k, rfl⟩ := Nat.exists_eq_add_of_le hge
        rw [Nat.min_eq_left hge, Nat.add_sub_cancel_left, Halving.sum_add (by norm_num)]
        congr 1
        omega
    · rw [hpos] at hremaining
      obtain rfl : n = 0 := by omega
      rw [Finset.sum_range_zero, add_zero]
      rfl

lemma totalSupply_eq (height : UInt64) : totalSupply height =
      ∑ n ∈ range height.toNat, subsidy initialBlockReward 210000 0 n := by
  unfold totalSupply
  split_ifs with hheight
  · rw [supplyLoop_eq]
    exact zero_add _
  · rw [gt_iff_lt, UInt64.lt_iff_toNat_lt] at hheight
    have hzero : height.toNat = 0 := Nat.le_zero.mp (Nat.not_lt.mp hheight)
    rw [hzero, Finset.sum_range_zero]

/-! ## The reward of a block -/

/-- No transaction of a block pays a fee. -/
def Block.FeeFree (block : Block) : Prop := ∀ tx ∈ block.transactions, tx.gasFee = 0

lemma iterate_half (k : ℕ) (reward : ℚ) :
    (fun reward : ℚ => reward / 2)^[k] reward = reward / 2 ^ k := by
  induction k with
  | zero => rw [Function.iterate_zero_apply, pow_zero, div_one]
  | succ k ih => rw [Function.iterate_succ_apply', ih, pow_succ, div_div]

variable {chain : List Block} {C : Crypto} {block : Block} {minerAddress : String} {env : MiningEnv}
  {n : ℕ}

/-- **The reward of a block without fees.** -/
lemma calculateBlockReward_of_feeFree (h : block.FeeFree) :
    calculateBlockReward block = atLeastMinimum
      (subsidy initialBlockReward 210000 0 block.header.blockNumber.toNat) := by
  have hinterval : rewardHalvingBlocks.toNat = 210000 := rfl
  unfold calculateBlockReward
  split_ifs with hfirst
  · rw [hfirst]
    norm_num [atLeastMinimum, subsidy, initialBlockReward]
  · have hfees : ((block.transactions.filter fun tx => tx.txType ≠ TX_COINBASE).map
        Transaction.gasFee).sum = 0 := by
      refine sum_eq_zero fun fee hfee => ?_
      obtain ⟨tx, htx, rfl⟩ := mem_map.mp hfee
      exact h tx (mem_of_mem_filter htx)
    simp only [hfees, iterate_half, UInt64.toNat_div, hinterval, add_zero, subsidy,
      zero_add]

lemma ceil_div_interval (n : ℕ) : ⌈(n : ℚ) / 210000⌉₊ = (n + 209999) / 210000 := by
  refine eq_of_forall_ge_iff fun k => ?_
  have hcast : (n : ℚ) ≤ k * 210000 ↔ n ≤ k * 210000 := by exact_mod_cast Iff.rfl
  rw [Nat.ceil_le, div_le_iff₀ (by norm_num), hcast]
  omega

lemma sum_range_eq_sum_Icc (H : ℕ) : ∑ n ∈ range H, subsidy initialBlockReward 210000 0 n =
      ∑ n ∈ Icc 1 H, initialBlockReward / 2 ^ ((n - 1) / 210000) := by
  rw [← Finset.Ico_add_one_right_eq_Icc, Finset.sum_Ico_eq_sum_range, Nat.add_sub_cancel]
  refine Finset.sum_congr rfl fun n _ => ?_
  rw [subsidy, zero_add, Nat.add_sub_cancel_left]

/-- **The supply is the sum of the rewards** of the blocks up to a height; these are the rewards
that `calculateBlockReward` derives from the blocks before them, if these pay no fees and before the
minimum is applied, and the sum is what is reported if no pool has a positive sum of unspent
outputs. -/
theorem totalSupply_eq_sum (height : UInt64) : totalSupply height =
        ∑ n ∈ Icc 1 height.toNat, initialBlockReward / 2 ^ ((n - 1) / rewardHalvingBlocks.toNat) ∧
      (supplyLoop 0 height 0).1 = ⌈(height.toNat : ℚ) / rewardHalvingBlocks.toNat⌉₊ ∧
      (∀ n ∈ Icc 1 height.toNat, ∀ parent : Block, parent.header.blockNumber.toNat = n - 1 →
        parent.FeeFree → calculateBlockReward parent =
          atLeastMinimum (initialBlockReward / 2 ^ ((n - 1) / rewardHalvingBlocks.toNat))) ∧
      ∀ bc : Blockchain, bc.getHeight = height →
        (∀ pool, bc.utxoPool = some pool → pool.supply ≤ 0) →
        getCirculatingSupply bc = totalSupply height := by
  have hinterval : rewardHalvingBlocks.toNat = 210000 := rfl
  rw [hinterval, Nat.cast_ofNat]
  refine ⟨?_, ?_, ?_, ?_⟩
  · rw [totalSupply_eq, sum_range_eq_sum_Icc]
  · rw [supplyLoop_eq, ceil_div_interval]
    exact zero_add _
  · intro n _ parent hnumber hfree
    rw [calculateBlockReward_of_feeFree hfree, hnumber, subsidy, zero_add]
  · rintro bc rfl hsupply
    unfold getCirculatingSupply
    cases hpool : bc.utxoPool with
    | none => rfl
    | some pool => exact if_neg (not_lt.mpr (hsupply pool hpool))

lemma feeFree_genesisBlock (now : ℤ) : (genesisBlock now).FeeFree := by
  have hempty : (genesisBlock now).transactions = [] := PatriciaTrie.getAllTransactions_new
  intro tx htx
  rw [hempty] at htx
  exact absurd htx not_mem_nil

theorem totalSupply_eq_sum_first : calculateBlockReward (genesisBlock 0) = atLeastMinimum 50 ∧
      (supplyLoop 0 210001 0).1 = 2 := by
  constructor
  · have hone := (totalSupply_eq_sum 1).2.2.1 1 (by decide) (genesisBlock 0) rfl
      (feeFree_genesisBlock 0)
    rw [hone]
    norm_num [initialBlockReward]
  · have hturns := (totalSupply_eq_sum 210001).2.1
    have hheight : (210001 : UInt64).toNat = 210001 := rfl
    have hinterval : rewardHalvingBlocks.toNat = 210000 := rfl
    rw [hturns, hheight, hinterval]
    exact ceil_div_interval 210001

/-! ## What mining mints -/

/-- What the transactions pay that `MineBlock` makes for the miner and the validator. -/
def mintedBy (C : Crypto) (env : MiningEnv) (previousBlock : Block) (minerAddress : String) : ℚ :=
  let rewards := rewardTransactions C env previousBlock minerAddress
  rewards.1.outputTotal + (rewards.2.map Transaction.outputTotal).getD 0

/-- The rewards of the miner and the validator on top of a block. -/
def mintedOn (previousBlock : Block) : ℚ :=
  let totalBlockReward := calculateBlockReward previousBlock
  calculateMinerReward totalBlockReward +
    if previousBlock.header.validatedBy ≠ "" ∧ previousBlock.header.blockNumber + 1 > 1 then
      calculateValidatorReward totalBlockReward
    else 0

lemma mintedBy_eq_mintedOn (C : Crypto) (env : MiningEnv) (previousBlock : Block)
    (minerAddress : String) :
    mintedBy C env previousBlock minerAddress = mintedOn previousBlock := by
  have hone : ∀ (label sender data receiver : String) (txType : ℤ) (reward : ℚ) (h : UInt64)
      (now : ℤ), (rewardTransaction C label sender txType data receiver reward h now).outputTotal =
        reward := by
    intro label sender data receiver txType reward h now
    exact add_zero reward
  simp only [mintedBy, rewardTransactions, mintedOn]
  split_ifs with hvalidated
  · rw [Option.map_some, Option.getD_some, newCoinbaseTransaction, newValidatorRewardTransaction,
      hone, hone]
  · rw [Option.map_none, Option.getD_none, newCoinbaseTransaction, hone]

lemma mintedOn_le (h : 1 / 10 ^ 8 ≤ calculateBlockReward block * (3 / 10)) :
    mintedOn block ≤ calculateBlockReward block := by
  have hvalidator : calculateValidatorReward (calculateBlockReward block) =
      calculateBlockReward block * (3 / 10) := if_neg (not_lt.mpr h)
  have hminer : calculateMinerReward (calculateBlockReward block) =
      calculateBlockReward block * (7 / 10) := if_neg (not_lt.mpr (by linarith))
  have hpos : (0 : ℚ) < 1 / 10 ^ 8 := by positivity
  simp only [mintedOn, hvalidator, hminer]
  split_ifs
  · linarith
  · linarith

lemma lt_mintedOn (h : calculateBlockReward block * (3 / 10) < 1 / 10 ^ 8)
    (hvalidated : block.header.validatedBy ≠ "" ∧ block.header.blockNumber + 1 > 1) :
    calculateBlockReward block < mintedOn block := by
  have hvalidator : calculateValidatorReward (calculateBlockReward block) = 1 / 10 ^ 8 := if_pos h
  simp only [mintedOn, hvalidator, if_pos hvalidated, calculateMinerReward, atLeastMinimum]
  split_ifs <;> linarith

lemma le_mintedOn (block : Block) : 1 / 10 ^ 8 ≤ mintedOn block := by
  have hmin : ∀ reward : ℚ, 1 / 10 ^ 8 ≤ atLeastMinimum reward := by
    intro reward
    unfold atLeastMinimum
    split_ifs with hsmall
    · exact le_rfl
    · exact not_lt.mp hsmall
  have hminer := hmin (calculateBlockReward block * (7 / 10))
  have hvalidator := hmin (calculateBlockReward block * (3 / 10))
  simp only [mintedOn, calculateMinerReward, calculateValidatorReward]
  split_ifs
  · have hpos : (0 : ℚ) < 1 / 10 ^ 8 := by positivity
    linarith
  · linarith

/-! ## Chains -/

variable {previousBlock : Block}

lemma Node.header_mineBlock {n n' : Node} {block : Block}
    (h : n.mineBlock C env minerAddress = some (n', .ok block))
    (hprev : n.blockchain.getLatestBlock C = some previousBlock) :
    block.header.blockNumber = previousBlock.header.blockNumber + 1 ∧
      block.header.difficulty = previousBlock.header.difficulty := by
  obtain ⟨mined, nonce, who, sig, rfl, hfields⟩ := exists_newBlock h hprev
  rw [Block.header_rememberHash, hfields]
  exact ⟨rfl, rfl⟩

lemma Blockchain.exists_getLatestBlock (C : Crypto) {bc : Blockchain} (h : bc.chain ≠ []) :
    ∃ earlier previous, bc.chain = earlier ++ [previous] ∧
      bc.getLatestBlock C = some previous := by
  obtain ⟨earlier, previous, hchain⟩ := bc.chain.eq_nil_or_concat.resolve_left h
  rw [concat_eq_append] at hchain
  refine ⟨earlier, previous, hchain, ?_⟩
  rw [Blockchain.getLatestBlock, hchain, List.getLast?_concat]

/-- **The blocks of a self-grown chain are numbered from 0 on.** -/
lemma SelfGrown.blockNumbers (h : SelfGrown C chain) :
    chain ≠ [] ∧ chain.map (fun block => block.header.blockNumber) =
      (List.range chain.length).map UInt64.ofNat := by
  induction h with
  | fromInitialise db utxoPool now => exact ⟨cons_ne_nil _ _, rfl⟩
  | @fromInitializeChain bc bc' wallet utxoSet now hheight hinit =>
    rw [Blockchain.chain_initializeChain hheight hinit, map_singleton,
      (installed_initialBlock C wallet utxoSet now).1]
    exact ⟨cons_ne_nil _ _, rfl⟩
  | @mine n n' env minerAddress block _ hmine ih =>
    obtain ⟨hne, hnumbers⟩ := ih
    obtain ⟨earlier, previous, hchain, hlatest⟩ := Blockchain.exists_getLatestBlock C hne
    have hlast : previous.header.blockNumber = UInt64.ofNat earlier.length := by
      rw [hchain, map_append, length_append, length_singleton, range_succ,
        map_append] at hnumbers
      exact (List.cons.inj (append_inj_right' hnumbers rfl)).1
    have hnumber : block.header.blockNumber = UInt64.ofNat n.blockchain.chain.length := by
      rw [(Node.header_mineBlock hmine hlatest).1, hlast, hchain, length_append,
        UInt64.ofNat_add]
      rfl
    rw [Node.chain_mineBlock hmine, map_append, hnumbers, length_append,
      length_singleton, range_succ, map_append, map_singleton, hnumber]
    exact ⟨by simp, rfl⟩

lemma calculateBlockReward_early (hfree : block.FeeFree)
    (hnumber : block.header.blockNumber.toNat < 6510000) : calculateBlockReward block =
        subsidy initialBlockReward 210000 0 block.header.blockNumber.toNat ∧
      1 / 10 ^ 8 ≤ calculateBlockReward block * (3 / 10) := by
  have hhalvings : 0 + block.header.blockNumber.toNat / 210000 ≤ 30 := by omega
  have hpow : (2 : ℚ) ^ (0 + block.header.blockNumber.toNat / 210000) ≤ 2 ^ 30 :=
    pow_le_pow_right₀ (by norm_num) hhalvings
  have hlarge : initialBlockReward / 2 ^ 30 ≤
      subsidy initialBlockReward 210000 0 block.header.blockNumber.toNat :=
    div_le_div_of_nonneg_left (by norm_num [initialBlockReward]) (by positivity) hpow
  have hvalue : initialBlockReward / 2 ^ 30 = 50 / 2 ^ 30 := rfl
  rw [hvalue] at hlarge
  have hreward := calculateBlockReward_of_feeFree hfree
  rw [atLeastMinimum, if_neg (not_lt.mpr (le_trans (by norm_num) hlarge))] at hreward
  rw [hreward]
  exact ⟨rfl, by linarith⟩

lemma calculateBlockReward_late (hfree : block.FeeFree)
    (hnumber : 6510000 ≤ block.header.blockNumber.toNat) :
    calculateBlockReward block * (3 / 10) < 1 / 10 ^ 8 := by
  have hhalvings : 31 ≤ 0 + block.header.blockNumber.toNat / 210000 := by omega
  have hpow : (2 : ℚ) ^ 31 ≤ 2 ^ (0 + block.header.blockNumber.toNat / 210000) :=
    pow_le_pow_right₀ (by norm_num) hhalvings
  have hsmall : subsidy initialBlockReward 210000 0 block.header.blockNumber.toNat ≤
      initialBlockReward / 2 ^ 31 :=
    div_le_div_of_nonneg_left (by norm_num [initialBlockReward]) (by positivity) hpow
  have hvalue : initialBlockReward / 2 ^ 31 = 50 / 2 ^ 31 := rfl
  rw [hvalue] at hsmall
  rw [calculateBlockReward_of_feeFree hfree, atLeastMinimum]
  split_ifs
  · norm_num
  · linarith

/-! ## A chain of any length -/

/-- A node with a chain, a pool of outputs and one validator. -/
def agreeingNode (chain : List Block) : Node where
  blockchain := { chain := chain, stakePool := agreeingPool, utxoPool := some {} }

lemma getValidators_agreeingPool : agreeingPool.getValidators ["validator"] 0 3 =
      .ok [{ address := "validator", stake := 1, hostID := "host" }] := by
  have hne : agreeingPool.stakes ≠ ∅ := by decide +kernel
  have hstake : agreeingPool.stakes.lookup "validator" = some (.fresh 1) :=
    Finmap.lookup_singleton_eq
  have hhost : agreeingPool.walletToHost.lookup "validator" = some "host" :=
    Finmap.lookup_singleton_eq
  have hone : (1 : UInt64).toNat = 1 := rfl
  simp [StakePool.getValidators, StakeInfo.fresh, hne, hstake, hhost, minStakeAge, hone]

lemma isHashValid_leadingZero (header : BlockHeader) :
    isHashValid (calculateHash leadingZero header) 1 = true := by
  simp only [calculateHash, Crypto.hashHex, leadingZero, isHashValid, Text.hex, List.Vector.toList,
    String.toList_ofList]
  rfl

/-- The path of a reward in the trie has the first digit of its label. -/
lemma path_rewardTransaction {label : String} {b : UInt8} {rest : List UInt8}
    (hlabel : Text.bytes label = b :: rest) (sender data receiver : String) (txType : ℤ)
    (reward : ℚ) (h : UInt64) (now : ℤ) :
    (PatriciaTrie.path leadingZero (rewardTransaction leadingZero label sender txType data receiver
      reward h now))[3]? = some (UInt8.ofNat (Text.hexDigit (b.toNat / 16)).toNat) := by
  simp only [PatriciaTrie.path, rewardTransaction, rewardID, Crypto.hashHex, Text.bytes_hex,
    Text.bytes_append, hlabel, leadingZero, List.Vector.toList, cons_append, pad]
  rfl

lemma exists_mineBlock_agreeing (block : Block) :
    ∃ mined, block.mineBlock leadingZero agreeingEnv agreeingPool 1 = some (.ok mined) ∧
      mined.header.validatedBy = "validator" := by
  let header : BlockHeader := { block.header with difficulty := 1 }
  let found : Block := { block with header := header, hash := calculateHash leadingZero header }
  have hnonce : findNonce leadingZero 1 1 header = some header :=
    if_pos (isHashValid_leadingZero header)
  refine ⟨found.markedBy "validator" header.validatorSig, ?_, rfl⟩
  have hasked : collectValidation agreeingEnv (found, 0)
      { address := "validator", stake := 1, hostID := "host" } =
        (found.markedBy "validator" header.validatorSig, 1) := rfl
  unfold Block.mineBlock
  have hnonces : agreeingEnv.nonces = 1 := rfl
  have horder : agreeingEnv.stakeOrder = ["validator"] := rfl
  have htime : agreeingEnv.validationTime = 0 := rfl
  rw [hnonces, horder, htime, hnonce, getValidators_agreeingPool]
  simp only
  rw [foldl_cons, foldl_nil, hasked]
  rfl

lemma feeFree_rewards :
    ∀ tx ∈ assembled C env (agreeingNode chain) previousBlock minerAddress, tx.gasFee = 0 := by
  intro tx htx
  simp only [assembled, rewardTransactions, agreeingNode, selectPending, append_nil] at htx
  split_ifs at htx
  · rcases mem_cons.mp htx with rfl | htx
    · rfl
    · rw [Option.toList_some, mem_singleton] at htx
      rw [htx]
      rfl
  · rw [Option.toList_none, mem_singleton] at htx
    rw [htx]
    rfl

lemma nodup_path_assembled (chain : List Block) (env : MiningEnv) (previousBlock : Block)
    (minerAddress : String) :
    ((assembled leadingZero env (agreeingNode chain) previousBlock minerAddress).map
      (PatriciaTrie.path leadingZero)).Nodup := by
  simp only [assembled, rewardTransactions, agreeingNode, selectPending, append_nil]
  split_ifs
  · rw [Option.toList_some, map_cons, map_singleton, nodup_cons,
      mem_singleton]
    refine ⟨fun heq => ?_, nodup_singleton _⟩
    have hdigit := congrArg (fun path : List UInt8 => path[3]?) heq
    simp only [newCoinbaseTransaction, newValidatorRewardTransaction] at hdigit
    rw [path_rewardTransaction (show Text.bytes "coinbase" = 99 :: _ from rfl),
      path_rewardTransaction (show Text.bytes "validator-reward" = 118 :: _ from rfl)] at hdigit
    revert hdigit
    decide
  · exact nodup_singleton _

/-- What the transactions of a block pay. -/
def Block.paid (block : Block) : ℚ := (block.transactions.map Transaction.outputTotal).sum

variable (minerAddress) in
lemma Node.exists_mineBlock {n : Node} {P : Block → Prop}
    (hpool : n.blockchain.utxoPool.isSome)
    (hprev : n.blockchain.getLatestBlock C = some previousBlock)
    (hmined : ∀ block : Block, ∃ mined, block.mineBlock C env n.blockchain.stakePool
      previousBlock.header.difficulty = some (.ok mined) ∧ P mined) :
    ∃ n' mined, n.mineBlock C env minerAddress = some (n', .ok (mined.rememberHash C)) ∧
      P mined := by
  obtain ⟨pool, hsome⟩ := Option.isSome_iff_exists.mp hpool
  unfold mineBlock
  simp only [hprev, hsome, Option.map_some, Option.isNone_some, Bool.false_eq_true, and_false,
    if_false]
  obtain ⟨mined, hcall, hmined⟩ := hmined (newBlock C env previousBlock minerAddress _ _)
  exact ⟨_, mined, by rw [hcall], hmined⟩

/-- A chain in which no block pays a fee, the validator has agreed to all blocks but the first, and
the transactions of each block pay what is minted for it. -/
structure Agreed (chain : List Block) : Prop where
  grown : SelfGrown leadingZero chain
  feeFree : ∀ block ∈ chain, block.FeeFree
  difficulty : ∀ block ∈ chain, block.header.difficulty = 1
  validatedBy : ∀ block ∈ chain.tail, block.header.validatedBy ≠ ""
  paid : chain.dropLast.map mintedOn = chain.tail.map Block.paid

lemma paid_mineBlock {n : Node} {block : Block}
    (h : (agreeingNode chain).mineBlock leadingZero env minerAddress = some (n, .ok block))
    (hprev : (agreeingNode chain).blockchain.getLatestBlock leadingZero = some previousBlock) :
    block.paid = mintedOn previousBlock := by
  have hperm := PatriciaTrie.perm_insertBatch
    (nodup_path_assembled chain env previousBlock minerAddress)
  rw [Block.paid, Node.transactions_mineBlock h hprev, (hperm.map _).sum_eq,
    ← mintedBy_eq_mintedOn leadingZero env previousBlock minerAddress]
  simp only [assembled, agreeingNode, selectPending, append_nil, mintedBy, map_cons,
    sum_cons]
  cases (rewardTransactions leadingZero env previousBlock minerAddress).2 <;> simp

lemma Agreed.exists_next (h : Agreed chain) :
    ∃ block, Agreed (chain ++ [block]) := by
  obtain ⟨earlier, previous, hchain, hlatest⟩ :=
    (agreeingNode chain).blockchain.exists_getLatestBlock leadingZero h.grown.blockNumbers.1
  replace hchain : chain = earlier ++ [previous] := hchain
  have hdifficulty : previous.header.difficulty = 1 := by
    refine h.difficulty previous ?_
    rw [hchain]
    exact mem_concat_self
  obtain ⟨n', mined, hcall, hvalidated⟩ := Node.exists_mineBlock "miner" rfl hlatest
    (hdifficulty ▸ exists_mineBlock_agreeing)
  refine ⟨mined.rememberHash leadingZero, ?_, ?_, ?_, ?_, ?_⟩
  · exact Node.chain_mineBlock hcall ▸ SelfGrown.mine h.grown hcall
  · refine forall_mem_append.mpr ⟨h.feeFree, forall_mem_singleton.mpr fun tx htx => ?_⟩
    rw [Node.transactions_mineBlock hcall hlatest] at htx
    exact feeFree_rewards tx (PatriciaTrie.subset_of_insertBatch htx)
  · refine forall_mem_append.mpr ⟨h.difficulty, forall_mem_singleton.mpr ?_⟩
    exact (Node.header_mineBlock hcall hlatest).2.trans hdifficulty
  · rw [tail_append_of_ne_nil h.grown.blockNumbers.1]
    refine forall_mem_append.mpr ⟨h.validatedBy, forall_mem_singleton.mpr ?_⟩
    rw [Block.header_rememberHash, hvalidated]
    decide
  · have hpaid := h.paid
    rw [tail_append_of_ne_nil h.grown.blockNumbers.1, map_append, ← hpaid,
      dropLast_concat, map_singleton, paid_mineBlock hcall hlatest, hchain,
      dropLast_concat, map_append, map_singleton]

/-- **There is such a chain with any number of mined blocks.** -/
lemma exists_agreed (n : ℕ) : ∃ chain, Agreed chain ∧ chain.length = n + 1 := by
  induction n with
  | zero =>
    refine ⟨[genesisBlock 0], ⟨.fromInitialise {} {} 0, ?_, ?_, ?_, rfl⟩, rfl⟩
    · exact forall_mem_singleton.mpr (feeFree_genesisBlock 0)
    · exact forall_mem_singleton.mpr rfl
    · exact forall_mem_nil _
  | succ n ih =>
    obtain ⟨chain, hagreed, hlength⟩ := ih
    obtain ⟨block, hnext⟩ := hagreed.exists_next
    exact ⟨chain ++ [block], hnext, by rw [length_append, hlength, length_singleton]⟩

/-! ## The bound -/

/-- The chains that mining builds on an installed first block, with what is minted for each of the
mined blocks. -/
inductive Mints (C : Crypto) : List Block → List ℚ → Prop
  | installed {chain : List Block} (hgrown : SelfGrown C chain) (hlength : chain.length = 1) :
    Mints C chain []
  | mine {n n' : Node} {env : MiningEnv} {minerAddress : String} {block previousBlock : Block}
      {amounts : List ℚ} (hmints : Mints C n.blockchain.chain amounts)
      (hmine : n.mineBlock C env minerAddress = some (n', .ok block))
      (hprev : n.blockchain.getLatestBlock C = some previousBlock) :
    Mints C n'.blockchain.chain (amounts ++ [mintedBy C env previousBlock minerAddress])

/-- No block mints more than the reward on top of its parent, and not more than twice the rewards
of the first interval is minted in total. -/
structure WithinSchedule (chain : List Block) (amounts : List ℚ) : Prop where
  total : amounts.sum ≤ 2 * initialBlockReward * rewardHalvingBlocks.toNat
  each : ∀ pair ∈ chain.zip amounts, pair.2 ≤ calculateBlockReward pair.1

lemma Mints.spec {amounts : List ℚ} (h : Mints C chain amounts) :
    SelfGrown C chain ∧ amounts = chain.dropLast.map mintedOn := by
  induction h with
  | installed hgrown hlength =>
    obtain ⟨block, rfl⟩ := length_eq_one_iff.mp hlength
    exact ⟨hgrown, rfl⟩
  | mine hmints hmine hprev ih =>
    obtain ⟨hgrown, hamounts⟩ := ih
    obtain ⟨earlier, previous, hchain, hlatest⟩ :=
      Blockchain.exists_getLatestBlock C hgrown.blockNumbers.1
    cases hprev.symm.trans hlatest
    refine ⟨hgrown.mine hmine, ?_⟩
    rw [Node.chain_mineBlock hmine, dropLast_concat, hamounts, mintedBy_eq_mintedOn, hchain,
      dropLast_concat, map_append, map_singleton]

lemma SelfGrown.mints (h : SelfGrown C chain) :
    Mints C chain (chain.dropLast.map mintedOn) := by
  induction h with
  | fromInitialise db utxoPool now => exact .installed (.fromInitialise db utxoPool now) rfl
  | fromInitializeChain hheight hinit =>
    have hchain := Blockchain.chain_initializeChain hheight hinit
    have hgrown := SelfGrown.fromInitializeChain hheight hinit
    rw [hchain] at hgrown ⊢
    exact .installed hgrown rfl
  | mine hgrown hmine ih =>
    obtain ⟨earlier, previous, hchain, hlatest⟩ :=
      Blockchain.exists_getLatestBlock C hgrown.blockNumbers.1
    have hnext := Mints.mine ih hmine hlatest
    rw [mintedBy_eq_mintedOn] at hnext
    rw [hchain, dropLast_concat] at hnext
    rwa [Node.chain_mineBlock hmine, dropLast_concat, hchain, map_append,
      map_singleton, ← hchain, ← Node.chain_mineBlock hmine]

lemma zip_map_dropLast (f : Block → ℚ) (chain : List Block) :
    chain.zip (chain.dropLast.map f) = chain.dropLast.map fun block => (block, f block) := by
  obtain rfl | ⟨earlier, previous, rfl⟩ := chain.eq_nil_or_concat
  · rfl
  · rw [concat_eq_append, dropLast_concat, map_prod_left_eq_zip]
    conv_lhs => rw [← append_nil (earlier.map f)]
    rw [zip_append (length_map _).symm, zip_nil_right, append_nil]

lemma withinSchedule_mintedOn_iff : WithinSchedule chain (chain.dropLast.map mintedOn) ↔
      (chain.dropLast.map mintedOn).sum ≤ 2 * initialBlockReward * rewardHalvingBlocks.toNat ∧
        ∀ parent ∈ chain.dropLast, mintedOn parent ≤ calculateBlockReward parent := by
  have heach : (∀ pair ∈ chain.zip (chain.dropLast.map mintedOn),
      pair.2 ≤ calculateBlockReward pair.1) ↔
        ∀ parent ∈ chain.dropLast, mintedOn parent ≤ calculateBlockReward parent := by
    rw [zip_map_dropLast, forall_mem_map]
  exact ⟨fun h => ⟨h.total, heach.mp h.each⟩, fun h => ⟨h.1, heach.mpr h.2⟩⟩

lemma SelfGrown.blockNumbers_dropLast (h : SelfGrown C chain) (hlength : chain.length = n + 1) :
    chain.dropLast.map (fun block => block.header.blockNumber) =
      (List.range n).map UInt64.ofNat := by
  rw [map_dropLast, h.blockNumbers.2, hlength, range_succ, map_append,
    map_singleton, dropLast_concat]

lemma SelfGrown.toNat_blockNumbers (h : SelfGrown C chain) (hlength : chain.length = n + 1)
    (hn : n ≤ 2 ^ 64) :
    chain.dropLast.map (fun block => block.header.blockNumber.toNat) = List.range n := by
  have hnumbers := congrArg (List.map UInt64.toNat) (h.blockNumbers_dropLast hlength)
  have hword : ∀ k ∈ List.range n, (UInt64.ofNat k).toNat = k := by
    intro k hk
    exact UInt64.toNat_ofNat_of_lt' ((mem_range.mp hk).trans_le hn)
  rw [map_map, map_map] at hnumbers
  exact hnumbers.trans ((map_congr_left hword).trans (map_id _))

/-- **Chains with at most 6510000 mined blocks stay within the schedule.** -/
lemma SelfGrown.withinSchedule (h : SelfGrown C chain)
    (hfree : ∀ block ∈ chain, block.FeeFree) (hlength : chain.length = n + 1)
    (hn : n ≤ 6510000) : WithinSchedule chain (chain.dropLast.map mintedOn) := by
  have hnumbers := h.toNat_blockNumbers hlength (hn.trans (by norm_num))
  have hreward : ∀ parent ∈ chain.dropLast, calculateBlockReward parent =
      subsidy initialBlockReward 210000 0 parent.header.blockNumber.toNat ∧
        mintedOn parent ≤ calculateBlockReward parent := by
    intro parent hparent
    have hmem : parent.header.blockNumber.toNat ∈ List.range n :=
      hnumbers ▸ mem_map_of_mem hparent
    obtain ⟨hschedule, hlarge⟩ := calculateBlockReward_early
      (hfree parent (mem_of_mem_dropLast hparent)) ((mem_range.mp hmem).trans_le hn)
    exact ⟨hschedule, mintedOn_le hlarge⟩
  refine withinSchedule_mintedOn_iff.mpr ⟨?_, fun parent hparent => (hreward parent hparent).2⟩
  calc (chain.dropLast.map mintedOn).sum
      ≤ (chain.dropLast.map fun block =>
          subsidy initialBlockReward 210000 0 block.header.blockNumber.toNat).sum := by
        refine sum_le_sum fun parent hparent => ?_
        rw [← (hreward parent hparent).1]
        exact (hreward parent hparent).2
    _ = ∑ k ∈ range n, subsidy initialBlockReward 210000 0 k := by
        have hmap := congrArg (List.map (subsidy initialBlockReward 210000 0)) hnumbers
        rw [map_map] at hmap
        exact congrArg List.sum hmap
    _ ≤ 2 * ((210000 : ℕ) * (initialBlockReward / 2 ^ 0)) :=
        Halving.sum_le (by norm_num [initialBlockReward]) (by norm_num) n 0
    _ = 2 * initialBlockReward * rewardHalvingBlocks.toNat := by
        have hinterval : rewardHalvingBlocks.toNat = 210000 := rfl
        rw [hinterval]
        ring

lemma Agreed.exceeds (h : Agreed chain) (hlength : chain.length = n + 1) (hn : 6510000 < n) :
    ∃ parent ∈ chain.dropLast, calculateBlockReward parent < mintedOn parent := by
  obtain ⟨k, hk⟩ : ∃ k, k + 1 = 6510000 := ⟨6509999, rfl⟩
  have hnumber := congrArg (fun numbers => numbers[k + 1]?) (h.grown.blockNumbers_dropLast hlength)
  simp only [List.getElem?_map] at hnumber
  rw [List.getElem?_range (by omega), Option.map_some, Option.map_eq_some_iff] at hnumber
  obtain ⟨parent, hparent, hnumber⟩ := hnumber
  have hmem : parent ∈ chain.dropLast := mem_of_getElem? hparent
  have htail : parent ∈ chain.tail := by
    rw [List.getElem?_dropLast, if_pos (by omega), ← List.getElem?_tail] at hparent
    exact mem_of_getElem? hparent
  rw [hk] at hnumber
  have hlate : parent.header.blockNumber.toNat = 6510000 := by rw [hnumber]; rfl
  refine ⟨parent, hmem, lt_mintedOn (calculateBlockReward_late
    (h.feeFree parent (mem_of_mem_dropLast hmem)) hlate.ge) ⟨h.validatedBy parent htail, ?_⟩⟩
  rw [hnumber]
  decide

lemma le_sum_mintedOn (hlength : chain.length = n + 1) :
    n * (1 / 10 ^ 8) ≤ (chain.dropLast.map mintedOn).sum := by
  have hcard : (chain.dropLast.map mintedOn).length = n := by
    rw [length_map, length_dropLast, hlength, Nat.add_sub_cancel]
  have hle := card_nsmul_le_sum (chain.dropLast.map mintedOn) (1 / 10 ^ 8) fun amount h => by
    obtain ⟨block, -, rfl⟩ := mem_map.mp h
    exact le_mintedOn block
  rwa [hcard, nsmul_eq_mul] at hle

/-- **When issuance stays within the schedule**: in all chains with `n` mined blocks and without
fees, exactly if `n` is at most 6510000, thirty-one intervals. -/
theorem issuance_bounded_iff (n : ℕ) :
    (∀ (C : Crypto) (chain : List Block) (amounts : List ℚ), Mints C chain amounts →
      (∀ block ∈ chain, block.FeeFree) → amounts.length = n → WithinSchedule chain amounts) ↔
        n ≤ 6510000 := by
  constructor
  · intro hall
    by_contra hlong
    obtain ⟨chain, hagreed, hlength⟩ := exists_agreed n
    obtain ⟨parent, hparent, hexceeds⟩ := hagreed.exceeds hlength (not_le.mp hlong)
    have hwithin := hall leadingZero chain _ hagreed.grown.mints hagreed.feeFree
      (by rw [length_map, length_dropLast, hlength, Nat.add_sub_cancel])
    have heach := (withinSchedule_mintedOn_iff.mp hwithin).2
    exact absurd (heach parent hparent) (not_le.mpr hexceeds)
  · intro hn C chain amounts hmints hfree hlength
    obtain ⟨hgrown, rfl⟩ := hmints.spec
    have hpos := length_pos_iff.mpr hgrown.blockNumbers.1
    rw [length_map, length_dropLast] at hlength
    exact hgrown.withinSchedule hfree (by omega) hn

/-- A chain with 6510001 mined blocks in which a block mints more than its reward, and one, with
more than `2.1 * 10 ^ 15` blocks, in which the total exceeds the bound. The transactions of the
blocks pay what is minted for them. -/
theorem issuance_exceeds :
    (∃ chain amounts, Mints leadingZero chain amounts ∧ amounts = chain.tail.map Block.paid ∧
      (∀ block ∈ chain, block.FeeFree) ∧ amounts.length = 6510001 ∧
      ∃ pair ∈ chain.zip amounts, calculateBlockReward pair.1 < pair.2) ∧
    ∃ chain amounts, Mints leadingZero chain amounts ∧ amounts = chain.tail.map Block.paid ∧
      (∀ block ∈ chain, block.FeeFree) ∧
      2 * initialBlockReward * rewardHalvingBlocks.toNat < amounts.sum := by
  constructor
  · obtain ⟨chain, hagreed, hlength⟩ := exists_agreed 6510001
    obtain ⟨parent, hparent, hexceeds⟩ := hagreed.exceeds hlength (by norm_num)
    refine ⟨chain, _, hagreed.grown.mints, hagreed.paid, hagreed.feeFree, ?_,
      (parent, mintedOn parent), ?_, hexceeds⟩
    · rw [length_map, length_dropLast, hlength]
    · rw [zip_map_dropLast]
      exact mem_map_of_mem hparent
  · obtain ⟨chain, hagreed, hlength⟩ := exists_agreed 2100000000000001
    have hinterval : rewardHalvingBlocks.toNat = 210000 := rfl
    have hle := le_sum_mintedOn hlength
    refine ⟨chain, _, hagreed.grown.mints, hagreed.paid, hagreed.feeFree, lt_of_lt_of_le ?_ hle⟩
    rw [hinterval, initialBlockReward]
    norm_num

end HybridChain
