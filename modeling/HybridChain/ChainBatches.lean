import HybridChain.Lib.ForLoop
import HybridChain.SyncService
import Mathlib.Data.List.TakeWhile

/-!
# The loops that send a chain

`sendChainToPeer` of `sync/service.go` sends the blocks of a range of heights in batches of ten,
with a loop over the range and one over each batch.

Writing to the stream succeeds. The batches hold the blocks that `GetBlockByHeight` returns
(`Blockchain.blockAt`), which no other lookup changes.

## Main definitions

* `batchLoop`, `chainLoop`, `sendChain`
* `completeBatches`: the batches before a missing block

## Main results

* `messages_sendChain`: the loops write what the model of the server writes
* `sendChain_covers`: the batches cover the range
-/

namespace HybridChain

open List

namespace SyncService

/-! ## The function -/

/-- The variables of the loop over a batch; `missing` is a height without a block. -/
structure BatchScan where
  bc : Blockchain
  blocks : List Block := []
  missing : Option UInt64 := none

/-- What the function has written, and how it ends. -/
structure ChainAnswer where
  bc : Blockchain
  info : Option ChainInfo := none
  batches : List (List Block) := []
  outcome : SyncOutcome := .done

section Functions

variable (C : Crypto)

def batchLoop (batchEnd : UInt64) : ForLoop UInt64 BatchScan where
  cond h _ := h ≤ batchEnd
  body h scan :=
    match scan.bc.getBlockByHeight C h with
    | (none, bc) => some (.stop { scan with bc := bc, missing := some h })
    | (some block, bc) => some (.next h { scan with bc := bc, blocks := scan.blocks ++ [block] })
  post h := h + 1

def missingBlock (h : UInt64) : String := "failed to get block at height " ++ toString h.toNat

/-- The loop over the batches; the inner loops take at most `fuel` turns. -/
def chainLoop (endHeight : UInt64) (fuel : ℕ) : ForLoop UInt64 ChainAnswer where
  cond height _ := height ≤ endHeight
  body height answer :=
    let batchEnd := height + 10 - 1
    let batchEnd := if batchEnd > endHeight then endHeight else batchEnd
    match (batchLoop C batchEnd).run fuel height { bc := answer.bc } with
    | none => none
    | some scan =>
      match scan.missing with
      | some h => some (.stop { answer with bc := scan.bc, outcome := .failed (missingBlock h) })
      | none => some (.next height
          { answer with bc := scan.bc, batches := answer.batches ++ [scan.blocks] })
  post height := height + 10

/-- `sendChainToPeer`, with at most `fuel` turns of each of its loops. -/
def sendChain (stateHash : String) (bc : Blockchain) (startHeight endHeight : UInt64) (fuel : ℕ) :
    Option ChainAnswer :=
  match bc.getLatestBlock C with
  | none => some { bc := bc, outcome := .panicked }
  | some latestBlock =>
    (chainLoop C endHeight fuel).run fuel (startHeight + 1)
      { bc := bc
        info := some { height := endHeight
                       lastBlockHash := latestBlock.getHash C
                       stateRoot := stateHash } }

end Functions

/-! ## One batch -/

section Loops

variable (C : Crypto) (bc : Blockchain)

/-- A blockchain in which every height gives the same block. -/
def SameLookups (bc' : Blockchain) : Prop := ∀ h, bc'.blockAt C h = bc.blockAt C h

def Complete (heights : List UInt64) : Bool := heights.all fun h => (bc.blockAt C h).isSome

variable {C bc} {bc' : Blockchain} {fuel : ℕ}

lemma SameLookups.getBlockByHeight (h : SameLookups C bc bc') (height : UInt64) :
    SameLookups C bc (bc'.getBlockByHeight C height).2 := by
  intro height'
  rw [Blockchain.blockAt_getBlockByHeight, h]

/-- **What the loop over a batch does**: it collects all blocks, or stops at one that is missing. -/
lemma run_batchLoop {batchEnd : UInt64} (hend : batchEnd.toNat + 1 < 2 ^ 64) (n : ℕ) :
    ∀ {h : UInt64} {scan : BatchScan} {fuel : ℕ}, h.toNat + n = batchEnd.toNat + 1 →
      SameLookups C bc scan.bc → n < fuel →
      ∃ bc', SameLookups C bc bc' ∧ (Complete C bc (List.iterate (· + 1) h n) = true →
          (batchLoop C batchEnd).run fuel h scan = some { scan with
            bc := bc'
            blocks := scan.blocks ++ (List.iterate (· + 1) h n).filterMap (bc.blockAt C) }) ∧
        (Complete C bc (List.iterate (· + 1) h n) = false →
          ∃ blocks, ∃ m ∈ List.iterate (· + 1) h n, bc.blockAt C m = none ∧
            (batchLoop C batchEnd).run fuel h scan = some { scan with
              bc := bc', blocks := blocks, missing := some m }) := by
  induction n with
  | zero =>
    intro h scan fuel hh hsame hfuel
    obtain ⟨fuel, rfl⟩ : ∃ m, fuel = m + 1 := ⟨fuel - 1, by omega⟩
    have hcond : (batchLoop C batchEnd).cond h scan = false := by
      refine decide_eq_false ?_
      rw [UInt64.le_iff_toNat_le]
      omega
    refine ⟨scan.bc, hsame, fun _ => ?_, fun hnot => absurd hnot.symm Bool.false_ne_true⟩
    rw [ForLoop.run_of_not_cond hcond, List.iterate, filterMap_nil, append_nil]
  | succ n ih =>
    intro h scan fuel hh hsame hfuel
    obtain ⟨fuel, rfl⟩ : ∃ m, fuel = m + 1 := ⟨fuel - 1, by omega⟩
    have hcond : (batchLoop C batchEnd).cond h scan = true := by
      refine decide_eq_true ?_
      rw [UInt64.le_iff_toNat_le]
      omega
    have hnext : (h + 1).toNat + n = batchEnd.toNat + 1 := by
      rw [UInt64.toNat_add, UInt64.toNat_one]
      omega
    have hblock : (scan.bc.getBlockByHeight C h).1 = bc.blockAt C h := hsame h
    have hafter := hsame.getBlockByHeight h
    have hcomplete : Complete C bc (List.iterate (· + 1) h (n + 1)) =
        ((bc.blockAt C h).isSome && Complete C bc (List.iterate (· + 1) (h + 1) n)) := rfl
    rcases hfound : scan.bc.getBlockByHeight C h with ⟨_ | block, bc'⟩
    case none =>
      rw [hfound] at hblock hafter
      have hbody : (batchLoop C batchEnd).body h scan =
          some (.stop { scan with bc := bc', missing := some h }) := by
        simp only [batchLoop, hfound]
      refine ⟨bc', hafter, fun hall => ?_, fun _ => ?_⟩
      · rw [hcomplete, ← hblock] at hall
        exact absurd hall Bool.false_ne_true
      · exact ⟨scan.blocks, h, mem_cons_self, hblock.symm, ForLoop.run_of_stop hcond hbody fuel⟩
    case some =>
      rw [hfound] at hblock hafter
      have hbody : (batchLoop C batchEnd).body h scan =
          some (.next h { scan with bc := bc', blocks := scan.blocks ++ [block] }) := by
        simp only [batchLoop, hfound]
      obtain ⟨bc'', hsame', hall, hmissing⟩ :=
        @ih (h + 1) { scan with bc := bc', blocks := scan.blocks ++ [block] } fuel hnext hafter
          (by omega)
      rw [hcomplete, ← hblock, Option.isSome_some, Bool.true_and, ForLoop.run_of_next hcond hbody]
      refine ⟨bc'', hsame', fun hrest => (hall hrest).trans ?_, fun hrest => ?_⟩
      · rw [List.iterate, filterMap_cons_some hblock.symm]
        simp only [append_assoc, singleton_append]
      · obtain ⟨blocks, m, hm, hnone, hrun⟩ := hmissing hrest
        exact ⟨blocks, m, mem_cons_of_mem h hm, hnone, hrun⟩

/-! ## All batches -/

/-- The heights from `height` to `endHeight`. -/
def heightsTo (endHeight height : UInt64) : List UInt64 :=
  List.iterate (· + 1) height (endHeight.toNat + 1 - height.toNat)

variable {endHeight height : UInt64}

lemma toNat_batchEnd (hend : endHeight.toNat < 2 ^ 63) (hle : height.toNat ≤ endHeight.toNat) :
    (if height + 10 - 1 > endHeight then endHeight else height + 10 - 1).toNat =
      min (height.toNat + 9) endHeight.toNat := by
  have hten : (height + 10 - 1).toNat = height.toNat + 9 := by
    have hword : (10 : UInt64).toNat = 10 := rfl
    rw [UInt64.toNat_sub, UInt64.toNat_add, UInt64.toNat_one, hword]
    omega
  split_ifs with hgt <;>
  · rw [gt_iff_lt, UInt64.lt_iff_toNat_lt, hten] at hgt
    omega

lemma toNat_add_ten (hend : endHeight.toNat < 2 ^ 63)
    (hle : height.toNat ≤ endHeight.toNat) : (height + 10).toNat = height.toNat + 10 := by
  have hword : (10 : UInt64).toNat = 10 := rfl
  rw [UInt64.toNat_add, hword]
  omega

lemma heightsTo_take_drop (hend : endHeight.toNat < 2 ^ 63) (hle : height.toNat ≤ endHeight.toNat) :
    (heightsTo endHeight height).take 10 =
        List.iterate (· + 1) height (min 10 (endHeight.toNat + 1 - height.toNat)) ∧
      (heightsTo endHeight height).drop 10 = heightsTo endHeight (height + 10) := by
  refine ⟨take_iterate _ _ _ _, ?_⟩
  by_cases hlong : 10 ≤ endHeight.toNat + 1 - height.toNat
  · obtain ⟨m, hm⟩ := Nat.exists_eq_add_of_le hlong
    have hrest : endHeight.toNat + 1 - (height + 10).toNat = m := by
      rw [toNat_add_ten hend hle]
      omega
    rw [heightsTo, heightsTo, hrest, hm, iterate_add, drop_left'
      (length_iterate _ _ _), ForLoop.iterate_add_one]
    rfl
  · have hrest : endHeight.toNat + 1 - (height + 10).toNat = 0 := by
      rw [toNat_add_ten hend hle]
      omega
    rw [heightsTo, heightsTo, hrest, drop_of_length_le (by rw [length_iterate]; omega)]
    rfl

lemma body_chainLoop {answer : ChainAnswer}
    (hend : endHeight.toNat < 2 ^ 63) (hle : height.toNat ≤ endHeight.toNat) (hfuel : 10 < fuel)
    (hsame : SameLookups C bc answer.bc) :
    ∃ bc', SameLookups C bc bc' ∧ (Complete C bc ((heightsTo endHeight height).take 10) = true →
        (chainLoop C endHeight fuel).body height answer = some (.next height { answer with
          bc := bc'
          batches := answer.batches ++
            [((heightsTo endHeight height).take 10).filterMap (bc.blockAt C)] })) ∧
      (Complete C bc ((heightsTo endHeight height).take 10) = false →
        ∃ m ∈ (heightsTo endHeight height).take 10, bc.blockAt C m = none ∧
          (chainLoop C endHeight fuel).body height answer = some (.stop { answer with
            bc := bc', outcome := .failed (missingBlock m) })) := by
  have hbatchEnd := toNat_batchEnd hend hle
  rw [(heightsTo_take_drop hend hle).1]
  obtain ⟨bc', hsame', hall, hmissing⟩ := run_batchLoop
    (show (if height + 10 - 1 > endHeight then endHeight else height + 10 - 1).toNat + 1 < 2 ^ 64 by
      omega)
    (min 10 (endHeight.toNat + 1 - height.toNat)) (show height.toNat + _ = _ by omega)
    (show SameLookups C bc ({ bc := answer.bc } : BatchScan).bc from hsame)
    (show _ < fuel by omega)
  refine ⟨bc', hsame', fun hcomplete => ?_, fun hcomplete => ?_⟩
  · simp only [chainLoop, hall hcomplete, nil_append]
  · obtain ⟨blocks, m, hm, hnone, hrun⟩ := hmissing hcomplete
    refine ⟨m, hm, hnone, ?_⟩
    simp only [chainLoop, hrun]

/-- The batches before the first one that is not complete. -/
def completeBatches (C : Crypto) (bc : Blockchain) (heights : List UInt64) : List (List Block) :=
  ((Stride.batches 10 heights).takeWhile (Complete C bc)).map (List.filterMap (bc.blockAt C))

/-- **What the loop over the batches does**: it sends the batches before the first one that is not
complete. -/
lemma run_chainLoop {endHeight : UInt64} (hend : endHeight.toNat < 2 ^ 63) (hfuel : 10 < fuel)
    (n : ℕ) : ∀ {height : UInt64} {answer : ChainAnswer} {turns : ℕ},
      endHeight.toNat + 1 - height.toNat ≤ n → SameLookups C bc answer.bc → n < turns →
      ∃ bc' outcome, (chainLoop C endHeight fuel).run turns height answer = some { answer with
          bc := bc'
          batches := answer.batches ++ completeBatches C bc (heightsTo endHeight height)
          outcome := outcome } ∧
        (Complete C bc (heightsTo endHeight height) = true → outcome = answer.outcome) ∧
        (Complete C bc (heightsTo endHeight height) = false →
          ∃ m ∈ heightsTo endHeight height, bc.blockAt C m = none ∧
            outcome = .failed (missingBlock m)) := by
  induction n using Nat.strong_induction_on with
  | _ n ih =>
    intro height answer turns hn hsame hturns
    obtain ⟨turns, rfl⟩ : ∃ m, turns = m + 1 := ⟨turns - 1, by omega⟩
    by_cases hle : height.toNat ≤ endHeight.toNat
    case neg =>
      have hcond : (chainLoop C endHeight fuel).cond height answer = false := by
        refine decide_eq_false ?_
        rwa [UInt64.le_iff_toNat_le]
      have hnil : heightsTo endHeight height = [] := by
        rw [heightsTo, Nat.sub_eq_zero_of_le (by omega)]
        rfl
      rw [hnil]
      refine ⟨answer.bc, answer.outcome, ?_, fun _ => rfl,
        fun hnot => absurd hnot.symm Bool.false_ne_true⟩
      rw [ForLoop.run_of_not_cond hcond, completeBatches, Stride.batches_nil (by decide),
        takeWhile_nil, map_nil, append_nil]
    case pos =>
      have hcond : (chainLoop C endHeight fuel).cond height answer = true := by
        refine decide_eq_true ?_
        rwa [UInt64.le_iff_toNat_le]
      have hne : heightsTo endHeight height ≠ [] := by
        rw [heightsTo, Ne, iterate_eq_nil]
        omega
      obtain ⟨bc', hsame', hall, hmissing⟩ := body_chainLoop hend hle hfuel hsame
      have hsplit : Complete C bc (heightsTo endHeight height) =
          (Complete C bc ((heightsTo endHeight height).take 10) &&
            Complete C bc (heightsTo endHeight (height + 10))) := by
        rw [← (heightsTo_take_drop hend hle).2, Complete, Complete, Complete, ← all_append,
          take_append_drop]
      rw [completeBatches, Stride.batches_of_ne_nil (by decide) hne,
        (heightsTo_take_drop hend hle).2, hsplit]
      cases hfirst : Complete C bc ((heightsTo endHeight height).take 10) with
      | false =>
        obtain ⟨m, hm, hnone, hbody⟩ := hmissing hfirst
        refine ⟨bc', _, ?_, fun h => absurd h Bool.false_ne_true,
          fun _ => ⟨m, mem_of_mem_take hm, hnone, rfl⟩⟩
        rw [ForLoop.run_of_stop hcond hbody, takeWhile_cons_of_neg (by simp [hfirst]),
          map_nil, append_nil]
      | true =>
        have hnext : (height + 10).toNat = height.toNat + 10 := toNat_add_ten hend hle
        obtain ⟨bc'', outcome, hrun, hdone, hfailed⟩ := @ih (n - 1) (by omega) (height + 10)
          { answer with
            bc := bc'
            batches := answer.batches ++
              [((heightsTo endHeight height).take 10).filterMap (bc.blockAt C)] }
          turns (by omega) hsame' (by omega)
        refine ⟨bc'', outcome, ?_, hdone, fun hnot => ?_⟩
        · rw [ForLoop.run_of_next hcond (hall hfirst), takeWhile_cons_of_pos hfirst, map_cons]
          refine hrun.trans ?_
          simp only [completeBatches, append_assoc, singleton_append]
        · obtain ⟨m, hm, hnone, houtcome⟩ := hfailed hnot
          rw [← (heightsTo_take_drop hend hle).2] at hm
          exact ⟨m, mem_of_mem_drop hm, hnone, houtcome⟩

end Loops

/-! ## What is sent -/

section Answer

variable {C : Crypto} {bc : Blockchain} {startHeight endHeight : UInt64}

lemma heightsTo_eq (hle : startHeight ≤ endHeight) (hend : endHeight.toNat < 2 ^ 63) :
    heightsTo endHeight (startHeight + 1) = Blockchain.heightsAfter startHeight endHeight := by
  rw [UInt64.le_iff_toNat_le] at hle
  have hnext : (startHeight + 1).toNat = startHeight.toNat + 1 := by
    rw [UInt64.toNat_add, UInt64.toNat_one]
    omega
  rw [heightsTo, Blockchain.heightsAfter, hnext, Nat.add_sub_add_right, ← range_map_iterate]
  refine map_congr_left fun k _ => ?_
  exact ForLoop.iterate_add_one _ k

/-- **What the function does**, if there is a latest block. -/
lemma sendChain_eq {latestBlock : Block} (hlatest : bc.getLatestBlock C = some latestBlock)
    (hle : startHeight ≤ endHeight) (hend : endHeight.toNat < 2 ^ 63) (stateHash : String)
    {fuel : ℕ} (hfuel : endHeight.toNat + 10 < fuel) :
    ∃ bc' outcome, sendChain C stateHash bc startHeight endHeight fuel = some
        { bc := bc'
          info := some { height := endHeight
                         lastBlockHash := latestBlock.getHash C
                         stateRoot := stateHash }
          batches := completeBatches C bc (Blockchain.heightsAfter startHeight endHeight)
          outcome := outcome } ∧
      (Complete C bc (Blockchain.heightsAfter startHeight endHeight) = true → outcome = .done) ∧
      (Complete C bc (Blockchain.heightsAfter startHeight endHeight) = false →
        ∃ m ∈ Blockchain.heightsAfter startHeight endHeight, bc.blockAt C m = none ∧
          outcome = .failed (missingBlock m)) := by
  rw [← heightsTo_eq hle hend]
  simp only [sendChain, hlatest]
  exact run_chainLoop hend (by omega) endHeight.toNat (by
    rw [UInt64.toNat_add, UInt64.toNat_one]
    rw [UInt64.le_iff_toNat_le] at hle
    omega) (fun _ => rfl) (by omega)

lemma toNat_getElem_heightsAfter (hend : endHeight.toNat < 2 ^ 63) {j : ℕ} {h : UInt64}
    (hj : (Blockchain.heightsAfter startHeight endHeight)[j]? = some h) :
    h.toNat = startHeight.toNat + 1 + j ∧ startHeight.toNat + 1 + j ≤ endHeight.toNat := by
  obtain ⟨hlt, hget⟩ := List.getElem?_eq_some_iff.mp hj
  rw [Blockchain.heightsAfter, length_map, length_range] at hlt
  simp only [Blockchain.heightsAfter, getElem_map, getElem_range] at hget
  rw [← hget, UInt64.toNat_add, UInt64.toNat_add, UInt64.toNat_one, UInt64.toNat_ofNat']
  omega

lemma mem_heightsAfter_iff (hend : endHeight.toNat < 2 ^ 63) {h : UInt64} :
    h ∈ Blockchain.heightsAfter startHeight endHeight ↔ startHeight < h ∧ h ≤ endHeight := by
  rw [UInt64.lt_iff_toNat_lt, UInt64.le_iff_toNat_le]
  constructor
  · intro hmem
    obtain ⟨j, hj⟩ := mem_iff_getElem?.mp hmem
    obtain ⟨hval, hle⟩ := toNat_getElem_heightsAfter hend hj
    omega
  · rintro ⟨hlt, hle⟩
    refine mem_map.mpr ⟨h.toNat - startHeight.toNat - 1, mem_range.mpr (by omega), ?_⟩
    rw [← UInt64.toNat_inj, UInt64.toNat_add, UInt64.toNat_add, UInt64.toNat_one,
      UInt64.toNat_ofNat']
    omega

lemma map_some_filterMap {heights : List UInt64} (h : Complete C bc heights = true) :
    (heights.filterMap (bc.blockAt C)).map some = heights.map (bc.blockAt C) := by
  induction heights with
  | nil => rfl
  | cons height heights ih =>
    rw [Complete, all_cons, Bool.and_eq_true] at h
    obtain ⟨block, hblock⟩ := Option.isSome_iff_exists.mp h.1
    rw [filterMap_cons_some hblock, map_cons, map_cons, ih h.2, hblock]

variable (C bc) in
/-- **The complete batches** are the first ones, each with the blocks of its heights. -/
lemma completeBatches_spec (heights : List UInt64) :
    (completeBatches C bc heights).flatten.map some =
        (heights.take (10 * (completeBatches C bc heights).length)).map (bc.blockAt C) ∧
      Complete C bc (heights.take (10 * (completeBatches C bc heights).length)) = true ∧
      (∀ batch ∈ completeBatches C bc heights, 1 ≤ batch.length ∧ batch.length ≤ 10) ∧
      (10 * (completeBatches C bc heights).length ≤ heights.length →
        ∀ batch ∈ completeBatches C bc heights, batch.length = 10) := by
  have hinit : (Stride.batches 10 heights).takeWhile (Complete C bc) <+:
      Stride.batches 10 heights := takeWhile_prefix _
  have hlength : (completeBatches C bc heights).length =
      ((Stride.batches 10 heights).takeWhile (Complete C bc)).length := length_map _
  have hflatten := Stride.flatten_of_prefix_batches hinit
  have hcomplete : ∀ part ∈ (Stride.batches 10 heights).takeWhile (Complete C bc),
      Complete C bc part = true := fun part hpart => mem_takeWhile_imp hpart
  have hall : Complete C bc (heights.take (10 * (completeBatches C bc heights).length)) = true := by
    rw [hlength, ← hflatten, Complete, all_flatten]
    exact all_eq_true.mpr hcomplete
  -- a batch has as many blocks as heights
  have hpart : ∀ batch ∈ completeBatches C bc heights,
      ∃ part ∈ (Stride.batches 10 heights).takeWhile (Complete C bc),
        batch.length = part.length := by
    intro batch hbatch
    obtain ⟨part, hpart, rfl⟩ := mem_map.mp hbatch
    have hmap := congrArg List.length (map_some_filterMap (hcomplete part hpart))
    rw [length_map, length_map] at hmap
    exact ⟨part, hpart, hmap⟩
  refine ⟨?_, hall, fun batch hbatch => ?_, fun hle batch hbatch => ?_⟩
  · rw [← map_some_filterMap hall, hlength, ← hflatten, completeBatches, filterMap_flatten]
  · obtain ⟨part, hmem, heq⟩ := hpart batch hbatch
    rw [heq]
    exact Stride.length_of_mem_batches (by decide) (hinit.mem hmem)
  · obtain ⟨part, hmem, heq⟩ := hpart batch hbatch
    rw [heq]
    exact Stride.length_of_mem_prefix_batches hinit (hlength ▸ hle) hmem

lemma flatten_completeBatches {heights : List UInt64} (h : Complete C bc heights = true) :
    (completeBatches C bc heights).flatten.map some = heights.map (bc.blockAt C) := by
  have hparts : ∀ part ∈ Stride.batches 10 heights, Complete C bc part = true := by
    rw [← Stride.flatten_batches (show 0 < 10 by decide) heights, Complete, all_flatten] at h
    exact all_eq_true.mp h
  rw [completeBatches, takeWhile_eq_self_iff.mpr hparts, ← map_some_filterMap h,
    ← filterMap_flatten, Stride.flatten_batches (by decide)]

end Answer

/-! ## The server -/

section Server

variable {C : Crypto} {bc : Blockchain}

lemma collectBatch_spec (heights : List UInt64) : ∀ {bc' : Blockchain}, SameLookups C bc bc' →
    SameLookups C bc (collectBatch C bc' heights).1 ∧ (collectBatch C bc' heights).2 =
        if Complete C bc heights then some (heights.filterMap (bc.blockAt C)) else none := by
  induction heights with
  | nil => exact fun h => ⟨h, rfl⟩
  | cons height heights ih =>
    intro bc' h
    have hblock : (bc'.getBlockByHeight C height).1 = bc.blockAt C height := h height
    have hafter := h.getBlockByHeight height
    have hcomplete : Complete C bc (height :: heights) =
        ((bc.blockAt C height).isSome && Complete C bc heights) := rfl
    rw [hcomplete]
    rcases hfound : bc'.getBlockByHeight C height with ⟨_ | block, bc''⟩
    case none =>
      rw [hfound] at hblock hafter
      simp only [collectBatch, hfound]
      refine ⟨hafter, ?_⟩
      rw [← hblock]
      rfl
    case some =>
      rw [hfound] at hblock hafter
      obtain ⟨hsame, hrest⟩ := ih hafter
      simp only [collectBatch, hfound]
      refine ⟨hsame, ?_⟩
      rw [hrest, ← hblock, Option.isSome_some, Bool.true_and, filterMap_cons_some hblock.symm]
      split_ifs <;> rfl

lemma snd_sendBatches (parts : List (List UInt64)) : ∀ {bc' : Blockchain}, SameLookups C bc bc' →
    (sendBatches C bc' parts).2 = (parts.takeWhile (Complete C bc)).map fun part =>
      .arr ((part.filterMap (bc.blockAt C)).map Block.marshalJSON) := by
  induction parts with
  | nil => exact fun _ => rfl
  | cons part parts ih =>
    intro bc' h
    obtain ⟨hsame, hbatch⟩ := collectBatch_spec part h
    rcases hcollect : collectBatch C bc' part with ⟨bc'', blocks⟩
    rw [hcollect] at hsame hbatch
    rw [takeWhile_cons]
    split_ifs at hbatch ⊢ with hcomplete
    · obtain rfl : blocks = _ := hbatch
      simp only [sendBatches, hcollect, map_cons, ih hsame]
    · obtain rfl : blocks = none := hbatch
      simp only [sendBatches, hcollect, map_nil]

def ChainAnswer.messages (answer : ChainAnswer) : List Json :=
  answer.info.toList.map ChainInfo.toJson ++
    answer.batches.map fun blocks => .arr (blocks.map Block.marshalJSON)

/-- **The loops write what the model of the server writes.** -/
theorem messages_sendChain (stateHash : String) {startHeight endHeight : UInt64}
    (hlatest : (bc.getLatestBlock C).isSome) (hle : startHeight ≤ endHeight)
    (hend : endHeight.toNat < 2 ^ 63) {fuel : ℕ} (hfuel : endHeight.toNat + 10 < fuel) :
    ∃ answer, sendChain C stateHash bc startHeight endHeight fuel = some answer ∧
      (sendChainToPeer C stateHash bc startHeight endHeight).2 = answer.messages := by
  obtain ⟨latestBlock, hlatest⟩ := Option.isSome_iff_exists.mp hlatest
  obtain ⟨bc', outcome, hsend, -⟩ := sendChain_eq hlatest hle hend stateHash hfuel
  refine ⟨_, hsend, ?_⟩
  simp only [sendChainToPeer, ChainAnswer.messages, hlatest, Option.map_some, Option.getD_some,
    Option.toList_some, map_singleton, singleton_append, completeBatches, map_map]
  rw [snd_sendBatches _ (show SameLookups C bc bc from fun _ => rfl)]
  rfl

end Server

/-- **The batches cover the range**: if no block is missing, they have one to ten blocks and are
together the blocks of the range; if one is missing, an error names a missing height, and batches of
ten blocks below it have been sent. Without a latest block the function panics. -/
theorem sendChain_covers (C : Crypto) (stateHash : String) (bc : Blockchain)
    (startHeight endHeight : UInt64) (hle : startHeight ≤ endHeight)
    (hend : endHeight.toNat < 2 ^ 63) (fuel : ℕ) (hfuel : endHeight.toNat + 10 < fuel) :
    (bc.getLatestBlock C = none → sendChain C stateHash bc startHeight endHeight fuel =
        some { bc := bc, outcome := .panicked }) ∧
    ((bc.getLatestBlock C).isSome →
      ∃ answer, sendChain C stateHash bc startHeight endHeight fuel = some answer ∧
        answer.info.isSome ∧
        ((∀ h, startHeight < h → h ≤ endHeight → (bc.blockAt C h).isSome) → answer.outcome = .done ∧
          (∀ batch ∈ answer.batches, 1 ≤ batch.length ∧ batch.length ≤ 10) ∧
          answer.batches.flatten.map some =
            (Blockchain.heightsAfter startHeight endHeight).map (bc.blockAt C)) ∧
        ((∃ h, startHeight < h ∧ h ≤ endHeight ∧ bc.blockAt C h = none) →
          (∃ h, startHeight < h ∧ h ≤ endHeight ∧ bc.blockAt C h = none ∧
            answer.outcome = .failed (missingBlock h)) ∧
          (∀ batch ∈ answer.batches, batch.length = 10) ∧
          answer.batches.flatten.map some = ((Blockchain.heightsAfter startHeight endHeight).take
            (10 * answer.batches.length)).map (bc.blockAt C) ∧
          ∀ h, startHeight < h → h ≤ endHeight → bc.blockAt C h = none →
            startHeight.toNat + 10 * answer.batches.length < h.toNat)) := by
  refine ⟨fun hnone => by simp only [sendChain, hnone], fun hlatest => ?_⟩
  obtain ⟨latestBlock, hlatest⟩ := Option.isSome_iff_exists.mp hlatest
  obtain ⟨bc', outcome, hsend, hdone, hfailed⟩ := sendChain_eq hlatest hle hend stateHash hfuel
  obtain ⟨hsent, hpresent, hsizes, hfull⟩ :=
    completeBatches_spec C bc (Blockchain.heightsAfter startHeight endHeight)
  refine ⟨_, hsend, rfl, fun hall => ?_, fun hmissing => ?_⟩
  · have hcomplete : Complete C bc (Blockchain.heightsAfter startHeight endHeight) = true := by
      refine all_eq_true.mpr fun h hmem => ?_
      obtain ⟨hlt, hle⟩ := (mem_heightsAfter_iff hend).mp hmem
      exact hall h hlt hle
    exact ⟨hdone hcomplete, hsizes, flatten_completeBatches hcomplete⟩
  · -- a missing height comes after all heights of the complete batches
    have hbeyond : ∀ h, startHeight < h → h ≤ endHeight → bc.blockAt C h = none →
        ∃ j, (Blockchain.heightsAfter startHeight endHeight)[j]? = some h ∧
          10 * (completeBatches C bc
            (Blockchain.heightsAfter startHeight endHeight)).length ≤ j := by
      intro h hlt hle hnone
      obtain ⟨j, hj⟩ := mem_iff_getElem?.mp ((mem_heightsAfter_iff hend).mpr ⟨hlt, hle⟩)
      refine ⟨j, hj, not_lt.mp fun hbefore => ?_⟩
      have hmem := mem_of_getElem? ((List.getElem?_take_of_lt hbefore).trans hj)
      have hsome := all_eq_true.mp hpresent h hmem
      rw [hnone] at hsome
      exact absurd hsome Bool.false_ne_true
    obtain ⟨h, hlt, hle, hnone⟩ := hmissing
    have hincomplete : Complete C bc (Blockchain.heightsAfter startHeight endHeight) = false := by
      refine Bool.eq_false_iff.mpr fun hall => ?_
      have hsome := all_eq_true.mp hall h ((mem_heightsAfter_iff hend).mpr ⟨hlt, hle⟩)
      rw [hnone] at hsome
      exact absurd hsome Bool.false_ne_true
    obtain ⟨m, hm, hmnone, houtcome⟩ := hfailed hincomplete
    obtain ⟨hmlt, hmle⟩ := (mem_heightsAfter_iff hend).mp hm
    refine ⟨⟨m, hmlt, hmle, hmnone, houtcome⟩, hfull ?_, hsent, fun h hlt hle hnone => ?_⟩
    · obtain ⟨j, hget, hj⟩ := hbeyond h hlt hle hnone
      exact hj.trans (List.getElem?_eq_some_iff.mp hget).1.le
    · obtain ⟨j, hget, hj⟩ := hbeyond h hlt hle hnone
      obtain ⟨hval, -⟩ := toNat_getElem_heightsAfter hend hget
      simp only
      omega

theorem sendChain_covers_second :
    let bc : Blockchain := { chain := [{}, { header := { blockNumber := 1 } }] }
    ((0 : UInt64) ≤ 1 ∧ (1 : UInt64).toNat < 2 ^ 63 ∧ (1 : UInt64).toNat + 10 < 12) ∧
      ∃ answer, sendChain Crypto.sample "state" bc 0 1 12 = some answer ∧ answer.outcome = .done ∧
        answer.batches.flatten.map some = [bc.blockAt Crypto.sample 1] := by
  intro bc
  obtain ⟨answer, hsend, -, hall, -⟩ := (sendChain_covers Crypto.sample "state" bc 0 1 (by decide)
    (by decide) 12 (by decide)).2 rfl
  obtain ⟨hdone, -, hflatten⟩ := hall (by
    intro h hlt hle
    obtain rfl : h = 1 := by
      rw [UInt64.lt_iff_toNat_lt] at hlt
      rw [UInt64.le_iff_toNat_le] at hle
      exact UInt64.toNat_inj.mp (le_antisymm hle hlt)
    rfl)
  exact ⟨by decide, answer, hsend, hdone, hflatten⟩

/-- **An empty blockchain**: its blocks are missing, and the function panics instead of returning an
error. -/
theorem sendChain_panics : Blockchain.blockAt Crypto.sample {} 1 = none ∧
      ∀ fuel, sendChain Crypto.sample "state" {} 0 1 fuel =
        some { bc := {}, outcome := .panicked } :=
  ⟨rfl, fun _ => rfl⟩

end SyncService

end HybridChain
