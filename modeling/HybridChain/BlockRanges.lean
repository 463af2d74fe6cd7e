import HybridChain.Lib.ForLoop
import HybridChain.NodeSync

/-!
# Range queries

`GetBlockRange` and `GetBlockHeaders` of `RPC/api/blockchain.go`. The length of a range is a
difference of `uint64` that is read as an `int`, and the loop goes on as long as the height is at
most the end.

The hashes that `GetBlockByHeight` fills in are seen by no later lookup
(`Blockchain.blockAt_getBlockByHeight`).

## Main definitions

* `queryRange`: both queries, with `cutEnd`, `maxBlocks` and `maxHeaders`
* `RangeQuery.Measured`: the length is read right and the loop ends

## Main results

* `rangeQueries_capped_iff`: just then the caps hold
-/

namespace HybridChain

open List
open Crypto (sample)

/-! ## The queries -/

structure RangeQuery where
  startHeight : UInt64 := 0
  endHeight : UInt64 := 0
  /-- `MaxBlocks` or `MaxHeaders`. -/
  maximum : ℤ := 0

variable {α : Type} (C : Crypto) (bc : Blockchain) (part : Block → α)

/-- The loop of both queries, which collects something of every block that is found. -/
def heightLoop (endHeight : UInt64) : ForLoop UInt64 (List α) where
  cond height _ := height ≤ endHeight
  body height found := some (.next height (found ++ ((bc.blockAt C height).map part).toList))
  post height := height + 1

/-- The end of a range, which is cut if its length exceeds the maximum. -/
def cutEnd (startHeight endHeight : UInt64) (maximum : ℤ) : UInt64 :=
  if int64 (endHeight - startHeight + 1).toNat > maximum then
    startHeight + UInt64.ofNat maximum.toNat - 1
  else endHeight

/-- The number of blocks that `GetBlockRange` returns at most. -/
def maxBlocks (maximum : ℤ) : ℤ :=
  if maximum ≤ 0 then 10 else if maximum > 100 then 100 else maximum

/-- The number of headers that `GetBlockHeaders` returns at most. -/
def maxHeaders (maximum : ℤ) : ℤ :=
  let maximum := if maximum ≤ 0 then 50 else maximum
  if maximum > 2000 then 2000 else maximum

/-- The loop of a query for a part of every block, with a maximum. -/
def queryLoop (query : RangeQuery) (maximum : ℤ) : ForLoop UInt64 (List α) :=
  heightLoop C bc part (cutEnd query.startHeight query.endHeight maximum)

def queryRange (query : RangeQuery) (maximum : ℤ) (fuel : ℕ) :
    Option (Except String (List α)) :=
  if query.endHeight < query.startHeight then
    some (.error "endHeight must be greater than or equal to startHeight")
  else ((queryLoop C bc part query maximum).run fuel query.startHeight []).map .ok

/-- The heights at which the body of its loop is entered. -/
def queryVisits (query : RangeQuery) (maximum : ℤ) (fuel : ℕ) : List UInt64 :=
  if query.endHeight < query.startHeight then []
  else (queryLoop C bc part query maximum).visits fuel query.startHeight []

/-- `GetBlockRange`, whose loop runs for at most `fuel` turns. -/
def getBlockRange (query : RangeQuery) (fuel : ℕ) : Option (Except String (List Block)) :=
  queryRange C bc id query (maxBlocks query.maximum) fuel

def getBlockRangeVisits (query : RangeQuery) (fuel : ℕ) : List UInt64 :=
  queryVisits C bc id query (maxBlocks query.maximum) fuel

/-- `GetBlockHeaders`, whose loop runs for at most `fuel` turns. -/
def getBlockHeaders (query : RangeQuery) (fuel : ℕ) :
    Option (Except String (List BlockHeader)) :=
  queryRange C bc Block.header query (maxHeaders query.maximum) fuel

def getBlockHeadersVisits (query : RangeQuery) (fuel : ℕ) : List UInt64 :=
  queryVisits C bc Block.header query (maxHeaders query.maximum) fuel

/-! ## The loop -/

section Loop

variable {startHeight endHeight : UInt64}

lemma run_heightLoop (hle : startHeight ≤ endHeight) (hend : endHeight.toNat + 1 < 2 ^ 64)
    (found : List α) {fuel : ℕ} (hfuel : endHeight.toNat - startHeight.toNat + 1 < fuel) :
    let heights := List.iterate (· + 1) startHeight (endHeight.toNat - startHeight.toNat + 1)
    (heightLoop C bc part endHeight).run fuel startHeight found =
        some (found ++ heights.flatMap fun height => ((bc.blockAt C height).map part).toList) ∧
      (heightLoop C bc part endHeight).visits fuel startHeight found = heights := by
  intro heights
  have hle := UInt64.le_iff_toNat_le.mp hle
  let state : ℕ → List α := fun k => found ++ (List.iterate (· + 1) startHeight k).flatMap
    fun height => ((bc.blockAt C height).map part).toList
  have hgoes : ∀ k < endHeight.toNat - startHeight.toNat + 1,
      (heightLoop C bc part endHeight).GoesOn ((· + 1)^[k] startHeight) (state k)
        (state (k + 1)) := by
    intro k hk
    have hcond : (· + 1)^[k] startHeight ≤ endHeight := by
      rw [UInt64.le_iff_toNat_le, ForLoop.toNat_iterate_add_one (by omega)]
      omega
    refine ⟨decide_eq_true hcond, ?_⟩
    have hiterate : List.iterate (· + 1) startHeight (k + 1) =
        List.iterate (· + 1) startHeight k ++ [(· + 1)^[k] startHeight] :=
      iterate_add _ _ k 1
    simp only [heightLoop, state, hiterate, flatMap_append, flatMap_singleton, append_assoc]
  have hexit : (heightLoop C bc part endHeight).cond
      ((· + 1)^[endHeight.toNat - startHeight.toNat + 1] startHeight)
      (state (endHeight.toNat - startHeight.toNat + 1)) = false := by
    refine decide_eq_false ?_
    rw [UInt64.le_iff_toNat_le, ForLoop.toNat_iterate_add_one (by omega)]
    omega
  have hstart : state 0 = found := append_nil found
  have hrun := ForLoop.run_of_exit state hgoes hexit hfuel
  rw [hstart] at hrun
  exact hrun

lemma not_returns_heightLoop (hend : endHeight.toNat + 1 = 2 ^ 64) (found : List α) :
    ¬ (heightLoop C bc part endHeight).Returns startHeight found := by
  refine ForLoop.not_returns_of_invariant (I := fun _ _ => True) (fun height found _ => ?_) trivial
  have hle : height ≤ endHeight := by
    have hlt := height.toNat_lt
    rw [UInt64.le_iff_toNat_le]
    omega
  exact ⟨decide_eq_true hle, _, _, rfl, trivial⟩

/-- **When the loop ends in time**: if it does not go up to the last height, and the range is not
longer than the cap. -/
lemma heightLoop_capped_iff (hle : startHeight ≤ endHeight) (found : List α) (cap : ℕ) :
    (∃ fuel r, (heightLoop C bc part endHeight).run fuel startHeight found = some r ∧
        ((heightLoop C bc part endHeight).visits fuel startHeight found).length ≤ cap) ↔
      endHeight.toNat + 1 < 2 ^ 64 ∧ endHeight.toNat - startHeight.toNat + 1 ≤ cap := by
  have hlt := endHeight.toNat_lt
  constructor
  · rintro ⟨fuel, r, hrun, hvisits⟩
    have hend : endHeight.toNat + 1 < 2 ^ 64 := by
      by_contra hlast
      exact not_returns_heightLoop C bc part (by omega) found ⟨fuel, r, hrun⟩
    refine ⟨hend, ?_⟩
    let enough := fuel + (endHeight.toNat - startHeight.toNat + 2)
    have hsame := ForLoop.visits_eq_of_run hrun (Nat.le_add_right fuel _ : fuel ≤ enough)
    obtain ⟨-, hall⟩ := run_heightLoop C bc part hle hend found
      (show endHeight.toNat - startHeight.toNat + 1 < enough by omega)
    rwa [← hsame, hall, length_iterate] at hvisits
  · rintro ⟨hend, hcap⟩
    obtain ⟨hrun, hvisits⟩ := run_heightLoop C bc part hle hend found (Nat.lt_succ_self _)
    refine ⟨_, _, hrun, ?_⟩
    rwa [hvisits, length_iterate]

end Loop

/-! ## The cut -/

section Cut

variable {startHeight endHeight : UInt64} {maximum : ℤ}

lemma int64_length (hle : startHeight ≤ endHeight) : int64 (endHeight - startHeight + 1).toNat =
      if endHeight.toNat - startHeight.toNat + 1 < 2 ^ 63 then
        ((endHeight.toNat - startHeight.toNat + 1 : ℕ) : ℤ)
      else ((endHeight.toNat - startHeight.toNat + 1 : ℕ) : ℤ) - 2 ^ 64 := by
  have hlt := endHeight.toNat_lt
  have hnat := UInt64.le_iff_toNat_le.mp hle
  rw [UInt64.toNat_add, UInt64.toNat_sub_of_le _ _ hle, UInt64.toNat_one, int64]
  split_ifs with hshort
  · rw [Nat.mod_eq_of_lt (by omega)]
    exact Int.bmod_eq_of_le (by omega) (by omega)
  · rw [Int.bmod_def]
    omega

lemma cutEnd_eq (hle : startHeight ≤ endHeight) (hpos : 0 < maximum) (hmax : maximum < 2 ^ 63) :
    (cutEnd startHeight endHeight maximum).toNat =
      if endHeight.toNat - startHeight.toNat + 1 < 2 ^ 63 ∧
          maximum < (endHeight.toNat - startHeight.toNat + 1 : ℕ) then
        startHeight.toNat + (maximum.toNat - 1)
      else endHeight.toNat := by
  have hlt := endHeight.toNat_lt
  have hnat := UInt64.le_iff_toNat_le.mp hle
  obtain ⟨n, rfl⟩ := Int.eq_ofNat_of_zero_le hpos.le
  have hword : (UInt64.ofNat n).toNat = n := UInt64.toNat_ofNat_of_lt' (by rw [UInt64.size]; omega)
  have hcut : n < endHeight.toNat - startHeight.toNat + 1 →
      (startHeight + UInt64.ofNat n - 1).toNat = startHeight.toNat + (n - 1) := by
    intro hlong
    rw [UInt64.toNat_sub, UInt64.toNat_add, hword, UInt64.toNat_one]
    omega
  rw [cutEnd, int64_length hle, Int.toNat_natCast]
  by_cases hshort : endHeight.toNat - startHeight.toNat + 1 < 2 ^ 63
  · rw [if_pos hshort]
    by_cases hlong : n < endHeight.toNat - startHeight.toNat + 1
    · rw [if_pos (by omega), if_pos (by omega), hcut hlong]
    · rw [if_neg (by omega), if_neg (by omega)]
  · rw [if_neg hshort, if_neg (by omega), if_neg (by omega)]

lemma le_cutEnd (hle : startHeight ≤ endHeight) (hpos : 0 < maximum) (hmax : maximum < 2 ^ 63) :
    startHeight ≤ cutEnd startHeight endHeight maximum := by
  have hnat := UInt64.le_iff_toNat_le.mp hle
  rw [UInt64.le_iff_toNat_le, cutEnd_eq hle hpos hmax]
  split_ifs <;> omega

end Cut

/-! ## The caps -/

/-- A range that is empty, or whose length is below `2 ^ 63` and that, if it is not longer than the
cap, does not go up to the last height. -/
def RangeQuery.Measured (query : RangeQuery) (cap : ℤ) : Prop :=
  query.endHeight < query.startHeight ∨
    query.endHeight.toNat - query.startHeight.toNat + 1 < 2 ^ 63 ∧
      (cap < (query.endHeight.toNat - query.startHeight.toNat + 1 : ℕ) ∨
        query.endHeight.toNat + 1 < 2 ^ 64)

variable {maximum : ℤ}

/-- **When a query keeps its cap.** -/
lemma queryRange_capped_iff {α : Type} (C : Crypto) (bc : Blockchain) (part : Block → α)
    (query : RangeQuery) (hpos : 0 < maximum) (hmax : maximum < 2 ^ 63) :
    (∃ fuel answer, queryRange C bc part query maximum fuel = some answer ∧
      ((queryVisits C bc part query maximum fuel).length : ℤ) ≤ maximum) ↔
        query.Measured maximum := by
  by_cases hempty : query.endHeight < query.startHeight
  case pos =>
    refine iff_of_true ⟨0, _, if_pos hempty, ?_⟩ (Or.inl hempty)
    rw [queryVisits, if_pos hempty]
    exact hpos.le
  case neg =>
    have hle : query.startHeight ≤ query.endHeight := UInt64.not_lt.mp hempty
    have hlt := query.endHeight.toNat_lt
    have hnat := UInt64.le_iff_toNat_le.mp hle
    obtain ⟨n, rfl⟩ := Int.eq_ofNat_of_zero_le hpos.le
    have hloop := heightLoop_capped_iff C bc part (le_cutEnd hle hpos hmax) [] n
    have hquery : (∃ fuel answer, queryRange C bc part query n fuel = some answer ∧
        ((queryVisits C bc part query n fuel).length : ℤ) ≤ n) ↔
        ∃ fuel r, (queryLoop C bc part query n).run fuel query.startHeight [] = some r ∧
          ((queryLoop C bc part query n).visits fuel query.startHeight []).length ≤ n := by
      simp only [queryRange, queryVisits, if_neg hempty, Option.map_eq_some_iff, Nat.cast_le]
      constructor
      · rintro ⟨fuel, answer, ⟨r, hrun, -⟩, hvisits⟩
        exact ⟨fuel, r, hrun, hvisits⟩
      · rintro ⟨fuel, r, hrun, hvisits⟩
        exact ⟨fuel, _, ⟨r, hrun, rfl⟩, hvisits⟩
    rw [hquery]
    refine hloop.trans ?_
    rw [RangeQuery.Measured, or_iff_right hempty, cutEnd_eq hle hpos hmax]
    split_ifs with hcut
    · rw [Int.toNat_natCast]
      omega
    · omega

lemma queryRange_eq_none {α : Type} (C : Crypto) (bc : Blockchain) (part : Block → α)
    {query : RangeQuery} (hle : query.startHeight ≤ query.endHeight)
    (hend : (cutEnd query.startHeight query.endHeight maximum).toNat + 1 = 2 ^ 64) (fuel : ℕ) :
    queryRange C bc part query maximum fuel = none := by
  rw [queryRange, if_neg (UInt64.not_lt.mpr hle), Option.map_eq_none_iff,
    Option.eq_none_iff_forall_ne_some]
  intro r hrun
  exact not_returns_heightLoop C bc part hend [] ⟨fuel, r, hrun⟩

lemma exists_queryRange {α : Type} (C : Crypto) (bc : Blockchain) (part : Block → α)
    (query : RangeQuery) {last : UInt64} (hle : query.startHeight ≤ query.endHeight)
    (hcut : cutEnd query.startHeight query.endHeight maximum = last)
    (hlast : query.startHeight ≤ last) (hend : last.toNat + 1 < 2 ^ 64) :
    ∃ fuel answer, queryRange C bc part query maximum fuel = some answer ∧
      (queryVisits C bc part query maximum fuel).length =
        last.toNat - query.startHeight.toNat + 1 := by
  obtain ⟨fuel, hfuel⟩ : ∃ fuel, last.toNat - query.startHeight.toNat + 1 < fuel :=
    ⟨_, Nat.lt_succ_self _⟩
  obtain ⟨hrun, hvisits⟩ := run_heightLoop C bc part hlast hend [] hfuel
  have hempty : ¬ query.endHeight < query.startHeight := UInt64.not_lt.mpr hle
  refine ⟨fuel, ?_⟩
  rw [queryRange, queryVisits, if_neg hempty, if_neg hempty, queryLoop, hcut, hrun, hvisits,
    length_iterate]
  exact ⟨_, rfl, rfl⟩

/-- **When both queries keep their caps**: if the range is empty, or if its length is below `2 ^ 63`
and the range, unless it is cut, does not go up to the last height. -/
theorem rangeQueries_capped_iff (C : Crypto) (bc : Blockchain) (query : RangeQuery) :
    ((∃ fuel answer, getBlockRange C bc query fuel = some answer ∧
        ((getBlockRangeVisits C bc query fuel).length : ℤ) ≤
          if 0 < query.maximum then min query.maximum 100 else 10) ↔
      query.Measured (if 0 < query.maximum then min query.maximum 100 else 10)) ∧
    ((∃ fuel answer, getBlockHeaders C bc query fuel = some answer ∧
        ((getBlockHeadersVisits C bc query fuel).length : ℤ) ≤
          if 0 < query.maximum then min query.maximum 2000 else 50) ↔
      query.Measured (if 0 < query.maximum then min query.maximum 2000 else 50)) := by
  have hblocks : maxBlocks query.maximum =
      if 0 < query.maximum then min query.maximum 100 else 10 := by
    unfold maxBlocks
    split_ifs <;> omega
  have hheaders : maxHeaders query.maximum =
      if 0 < query.maximum then min query.maximum 2000 else 50 := by
    simp only [maxHeaders]
    split_ifs <;> omega
  rw [← hblocks, ← hheaders]
  constructor
  · refine queryRange_capped_iff C bc id query ?_ ?_
    · rw [hblocks]
      split_ifs <;> omega
    · rw [hblocks]
      split_ifs <;> omega
  · refine queryRange_capped_iff C bc Block.header query ?_ ?_
    · rw [hheaders]
      split_ifs <;> omega
    · rw [hheaders]
      split_ifs <;> omega

/-- The whole range, for which neither query ends, although each has a cap; the range of the last
height alone; and a range that is not cut although it is longer than `2 ^ 63`. -/
theorem rangeQueries_exceed :
    (∀ fuel, getBlockRange sample {} { endHeight := 18446744073709551615 } fuel = none) ∧
      (∀ fuel, getBlockHeaders sample {} { endHeight := 18446744073709551615 } fuel = none) ∧
      (∀ fuel, getBlockRange sample {}
        { startHeight := 18446744073709551615, endHeight := 18446744073709551615 } fuel = none) ∧
      ∃ fuel answer,
        getBlockRange sample {} { endHeight := 9223372036854775808 } fuel = some answer ∧
        (getBlockRangeVisits sample {} { endHeight := 9223372036854775808 } fuel).length =
          9223372036854775809 := by
  refine ⟨?_, ?_, ?_, ?_⟩
  iterate 3 exact queryRange_eq_none _ _ _ (by decide) (by decide +kernel)
  · have huncut : cutEnd 0 9223372036854775808 (maxBlocks 0) = 9223372036854775808 := by
      decide +kernel
    have hlength : (9223372036854775808 : UInt64).toNat - (0 : UInt64).toNat + 1 =
        9223372036854775809 := by decide
    obtain ⟨fuel, answer, hquery, hvisits⟩ := exists_queryRange sample {} id
      { endHeight := 9223372036854775808 } (by decide) huncut (by decide) (by decide)
    exact ⟨fuel, answer, hquery, hvisits.trans hlength⟩

end HybridChain
