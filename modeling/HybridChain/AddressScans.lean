import HybridChain.Lib.ForLoop
import HybridChain.NodeSync
import HybridChain.SendTransaction

/-!
# Scans for an address

`SearchByAddress` and `GetFullTransactionHistory` of `RPC/api/transaction.go` go down the heights of
the chain, which are of type `uint64`, and collect the transactions of an address. The first goes on
while the height is at least zero; the second leaves its loop by setting the height to zero, from
which the loop goes one further down.

What follows the scan of `SearchByAddress` and the sort of `GetFullTransactionHistory` are left out.
A block without a body is one without transactions. The hashes that `GetBlockByHeight` fills in are
seen by no later lookup (`Blockchain.blockAt_getBlockByHeight`).

## Main definitions

* `searchByAddress`, `getFullTransactionHistory`, and the heights they visit
* `SearchStops`, `FitsIn`: what makes the scans end

## Main results

* `addressScans_good_iff`: when they end and visit no height twice
-/

namespace HybridChain

open List Option
open Crypto (sample)

/-! ## The functions -/

def Transaction.involves (tx : Transaction) (address : String) : Bool :=
  tx.sender == address || tx.receiver == address

/-- The `type` of an entry. -/
inductive Direction where
  | send
  | receive
  deriving DecidableEq

def Transaction.direction (tx : Transaction) (address : String) : Direction :=
  if address = tx.sender then .send else .receive

inductive ScanOutcome (α : Type) where
  | rejected (err : String)
  | panicked
  | scanned (entries : List α)

/-- An entry of `SearchByAddress`. -/
structure SearchEntry where
  txid : String
  blockHeight : UInt64
  blockHash : String
  timestamp : ℤ
  sender : String
  receiver : String
  amount : ℚ
  fee : ℚ
  direction : Direction

/-- The parameters of `SearchByAddress`. -/
structure SearchRequest where
  address : String := ""
  limit : ℤ := 0
  offset : ℤ := 0

section Search

variable (C : Crypto) (bc : Blockchain)

def searchEntries (address : String) (block : Block) : List SearchEntry :=
  (block.transactions.filter fun tx => tx.involves address).map fun tx =>
    { txid := tx.transactionID
      blockHeight := block.header.blockNumber
      blockHash := block.getHash C
      timestamp := block.header.timestamp
      sender := tx.sender
      receiver := tx.receiver
      amount := tx.amount
      fee := tx.gasFee
      direction := tx.direction address }

/-- The loop of `SearchByAddress` over the heights. -/
def searchLoop (address : String) (enough : ℤ) (heightStart : UInt64) :
    ForLoop UInt64 (List SearchEntry) where
  cond height _ := height ≥ heightStart
  body height transactions :=
    match bc.blockAt C height with
    | none => some (.next height transactions)
    | some block =>
      let transactions := transactions ++ searchEntries C address block
      if (transactions.length : ℤ) ≥ enough then some (.stop transactions)
      else some (.next height transactions)
  post height := height - 1

def searchLimit (limit : ℤ) : ℤ :=
  let limit := if limit ≤ 0 then 10 else limit
  if limit > 100 then 100 else limit

/-- The number of transactions after which the scan stops. -/
def SearchRequest.enough (request : SearchRequest) : ℤ :=
  int64 (searchLimit request.limit + request.offset)

/-- The height at which the scan stops. -/
def searchStart (latest : UInt64) : UInt64 := if latest > 5000 then latest - 5000 else 0

def SearchRequest.check (request : SearchRequest) : Option String :=
  if request.address = "" then some "address is required"
  else if ¬ validateAddress C request.address then some "invalid address format"
  else none

/-- `SearchByAddress` up to the end of its scan, which takes at most `fuel` turns. An empty chain
has no header to read the height from. -/
def searchByAddress (request : SearchRequest) (fuel : ℕ) : Option (ScanOutcome SearchEntry) :=
  match request.check C with
  | some err => some (.rejected err)
  | none =>
    match bc.getLatestBlock C with
    | none => some .panicked
    | some latestBlock =>
      let latest := latestBlock.header.blockNumber
      ((searchLoop C bc request.address request.enough (searchStart latest)).run fuel latest []).map
        .scanned

def searchByAddressVisits (request : SearchRequest) (fuel : ℕ) : List UInt64 :=
  match request.check C, bc.getLatestBlock C with
  | none, some latestBlock =>
    let latest := latestBlock.header.blockNumber
    (searchLoop C bc request.address request.enough (searchStart latest)).visits fuel latest []
  | _, _ => []

end Search

/-- Where a confirmed transaction is. -/
structure BlockPlace where
  blockHeight : UInt64
  blockHash : String

/-- An entry of `GetFullTransactionHistory`; a pending transaction is in no block. -/
structure FullEntry where
  txid : String
  sender : String
  receiver : String
  amount : ℚ
  timestamp : ℤ
  confirmations : UInt64
  fee : ℚ
  direction : Direction
  place : Option BlockPlace

/-- The parameters of `GetFullTransactionHistory`. -/
structure FullRequest where
  address : String := ""
  maxResults : ℤ := 0

section Full

variable (C : Crypto) (bc : Blockchain)

def Transaction.fullEntry (tx : Transaction) (address : String) (confirmations : UInt64)
    (place : Option BlockPlace) : FullEntry where
  txid := tx.transactionID
  sender := tx.sender
  receiver := tx.receiver
  amount := tx.amount
  timestamp := tx.timestamp
  confirmations := confirmations
  fee := tx.gasFee
  direction := tx.direction address
  place := place

def pendingEntries (mempool : Option Mempool) (address : String) : List FullEntry :=
  match mempool with
  | none => []
  | some mempool =>
    (mempool.transactions.filter fun tx => tx.involves address).map fun tx =>
      tx.fullEntry address 0 none

/-- The confirmed entries of a block at a height. -/
def confirmedEntries (address : String) (height i : UInt64) (block : Block) : List FullEntry :=
  (block.transactions.filter fun tx => tx.involves address).map fun tx =>
    tx.fullEntry address (height - i + 1) (some ⟨block.header.blockNumber, block.getHash C⟩)

/-- The loop over the transactions of a block, and whether the maximum is reached. -/
def addEntries (maxResults : ℤ) : List FullEntry → List FullEntry → List FullEntry × Bool
  | [], history => (history, false)
  | entry :: entries, history =>
    let history := history ++ [entry]
    if (history.length : ℤ) ≥ maxResults then (history, true)
    else addEntries maxResults entries history

/-- The loop of `GetFullTransactionHistory` over the heights. At the maximum the height is set to
zero. -/
def fullLoop (address : String) (maxResults : ℤ) (height : UInt64) :
    ForLoop UInt64 (List FullEntry) where
  cond i _ := i ≥ 1
  body i history :=
    match bc.blockAt C i with
    | none => some (.next i history)
    | some block =>
      match addEntries maxResults (confirmedEntries C address height i block) history with
      | (history, true) => some (.next 0 history)
      | (history, false) => some (.next i history)
  post i := i - 1

def fullMaximum (maxResults : ℤ) : ℤ := if maxResults ≤ 0 then 1000000 else maxResults

/-- `GetFullTransactionHistory` before its sort, with a scan of at most `fuel` turns. -/
def getFullTransactionHistory (mempool : Option Mempool) (request : FullRequest) (fuel : ℕ) :
    Option (ScanOutcome FullEntry) :=
  if ¬ validateAddress C request.address then some (.rejected "invalid address format")
  else
    ((fullLoop C bc request.address (fullMaximum request.maxResults) bc.getHeight).run fuel
      bc.getHeight (pendingEntries mempool request.address)).map .scanned

def getFullTransactionHistoryVisits (mempool : Option Mempool) (request : FullRequest)
    (fuel : ℕ) : List UInt64 :=
  if ¬ validateAddress C request.address then []
  else
    (fullLoop C bc request.address (fullMaximum request.maxResults) bc.getHeight).visits fuel
      bc.getHeight (pendingEntries mempool request.address)

/-- What it holds after at most `fuel` turns of its scan. -/
def getFullTransactionHistoryAfter (mempool : Option Mempool) (request : FullRequest)
    (fuel : ℕ) : List FullEntry :=
  if ¬ validateAddress C request.address then []
  else
    (fullLoop C bc request.address (fullMaximum request.maxResults) bc.getHeight).after fuel
      bc.getHeight (pendingEntries mempool request.address)

end Full

/-! ## The first scan -/

section Search

variable (C : Crypto) (bc : Blockchain) (address : String)

def entriesAt (height : UInt64) : List SearchEntry :=
  (bc.blockAt C height).elim [] (searchEntries C address)

/-- The entries at the first `k` heights of a scan, which goes down and may come round. -/
def scannedEntries (latest : UInt64) (k : ℕ) : List SearchEntry :=
  (List.iterate (· - 1) latest k).flatMap (entriesAt C bc address)

/-- There is a block at the height `k` below the latest one, and enough has been found there. -/
def SearchStops (enough : ℤ) (latest : UInt64) (k : ℕ) : Prop :=
  (bc.blockAt C ((· - 1)^[k] latest)).isSome ∧
    enough ≤ (scannedEntries C bc address latest (k + 1)).length

@[simp] lemma scannedEntries_zero (latest : UInt64) : scannedEntries C bc address latest 0 = [] :=
  rfl

lemma scannedEntries_succ (latest : UInt64) (k : ℕ) : scannedEntries C bc address latest (k + 1) =
      scannedEntries C bc address latest k ++ entriesAt C bc address ((· - 1)^[k] latest) := by
  have hiterate : List.iterate (· - 1) latest (k + 1) =
      List.iterate (· - 1) latest k ++ [(· - 1)^[k] latest] := iterate_add _ _ k 1
  rw [scannedEntries, hiterate, flatMap_append, flatMap_singleton]
  rfl

variable {C bc address} {enough : ℤ} {latest heightStart : UInt64}

open Classical in
lemma body_searchLoop (k : ℕ) : (searchLoop C bc address enough heightStart).body
      ((· - 1)^[k] latest) (scannedEntries C bc address latest k) =
    some (if SearchStops C bc address enough latest k then
      .stop (scannedEntries C bc address latest (k + 1))
    else .next ((· - 1)^[k] latest) (scannedEntries C bc address latest (k + 1))) := by
  simp only [SearchStops, scannedEntries_succ, searchLoop, entriesAt]
  cases bc.blockAt C ((· - 1)^[k] latest) with
  | none => simp
  | some block =>
    simp only [isSome_some, elim_some, true_and]
    split_ifs <;> rfl

lemma goesOn_searchLoop {n : ℕ} (hcond : ∀ k < n, heightStart ≤ (· - 1)^[k] latest)
    (hstops : ∀ k < n, ¬ SearchStops C bc address enough latest k) :
    ∀ k < n, (searchLoop C bc address enough heightStart).GoesOn ((· - 1)^[k] latest)
      (scannedEntries C bc address latest k) (scannedEntries C bc address latest (k + 1)) :=
  fun k hk => ⟨decide_eq_true (hcond k hk), by rw [body_searchLoop, if_neg (hstops k hk)]⟩

lemma searchLoop_of_stops {n : ℕ} (hn : n ≤ 2 ^ 64)
    (hcond : ∀ k < n, heightStart ≤ (· - 1)^[k] latest)
    (hstops : ∃ k < n, SearchStops C bc address enough latest k) :
    (searchLoop C bc address enough heightStart).Returns latest [] ∧
      ∀ fuel, ((searchLoop C bc address enough heightStart).visits fuel latest []).Nodup := by
  classical
  -- the first turn that stops it
  let k := Nat.find hstops
  obtain ⟨hk, hstop⟩ : k < n ∧ SearchStops C bc address enough latest k := Nat.find_spec hstops
  have hfirst : ∀ j < k, ¬ SearchStops C bc address enough latest j := fun j hj hstop =>
    Nat.find_min hstops hj ⟨hj.trans hk, hstop⟩
  obtain ⟨hrun, hvisits⟩ := ForLoop.run_of_leave (scannedEntries C bc address latest)
    (goesOn_searchLoop (fun j hj => hcond j (hj.trans hk)) hfirst)
    (decide_eq_true (hcond k hk)) ((body_searchLoop k).trans (by rw [if_pos hstop]))
    (Nat.lt_succ_self k)
  rw [scannedEntries_zero] at hrun hvisits
  refine ⟨⟨_, _, hrun⟩, ForLoop.nodup_visits_of_run hrun ?_⟩
  rw [hvisits]
  exact ForLoop.nodup_iterate_sub_one latest (by omega)

lemma searchLoop_of_pos (hpos : 0 < heightStart) (hle : heightStart ≤ latest) :
    (searchLoop C bc address enough heightStart).Returns latest [] ∧
      ∀ fuel, ((searchLoop C bc address enough heightStart).visits fuel latest []).Nodup := by
  have hlt := latest.toNat_lt
  have hpos := UInt64.lt_iff_toNat_lt.mp hpos
  have hle := UInt64.le_iff_toNat_le.mp hle
  rw [UInt64.toNat_zero] at hpos
  obtain ⟨n, hn⟩ : ∃ n, n = latest.toNat - heightStart.toNat + 1 := ⟨_, rfl⟩
  have hcond : ∀ k < n, heightStart ≤ (· - 1)^[k] latest := by
    intro k hk
    rw [UInt64.le_iff_toNat_le, ForLoop.toNat_iterate_sub_one (by omega)]
    omega
  by_cases hstops : ∃ k < n, SearchStops C bc address enough latest k
  case pos => exact searchLoop_of_stops (by omega) hcond hstops
  case neg =>
    push Not at hstops
    have hexit : (searchLoop C bc address enough heightStart).cond ((· - 1)^[n] latest)
        (scannedEntries C bc address latest n) = false := by
      refine decide_eq_false ?_
      rw [ge_iff_le, UInt64.le_iff_toNat_le, ForLoop.toNat_iterate_sub_one (by omega)]
      omega
    obtain ⟨hrun, hvisits⟩ := ForLoop.run_of_exit (scannedEntries C bc address latest)
      (goesOn_searchLoop hcond hstops) hexit (Nat.lt_succ_self n)
    rw [scannedEntries_zero] at hrun hvisits
    refine ⟨⟨_, _, hrun⟩, ForLoop.nodup_visits_of_run hrun ?_⟩
    rw [hvisits]
    exact ForLoop.nodup_iterate_sub_one latest (by omega)

lemma not_nodup_searchLoop (hstops : ∀ k < 2 ^ 64, ¬ SearchStops C bc address enough latest k) :
    ∃ fuel, ¬ ((searchLoop C bc address enough 0).visits fuel latest []).Nodup := by
  obtain ⟨n, hn⟩ : ∃ n, n = 2 ^ 64 := ⟨_, rfl⟩
  rw [← hn] at hstops
  have hround : (· - 1)^[n] latest = latest := by
    have hlt := latest.toNat_lt
    rw [ForLoop.iterate_sub_one, ← UInt64.toNat_inj, UInt64.toNat_sub, UInt64.toNat_ofNat', hn]
    omega
  have hvisits := ForLoop.visits_turns (scannedEntries C bc address latest)
    (goesOn_searchLoop (fun k _ => UInt64.zero_le) hstops) 1
  rw [scannedEntries_zero] at hvisits
  refine ⟨n + 1, ?_⟩
  have hcond : (searchLoop C bc address enough 0).cond latest
      (scannedEntries C bc address latest n) = true :=
    decide_eq_true (show (0 : UInt64) ≤ latest from UInt64.zero_le)
  have hnext : latest ∈ (searchLoop C bc address enough 0).visits 1
      ((searchLoop C bc address enough 0).post^[n] latest)
      (scannedEntries C bc address latest n) := by
    rw [show (searchLoop C bc address enough 0).post^[n] latest = latest from hround,
      ForLoop.visits, if_pos hcond]
    exact mem_cons_self
  have hfirst : latest ∈ List.iterate (· - 1) latest n :=
    mem_iterate.mpr ⟨0, by omega, rfl⟩
  intro hnodup
  rw [hvisits] at hnodup
  exact disjoint_of_nodup_append hnodup hfirst hnext

/-- **When the first scan is good**: it ends, and comes to no height twice, exactly if it scans the
last 5000 blocks only, or if enough is found before the heights come round. -/
lemma searchLoop_good_iff :
    ((searchLoop C bc address enough (searchStart latest)).Returns latest [] ∧
        ∀ fuel, ((searchLoop C bc address enough (searchStart latest)).visits fuel latest
          []).Nodup) ↔
      5000 < latest ∨ ∃ k < 2 ^ 64, SearchStops C bc address enough latest k := by
  by_cases hlong : 5000 < latest
  case pos =>
    refine iff_of_true ?_ (Or.inl hlong)
    have hnat := UInt64.lt_iff_toNat_lt.mp hlong
    have hfive : (5000 : UInt64).toNat = 5000 := rfl
    have hsub := UInt64.toNat_sub_of_le latest 5000 (UInt64.le_of_lt hlong)
    rw [hfive] at hnat hsub
    rw [searchStart, if_pos hlong]
    refine searchLoop_of_pos ?_ ?_
    · rw [UInt64.lt_iff_toNat_lt, hsub, UInt64.toNat_zero]
      omega
    · rw [UInt64.le_iff_toNat_le, hsub]
      omega
  case neg =>
    rw [searchStart, if_neg hlong, or_iff_right hlong]
    constructor
    · rintro ⟨-, hnodup⟩
      by_contra hstops
      push Not at hstops
      obtain ⟨fuel, hrepeats⟩ := not_nodup_searchLoop hstops
      exact hrepeats (hnodup fuel)
    · intro hstops
      exact searchLoop_of_stops le_rfl (fun k _ => UInt64.zero_le) hstops

end Search

/-! ## The second scan -/

section Full

variable (C : Crypto) (bc : Blockchain) (address : String) (height : UInt64)

/-- The confirmed entries at the height `i`. -/
def confirmedAt (i : UInt64) : List FullEntry :=
  (bc.blockAt C i).elim [] (confirmedEntries C address height i)

/-- The confirmed entries at the heights `n`, `n - 1` and so on down to one. -/
def confirmedUpTo : ℕ → List FullEntry
  | 0 => []
  | n + 1 => confirmedAt C bc address height (UInt64.ofNat (n + 1)) ++ confirmedUpTo n

/-- Adding the entries to a history does not reach the maximum. -/
def FitsIn (maxResults : ℤ) (history entries : List FullEntry) : Prop :=
  entries = [] ∨ ((history ++ entries).length : ℤ) < maxResults

variable {C bc address height} {maxResults : ℤ} {history entries later : List FullEntry}

lemma fitsIn_append_iff : FitsIn maxResults history (entries ++ later) ↔
      FitsIn maxResults history entries ∧ FitsIn maxResults (history ++ entries) later := by
  simp only [FitsIn, length_append, Nat.cast_add, append_eq_nil_iff]
  constructor
  · rintro (⟨rfl, rfl⟩ | hlt)
    · exact ⟨Or.inl rfl, Or.inl rfl⟩
    · exact ⟨Or.inr (by omega), Or.inr (by omega)⟩
  · rintro ⟨hentries, rfl | hlt⟩
    · refine hentries.imp (fun h => ⟨h, rfl⟩) (fun h => ?_)
      rw [length_nil]
      omega
    · exact Or.inr (by omega)

lemma addEntries_of_fitsIn (h : FitsIn maxResults history entries) :
    addEntries maxResults entries history = (history ++ entries, false) := by
  induction entries generalizing history with
  | nil => rw [addEntries, append_nil]
  | cons entry entries ih =>
    obtain ⟨hhead, htail⟩ := fitsIn_append_iff.mp (singleton_append ▸ h)
    have hlt := hhead.resolve_left (cons_ne_nil _ _)
    rw [addEntries, if_neg (by omega), ih htail, append_assoc, singleton_append]

lemma addEntries_of_not_fitsIn (h : ¬ FitsIn maxResults history entries) :
    ∃ full, addEntries maxResults entries history = (full, true) ∧ maxResults ≤ full.length := by
  induction entries generalizing history with
  | nil => exact absurd (Or.inl rfl) h
  | cons entry entries ih =>
    rw [addEntries]
    by_cases hreached : maxResults ≤ ((history ++ [entry]).length : ℤ)
    case pos =>
      rw [if_pos hreached]
      exact ⟨_, rfl, hreached⟩
    case neg =>
      rw [if_neg hreached]
      refine ih fun htail => h ?_
      rw [← singleton_append]
      exact fitsIn_append_iff.mpr ⟨Or.inr (by omega), htail⟩

variable {i : UInt64} {n : ℕ}

lemma body_fullLoop_of_fitsIn (h : FitsIn maxResults history (confirmedAt C bc address height i)) :
    (fullLoop C bc address maxResults height).body i history =
      some (.next i (history ++ confirmedAt C bc address height i)) := by
  simp only [fullLoop, confirmedAt] at h ⊢
  cases hblock : bc.blockAt C i with
  | none => simp
  | some block =>
    rw [hblock, elim_some] at h
    simp only [addEntries_of_fitsIn h, elim_some]

lemma body_fullLoop_of_not_fitsIn
    (h : ¬ FitsIn maxResults history (confirmedAt C bc address height i)) :
    ∃ full, (fullLoop C bc address maxResults height).body i history = some (.next 0 full) ∧
      maxResults ≤ full.length := by
  simp only [fullLoop, confirmedAt] at h ⊢
  cases hblock : bc.blockAt C i with
  | none =>
    rw [hblock] at h
    exact absurd (Or.inl rfl) h
  | some block =>
    rw [hblock, elim_some] at h
    obtain ⟨full, hadd, hle⟩ := addEntries_of_not_fitsIn h
    exact ⟨full, by simp only [hadd], hle⟩

lemma confirmedUpTo_succ (hi : i.toNat = n + 1) : confirmedUpTo C bc address height (n + 1) =
      confirmedAt C bc address height i ++ confirmedUpTo C bc address height n := by
  rw [confirmedUpTo, ← hi, UInt64.ofNat_toNat]

lemma confirmedUpTo_ne_nil (hpos : 1 ≤ i.toNat) (hle : i.toNat ≤ n)
    (h : confirmedAt C bc address height i ≠ []) : confirmedUpTo C bc address height n ≠ [] := by
  induction n, hle using Nat.le_induction with
  | base =>
    obtain ⟨m, hm⟩ : ∃ m, i.toNat = m + 1 := ⟨i.toNat - 1, by omega⟩
    rw [hm, confirmedUpTo_succ hm]
    exact fun hnil => h (append_eq_nil_iff.mp hnil).1
  | succ n _ ih => exact fun hnil => ih (append_eq_nil_iff.mp hnil).2

lemma toNat_sub_one (hi : i.toNat = n + 1) : (i - 1).toNat = n := by
  have hlt := i.toNat_lt
  rw [UInt64.toNat_sub, UInt64.toNat_one]
  omega

lemma cond_fullLoop :
    (fullLoop C bc address maxResults height).cond i history = decide (1 ≤ i.toNat) := by
  simp only [fullLoop, ge_iff_le, UInt64.le_iff_toNat_le, UInt64.toNat_one]

/-- **A scan in which everything fits** collects everything and comes to no height twice; in no turn
does it hold too many entries. -/
lemma fullLoop_of_fitsIn (n : ℕ) : ∀ {i : UInt64} {history : List FullEntry}, i.toNat = n →
    FitsIn maxResults history (confirmedUpTo C bc address height n) →
    (fullLoop C bc address maxResults height).run (n + 1) i history =
        some (history ++ confirmedUpTo C bc address height n) ∧
      (fullLoop C bc address maxResults height).visits (n + 1) i history =
        List.iterate (· - 1) i n ∧
      ∀ fuel, (((fullLoop C bc address maxResults height).after fuel i history).length : ℤ) ≤
        max (history.length : ℤ) maxResults := by
  induction n with
  | zero =>
    intro i history hi _
    have hcond : (fullLoop C bc address maxResults height).cond i history = false := by
      rw [cond_fullLoop, hi]
      rfl
    refine ⟨?_, ForLoop.visits_of_not_cond hcond _, fun fuel => ?_⟩
    · rw [ForLoop.run_of_not_cond hcond, confirmedUpTo, append_nil]
    · rw [ForLoop.after_of_not_cond hcond]
      exact le_max_left _ _
  | succ n ih =>
    intro i history hi hfits
    have hcond : (fullLoop C bc address maxResults height).cond i history = true := by
      rw [cond_fullLoop, hi]
      exact decide_eq_true (Nat.le_add_left 1 n)
    rw [confirmedUpTo_succ hi] at hfits ⊢
    obtain ⟨hhead, htail⟩ := fitsIn_append_iff.mp hfits
    have hbody := body_fullLoop_of_fitsIn hhead
    obtain ⟨hrun, hvisits, hafter⟩ := ih (toNat_sub_one hi) htail
    refine ⟨?_, ?_, fun fuel => ?_⟩
    · rw [ForLoop.run_of_next hcond hbody, ← append_assoc]
      exact hrun
    · rw [ForLoop.visits_of_next hcond hbody]
      exact congrArg (i :: ·) hvisits
    · cases fuel with
      | zero => exact le_max_left _ _
      | succ fuel =>
        rw [ForLoop.after_of_next hcond hbody]
        refine (hafter fuel).trans (max_le ?_ (le_max_right _ _))
        rcases hhead with hnil | hlt
        · rw [hnil, append_nil]
          exact le_max_left _ _
        · exact hlt.le.trans (le_max_right _ _)

/-- **A scan in which not everything fits does not end**: once the maximum is reached, the loop
begins again at the greatest height there is, and reaches the maximum again. -/
lemma not_returns_fullLoop
    (h : ¬ FitsIn maxResults history (confirmedUpTo C bc address height i.toNat)) :
    ¬ (fullLoop C bc address maxResults height).Returns i history := by
  -- there is an entry further down, and with what is further down the maximum is reached
  refine ForLoop.not_returns_of_invariant
    (I := fun i history => ¬ FitsIn maxResults history (confirmedUpTo C bc address height i.toNat))
    ?_ h
  intro i history hnot
  obtain ⟨n, hi⟩ : ∃ n, i.toNat = n + 1 := by
    refine Nat.exists_eq_succ_of_ne_zero fun hzero => hnot ?_
    rw [hzero]
    exact Or.inl rfl
  refine ⟨by rw [cond_fullLoop, hi]; exact decide_eq_true (Nat.le_add_left 1 n), ?_⟩
  rw [hi, confirmedUpTo_succ hi, fitsIn_append_iff] at hnot
  by_cases hhead : FitsIn maxResults history (confirmedAt C bc address height i)
  case pos =>
    refine ⟨_, _, body_fullLoop_of_fitsIn hhead, fun htail => hnot ⟨hhead, ?_⟩⟩
    rwa [show (fullLoop C bc address maxResults height).post i = i - 1 from rfl,
      toNat_sub_one hi] at htail
  case neg =>
    obtain ⟨full, hbody, hle⟩ := body_fullLoop_of_not_fitsIn hhead
    have hne : confirmedAt C bc address height i ≠ [] := fun hnil => hhead (Or.inl hnil)
    have hagain : i.toNat ≤ ((0 : UInt64) - 1).toNat := Nat.le_pred_of_lt i.toNat_lt
    refine ⟨_, _, hbody, fun hfits => ?_⟩
    rcases hfits with hnil | hlt
    · exact confirmedUpTo_ne_nil (by omega) hagain hne hnil
    · rw [length_append, Nat.cast_add] at hlt
      omega

/-- **When the second scan is good**: it ends, comes to no height twice and never holds more entries
than the maximum, beyond the pending ones it begins with, exactly if everything fits. -/
lemma fullLoop_good_iff : ((fullLoop C bc address maxResults height).Returns height history ∧
        (∀ fuel, ((fullLoop C bc address maxResults height).visits fuel height history).Nodup) ∧
        ∀ fuel, (((fullLoop C bc address maxResults height).after fuel height history).length : ℤ) ≤
          max (history.length : ℤ) maxResults) ↔
      FitsIn maxResults history (confirmedUpTo C bc address height height.toNat) := by
  constructor
  · rintro ⟨hreturns, -, -⟩
    by_contra hnot
    exact not_returns_fullLoop hnot hreturns
  · intro hfits
    obtain ⟨hrun, hvisits, hafter⟩ := fullLoop_of_fitsIn height.toNat rfl hfits
    refine ⟨⟨_, _, hrun⟩, ForLoop.nodup_visits_of_run hrun ?_, hafter⟩
    rw [hvisits]
    exact ForLoop.nodup_iterate_sub_one height height.toNat_lt.le

end Full

/-! ## Both functions -/

lemma exists_isSome_map_run_iff {ι σ τ : Type} {loop : ForLoop ι σ} {i : ι} {s : σ} {f : σ → τ} :
    (∃ fuel, ((loop.run fuel i s).map f).isSome) ↔ loop.Returns i s := by
  simp only [isSome_map, isSome_iff_exists, ForLoop.Returns]

/-- **When the scans for an address are good.** `SearchByAddress` ends and visits no height twice
exactly if it fails before its scan, the latest height is above 5000, or enough transactions are
found before the heights come round. `GetFullTransactionHistory` ends, visits no height twice and
stays within the maximum exactly if it rejects the request, or no confirmed transaction is found, or
all of them do not reach the maximum. -/
theorem addressScans_good_iff (C : Crypto) (bc : Blockchain) : (∀ request : SearchRequest,
      ((∃ fuel, (searchByAddress C bc request fuel).isSome) ∧
        ∀ fuel, (searchByAddressVisits C bc request fuel).Nodup) ↔
      (request.check C).isSome ∨ ∀ latestBlock ∈ bc.getLatestBlock C,
        5000 < latestBlock.header.blockNumber ∨
          ∃ k < 2 ^ 64, SearchStops C bc request.address request.enough
            latestBlock.header.blockNumber k) ∧
    ∀ (mempool : Option Mempool) (request : FullRequest),
      ((∃ fuel, (getFullTransactionHistory C bc mempool request fuel).isSome) ∧
        (∀ fuel, (getFullTransactionHistoryVisits C bc mempool request fuel).Nodup) ∧
        ∀ fuel, ((getFullTransactionHistoryAfter C bc mempool request fuel).length : ℤ) ≤
          max ((pendingEntries mempool request.address).length : ℤ)
            (fullMaximum request.maxResults)) ↔ validateAddress C request.address = false ∨
        FitsIn (fullMaximum request.maxResults) (pendingEntries mempool request.address)
          (confirmedUpTo C bc request.address bc.getHeight bc.getHeight.toNat) := by
  constructor
  · intro request
    cases hcheck : request.check C with
    | some err => simp [searchByAddress, searchByAddressVisits, hcheck]
    | none =>
      cases hlatest : bc.getLatestBlock C with
      | none => simp [searchByAddress, searchByAddressVisits, hcheck, hlatest]
      | some latestBlock =>
        simp only [searchByAddress, searchByAddressVisits, hcheck, hlatest,
          exists_isSome_map_run_iff, searchLoop_good_iff]
        simp
  · intro mempool request
    cases hvalid : validateAddress C request.address with
    | false =>
      simp [getFullTransactionHistory, getFullTransactionHistoryVisits,
        getFullTransactionHistoryAfter, hvalid]
    | true =>
      simp only [getFullTransactionHistory, getFullTransactionHistoryVisits,
        getFullTransactionHistoryAfter, hvalid, not_true_eq_false, if_false,
        exists_isSome_map_run_iff, fullLoop_good_iff]
      simp

lemma not_returns_searchLoop {C : Crypto} {bc : Blockchain} {address : String} {enough : ℤ}
    {latest : UInt64} (henough : 0 < enough) (h : ∀ height, entriesAt C bc address height = []) :
    ¬ (searchLoop C bc address enough 0).Returns latest [] := by
  refine ForLoop.not_returns_of_invariant (I := fun _ found => found = []) ?_ rfl
  rintro height _ rfl
  have hnone := h height
  refine ⟨decide_eq_true (show (0 : UInt64) ≤ height from UInt64.zero_le), height, [], ?_, rfl⟩
  simp only [entriesAt, searchLoop] at hnone ⊢
  cases hblock : bc.blockAt C height with
  | none => rfl
  | some block =>
    rw [hblock, elim_some] at hnone
    simp only [hnone, append_nil, length_nil]
    exact if_neg (by omega)

def scannedAddress : String := sample.generateAddress ⟨1, 2⟩

def scannedTransaction : Transaction where
  transactionID := "scanned"
  sender := scannedAddress

def scannedChain : Blockchain where
  chain :=
    [{}, { header := { blockNumber := 1 }
           body := { transactions := PatriciaTrie.new.insert sample scannedTransaction } }]

/-- Neither scan ends: the first in a chain of one block, the second in one of two blocks, where one
transaction is all that is asked for; with a pending one it holds two after a turn. -/
theorem addressScans_endless :
    (∀ fuel, searchByAddress sample { chain := [{}] } { address := scannedAddress } fuel = none) ∧
    (∀ fuel, getFullTransactionHistory sample scannedChain none
      { address := scannedAddress, maxResults := 1 } fuel = none) ∧
    (getFullTransactionHistoryAfter sample scannedChain
      (some { transactions := [scannedTransaction] })
      { address := scannedAddress, maxResults := 1 } 1).length = 2 := by
  have hvalid : validateAddress sample scannedAddress = true :=
    validateAddress_generateAddress sample ⟨1, 2⟩
  refine ⟨fun fuel => ?_, fun fuel => ?_, ?_⟩
  · have hcheck : SearchRequest.check sample { address := scannedAddress } = none := by
      decide +kernel
    have hnothing : ∀ height,
        entriesAt sample { chain := [{}] } scannedAddress height = [] := by
      intro height
      simp only [entriesAt, Blockchain.blockAt, Blockchain.getBlockByHeight]
      by_cases hzero : (0 : UInt64) = height
      · subst hzero
        rfl
      · simp [hzero]
    have hnot : ¬ (searchLoop sample { chain := [{}] } scannedAddress
        (SearchRequest.enough { address := scannedAddress }) 0).Returns 0 [] :=
      not_returns_searchLoop (by decide) hnothing
    rw [← exists_isSome_map_run_iff (f := ScanOutcome.scanned)] at hnot
    simp only [searchByAddress, hcheck]
    exact not_isSome_iff_eq_none.mp fun hsome => hnot ⟨fuel, hsome⟩
  · have hone : (confirmedUpTo sample scannedChain scannedAddress 1 1).length = 1 := by
      decide +kernel
    have hfull : ¬ FitsIn 1 [] (confirmedUpTo sample scannedChain scannedAddress 1 1) := by
      rintro (hnil | hlt)
      · rw [hnil] at hone
        exact absurd hone (by decide)
      · rw [nil_append, hone] at hlt
        exact absurd hlt (by decide)
    have hnot := not_returns_fullLoop (i := 1) hfull
    rw [← exists_isSome_map_run_iff (f := ScanOutcome.scanned)] at hnot
    simp only [getFullTransactionHistory, hvalid]
    exact not_isSome_iff_eq_none.mp fun hsome => hnot ⟨fuel, hsome⟩
  · simp only [getFullTransactionHistoryAfter, hvalid]
    decide +kernel

end HybridChain
