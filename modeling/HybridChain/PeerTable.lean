import HybridChain.Lib.Cells
import HybridChain.Lib.ExchangeSort
import HybridChain.Locking
import HybridChain.ValidatorSelection

/-!
# The table of peers

The best peers and the blacklist of a `PeerManager` (`peer_manager.go`). The blacklist is kept
twice: as a map of times, which `IsBlacklisted` reads, and as a flag of known peers, which is never
cleared and which the lists of peers read.

The order in which a loop goes through the map of peers is an argument. A negative capacity makes
`GetBestPeers` panic. Times are in nanoseconds.

## Main definitions

* `getBestPeers`, `blacklistPeer`, `isBlacklisted`
* `Cell.step`: what a call does to one peer
* `Tracks`: what the table knows of a history

## Main results

* `getBestPeers_best`: the best peers are the best
* `blacklist_agrees_iff`: when the two blacklists agree
-/

namespace HybridChain

open List KeyedLog

namespace PeerTable

/-! ## The functions -/

/-- `PeerInfo`: the fields that the lists of peers read. -/
structure PeerInfo where
  score : ℤ := 0
  connected : Bool := false
  blacklisted : Bool := false

structure PeerManager where
  peers : Store String PeerInfo := ∅
  /-- Until when a peer is blacklisted. -/
  blacklist : Store String ℤ := ∅

def peerScoreInit : ℤ := 100

namespace PeerManager

variable (pm : PeerManager)

def addPeer (id : String) : PeerManager :=
  match pm.peers.lookup id with
  | some _ => pm
  | none =>
    { pm with peers := pm.peers.insert id { score := peerScoreInit, connected := true } }

def blacklistPeer (peerID : String) (duration now : ℤ) : PeerManager :=
  let pm := { pm with blacklist := pm.blacklist.insert peerID (now + duration) }
  match pm.peers.lookup peerID with
  | some peerInfo =>
    { pm with peers := pm.peers.insert peerID { peerInfo with blacklisted := true } }
  | none => pm

/-- `IsBlacklisted`, which deletes an entry that has expired. -/
def isBlacklisted (peerID : String) (now : ℤ) : Bool × PeerManager :=
  match pm.blacklist.lookup peerID with
  | none => (false, pm)
  | some blacklistedUntil =>
    if now > blacklistedUntil then (false, { pm with blacklist := pm.blacklist.erase peerID })
    else (true, pm)

def cleanupBlacklistedPeers (now : ℤ) : PeerManager :=
  { pm with blacklist := filterValues (fun blacklistedTime =>
      ¬ now - blacklistedTime > 24 * hour) pm.blacklist }

/-- The peers that a loop over the map picks out. -/
def pick (peerOrder : List String) : List (String × PeerInfo) :=
  (inOrder peerOrder pm.peers).filter fun peer => peer.2.connected && !peer.2.blacklisted

def getConnectedPeers (peerOrder : List String) : List String := (pm.pick peerOrder).map Prod.fst

def getBestPeers (peerOrder : List String) (n : ℤ) : Option (List String) :=
  let scores := (pm.pick peerOrder).map fun peer => (peer.1, peer.2.score)
  let scores := ExchangeSort.sort Prod.snd scores
  if n < 0 then none else some ((scores.take n.toNat).map Prod.fst)

/-- The table has the blacklist and the flags of the peers that `RecordBlockValidation` works on. -/
structure Shows (pm : PeerManager) (recorded : HybridChain.PeerManager) : Prop where
  blacklist : pm.blacklist = recorded.blacklist
  flags (id : String) : (pm.peers.lookup id).map PeerInfo.blacklisted =
    (recorded.peers.lookup id).map HybridChain.PeerInfo.blacklisted

/-- Without its mutex, `BlacklistPeer` is the one of the table. -/
theorem Shows.eval_blacklistPeerFor {pm : PeerManager} {s : Objects} (h : Shows pm s.peerManager)
    (peerID : String) (duration now : ℤ) :
    ∃ t, (HybridChain.PeerManager.blacklistPeerFor peerID duration now).eval s = some ((), t) ∧
      Shows (pm.blacklistPeer peerID duration now) t.peerManager := by
  refine ⟨_, rfl, ?_⟩
  have hflag := h.flags peerID
  cases htable : pm.peers.lookup peerID <;> cases hrecorded : s.peerManager.peers.lookup peerID <;>
    simp only [htable, hrecorded, Option.map_none, Option.map_some, reduceCtorEq] at hflag
  case none.none =>
    simp only [blacklistPeer, htable]
    exact ⟨congrArg (·.insert peerID (now + duration)) h.blacklist, h.flags⟩
  case some.some table recorded =>
    simp only [blacklistPeer, htable]
    refine ⟨congrArg (·.insert peerID (now + duration)) h.blacklist, fun id => ?_⟩
    by_cases hid : id = peerID
    · subst hid
      simp
    · simpa [Finmap.lookup_insert_of_ne _ hid] using h.flags id

end PeerManager

/-! ## The best peers -/

namespace PeerManager

variable (pm : PeerManager)

def score (id : String) : ℤ := ((pm.peers.lookup id).map PeerInfo.score).getD 0

/-- A known peer that is connected and not blacklisted. -/
def Eligible (id : String) : Prop :=
  ∃ info, pm.peers.lookup id = some info ∧ info.connected = true ∧ info.blacklisted = false

def eligible : Finset String := pm.peers.keys.filter fun id =>
  (pm.peers.lookup id).any fun info => info.connected && !info.blacklisted

variable {pm} {peerOrder : List String} {id : String} {n : ℤ}

lemma mem_eligible : id ∈ pm.eligible ↔ pm.Eligible id := by
  rw [eligible, Finset.mem_filter, Finmap.mem_keys, Option.any_eq_true]
  constructor
  · rintro ⟨-, info, hinfo, hflags⟩
    exact ⟨info, hinfo, by simpa using hflags⟩
  · rintro ⟨info, hinfo, hflags⟩
    exact ⟨Finmap.mem_of_lookup_eq_some hinfo, info, hinfo, by simpa using hflags⟩

lemma mem_getConnectedPeers (h : ListsKeys peerOrder pm.peers) :
    id ∈ pm.getConnectedPeers peerOrder ↔ pm.Eligible id := by
  rw [getConnectedPeers, mem_map]
  constructor
  · rintro ⟨⟨id, info⟩, hmem, rfl⟩
    obtain ⟨hmem, hflags⟩ := mem_filter.mp hmem
    exact ⟨info, (mem_inOrder.mp hmem).2, by simpa using hflags⟩
  · rintro ⟨info, hinfo, hflags⟩
    refine ⟨(id, info), mem_filter.mpr ⟨mem_inOrder.mpr ⟨?_, hinfo⟩, ?_⟩, rfl⟩
    · exact h.mem_iff.mpr (Finmap.mem_of_lookup_eq_some hinfo)
    · simpa using hflags

lemma nodup_getConnectedPeers (h : ListsKeys peerOrder pm.peers) :
    (pm.getConnectedPeers peerOrder).Nodup := by
  have hsub : (pm.getConnectedPeers peerOrder).Sublist peerOrder := by
    conv_rhs => rw [← h.map_fst_inOrder]
    exact filter_sublist.map Prod.fst
  exact h.1.sublist hsub

lemma length_getConnectedPeers (h : ListsKeys peerOrder pm.peers) :
    (pm.getConnectedPeers peerOrder).length = pm.eligible.card := by
  rw [← toFinset_card_of_nodup (nodup_getConnectedPeers h)]
  congr 1
  ext id
  rw [mem_toFinset, mem_getConnectedPeers h, mem_eligible]

/-- The sorted table of `GetBestPeers`. -/
def ranking (pm : PeerManager) (peerOrder : List String) : List (String × ℤ) :=
  ExchangeSort.sort Prod.snd ((pm.pick peerOrder).map fun peer => (peer.1, peer.2.score))

lemma map_fst_ranking : ((pm.ranking peerOrder).map Prod.fst).Perm
    (pm.getConnectedPeers peerOrder) := by
  have hperm : ((pm.ranking peerOrder).map Prod.fst).Perm
      (((pm.pick peerOrder).map fun peer => (peer.1, peer.2.score)).map Prod.fst) :=
    (ExchangeSort.sort_perm _).map Prod.fst
  rwa [map_map] at hperm

lemma nodup_map_fst_ranking (h : ListsKeys peerOrder pm.peers) :
    ((pm.ranking peerOrder).map Prod.fst).Nodup :=
  map_fst_ranking.nodup_iff.mpr (nodup_getConnectedPeers h)

lemma length_ranking (h : ListsKeys peerOrder pm.peers) :
    (pm.ranking peerOrder).length = pm.eligible.card := by
  rw [← length_getConnectedPeers h, ← map_fst_ranking.length_eq, length_map]

lemma snd_of_mem_ranking {peer : String × ℤ} (h : peer ∈ pm.ranking peerOrder) :
    peer.2 = pm.score peer.1 := by
  rw [ranking, (ExchangeSort.sort_perm _).mem_iff, mem_map] at h
  obtain ⟨⟨id, info⟩, hmem, rfl⟩ := h
  have hinfo := (mem_inOrder.mp (mem_filter.mp hmem).1).2
  simp only [score, hinfo, Option.map_some, Option.getD_some]

lemma pairwise_ranking : (pm.ranking peerOrder).Pairwise fun a b =>
    pm.score b.1 ≤ pm.score a.1 := by
  refine (ExchangeSort.sort_pairwise _).imp_of_mem fun {a b} ha hb hle => ?_
  rwa [← snd_of_mem_ranking ha, ← snd_of_mem_ranking hb]

lemma getBestPeers_of_nonneg (hn : 0 ≤ n) :
    pm.getBestPeers peerOrder n = some (((pm.ranking peerOrder).take n.toNat).map Prod.fst) :=
  if_neg (not_lt.mpr hn)

lemma mem_getBestPeers (h : ListsKeys peerOrder pm.peers) (hn : pm.eligible.card ≤ n) :
    (∀ best ∈ pm.getBestPeers peerOrder n, id ∉ best) ↔ id ∉ pm.getConnectedPeers peerOrder := by
  rw [getBestPeers_of_nonneg (by omega), take_of_length_le (by
    rw [length_ranking h]
    omega)]
  simp only [Option.mem_some_iff, forall_eq', map_fst_ranking.mem_iff]

end PeerManager

/-- **The best peers are the best**, whatever the order of the map: they are eligible and distinct,
as many as asked for if there are so many, by descending score, and no eligible peer left out has a
greater score. -/
theorem getBestPeers_best (pm : PeerManager) (peerOrder : List String)
    (horder : ListsKeys peerOrder pm.peers) (n : ℤ) (hn : 0 ≤ n) :
    ∃ best, pm.getBestPeers peerOrder n = some best ∧ best.Nodup ∧
      (best.length : ℤ) = min n pm.eligible.card ∧ (∀ id ∈ best, id ∈ pm.eligible) ∧
      best.Pairwise (fun a b => pm.score b ≤ pm.score a) ∧
      ∀ id ∈ pm.eligible, id ∉ best → ∀ id' ∈ best, pm.score id ≤ pm.score id' := by
  have hsplit := take_append_drop n.toNat (pm.ranking peerOrder)
  have hmem : ∀ id, id ∈ (pm.ranking peerOrder).map Prod.fst ↔ id ∈ pm.eligible := fun id => by
    rw [PeerManager.map_fst_ranking.mem_iff, PeerManager.mem_getConnectedPeers horder,
      PeerManager.mem_eligible]
  have hsub : (((pm.ranking peerOrder).take n.toNat).map Prod.fst).Sublist
      ((pm.ranking peerOrder).map Prod.fst) := (take_sublist _ _).map _
  have hpairs : (pm.ranking peerOrder).Pairwise fun a b => pm.score b.1 ≤ pm.score a.1 :=
    PeerManager.pairwise_ranking
  rw [← hsplit, pairwise_append] at hpairs
  obtain ⟨hfirst, -, hacross⟩ := hpairs
  refine ⟨_, PeerManager.getBestPeers_of_nonneg hn,
    (PeerManager.nodup_map_fst_ranking horder).sublist hsub, ?_,
    fun id hid => (hmem id).mp (hsub.mem hid), pairwise_map.mpr hfirst, ?_⟩
  · rw [length_map, length_take, PeerManager.length_ranking horder]
    omega
  · intro id hid hout id' hbest
    obtain ⟨peer', hpeer', rfl⟩ := mem_map.mp hbest
    -- the peer left out is in the rest of the table
    obtain ⟨peer, hpeer, rfl⟩ : ∃ peer ∈ (pm.ranking peerOrder).drop n.toNat, peer.1 = id := by
      have hall := (hmem id).mpr hid
      rw [← hsplit, map_append, mem_append] at hall
      exact mem_map.mp (hall.resolve_left hout)
    exact hacross peer' hpeer' peer hpeer

def threePeers : PeerManager where
  peers := ((∅ : Store String PeerInfo).insert "a" { score := 100, connected := true }).insert "b"
    { score := 300, connected := true } |>.insert "c"
    { score := 900, connected := true, blacklisted := true }

theorem getBestPeers_best_one : (ListsKeys ["a", "b", "c"] threePeers.peers ∧ (0 : ℤ) ≤ 1) ∧
      ∃ best, threePeers.getBestPeers ["a", "b", "c"] 1 = some best ∧ best = ["b"] ∧
        (best.length : ℤ) = min 1 threePeers.eligible.card := by
  have horder : ListsKeys ["a", "b", "c"] threePeers.peers := by decide +kernel
  obtain ⟨best, hbest, -, hlength, -⟩ :=
    getBestPeers_best threePeers ["a", "b", "c"] horder 1 (by decide)
  have hvalue : threePeers.getBestPeers ["a", "b", "c"] 1 = some ["b"] := by decide +kernel
  exact ⟨⟨horder, by decide⟩, best, hbest, Option.some.inj (hbest.symm.trans hvalue), hlength⟩

/-! ## Histories -/

inductive PeerOp where
  | addPeer (id : String)
  | blacklistPeer (id : String) (duration : ℤ)
  | isBlacklisted (id : String)
  | cleanupBlacklistedPeers

/-- An operation and the time at which it is called. -/
structure PeerCall where
  time : ℤ
  op : PeerOp

def PeerManager.step (pm : PeerManager) (call : PeerCall) : PeerManager :=
  match call.op with
  | .addPeer id => pm.addPeer id
  | .blacklistPeer id duration => pm.blacklistPeer id duration call.time
  | .isBlacklisted id => (pm.isBlacklisted id call.time).2
  | .cleanupBlacklistedPeers => pm.cleanupBlacklistedPeers call.time

/-- The time until which a call blacklists a peer. -/
def PeerCall.until (call : PeerCall) (id : String) : Option ℤ :=
  match call.op with
  | .blacklistPeer id' duration => if id' = id then some (call.time + duration) else none
  | _ => none

/-- The time until which a peer is blacklisted by the last call that does it. -/
def lastUntil (calls : List PeerCall) (id : String) : Option ℤ :=
  calls.foldl (fun blacklistedUntil call => (call.until id).or blacklistedUntil) none

def Added (calls : List PeerCall) (id : String) : Prop := ∃ call ∈ calls, call.op = .addPeer id

/-- The peer has been added, and later it has been blacklisted. -/
def BlacklistedSinceAdded (calls : List PeerCall) (id : String) : Prop :=
  ∃ call call', [call, call'].Sublist calls ∧ call.op = .addPeer id ∧
    ∃ duration, call'.op = .blacklistPeer id duration

/-- The calls are made one after the other. -/
def InOrder (calls : List PeerCall) : Prop := calls.Pairwise fun a b => a.time ≤ b.time

variable {calls : List PeerCall} {id : String} {call : PeerCall}

lemma added_concat :
    Added (calls ++ [call]) id ↔ Added calls id ∨ call.op = .addPeer id := by
  simp only [Added, mem_append, mem_singleton, or_and_right, exists_or, exists_eq_left]

lemma BlacklistedSinceAdded.added
    (h : BlacklistedSinceAdded calls id) : Added calls id := by
  obtain ⟨call, call', hsub, hadd, -⟩ := h
  exact ⟨call, hsub.mem mem_cons_self, hadd⟩

lemma blacklistedSinceAdded_concat :
    BlacklistedSinceAdded (calls ++ [call]) id ↔ BlacklistedSinceAdded calls id ∨
      Added calls id ∧ ∃ duration, call.op = .blacklistPeer id duration := by
  constructor
  · rintro ⟨a, b, hsub, hadd, hblacklist⟩
    obtain ⟨before, last, heq, hbefore, hlast⟩ := sublist_append_iff.mp hsub
    rcases sublist_singleton.mp hlast with rfl | rfl
    · rw [append_nil] at heq
      exact Or.inl ⟨a, b, heq ▸ hbefore, hadd, hblacklist⟩
    · obtain ⟨rfl, hcall⟩ : [a] = before ∧ [b] = [call] :=
        append_inj' (show [a] ++ [b] = before ++ [call] from heq) rfl
      obtain rfl : b = call := singleton_inj.mp hcall
      exact Or.inr ⟨⟨a, singleton_sublist.mp hbefore, hadd⟩, hblacklist⟩
  · rintro (⟨a, b, hsub, hcalls⟩ | ⟨⟨a, ha, hadd⟩, hblacklist⟩)
    · exact ⟨a, b, hsub.trans (sublist_append_left _ _), hcalls⟩
    · exact ⟨a, call, (singleton_sublist.mpr ha).append (.refl [call]), hadd, hblacklist⟩

lemma lastUntil_concat (calls : List PeerCall) (call : PeerCall) (id : String) :
    lastUntil (calls ++ [call]) id = (call.until id).or (lastUntil calls id) := by
  rw [lastUntil, foldl_append]
  rfl

/-! ## One peer -/

/-- What the two maps hold for a peer. -/
abbrev Cell := Option PeerInfo × Option ℤ

def PeerManager.cell (pm : PeerManager) (id : String) : Cell :=
  (pm.peers.lookup id, pm.blacklist.lookup id)

/-- A call, for one peer. -/
def Cell.step (id : String) (c : Cell) (call : PeerCall) : Cell :=
  match call.op with
  | .addPeer id' =>
    if id' = id then (c.1.or (some { score := peerScoreInit, connected := true }), c.2) else c
  | .blacklistPeer id' duration =>
    if id' = id then
      (c.1.map fun info => { info with blacklisted := true }, some (call.time + duration))
    else c
  | .isBlacklisted id' => if id' = id then (c.1, c.2.filter (call.time ≤ ·)) else c
  | .cleanupBlacklistedPeers => (c.1, c.2.filter fun u => ¬ call.time - u > 24 * hour)

/-- **A call acts on each peer separately.** -/
lemma acts_step : Cells.Acts PeerManager.cell PeerManager.step Cell.step := by
  rintro pm ⟨time, op⟩ id
  cases op with
  | addPeer id' | blacklistPeer id' duration =>
    simp only [PeerManager.step, PeerManager.addPeer, PeerManager.blacklistPeer, PeerManager.cell,
      Cell.step]
    by_cases hid : id' = id
    · subst hid
      cases hlookup : pm.peers.lookup id' <;> simp [hlookup]
    · cases pm.peers.lookup id' <;> simp [lookup_insert_eq, hid]
  | isBlacklisted id' =>
    simp only [PeerManager.step, PeerManager.isBlacklisted, PeerManager.cell, Cell.step]
    by_cases hid : id' = id
    · subst hid
      cases hlookup : pm.blacklist.lookup id' with
      | none => simp [hlookup]
      | some u =>
        rcases lt_or_ge u time with hexpired | hexpired
        · simp [Option.filter, hexpired, not_le.mpr hexpired]
        · simp [Option.filter, hlookup, hexpired, not_lt.mpr hexpired]
    · cases pm.blacklist.lookup id' with
      | none => simp [hid]
      | some u => by_cases hexpired : u < time <;> simp [hid, hexpired, lookup_erase_eq]
  | cleanupBlacklistedPeers =>
    simp only [PeerManager.step, PeerManager.cleanupBlacklistedPeers, PeerManager.cell, Cell.step,
      lookup_filterValues]

/-- What a peer's cell knows of a history that ends before `now`. -/
structure Tracks (calls : List PeerCall) (now : ℤ) (id : String) (c : Cell) : Prop where
  known : c.1.isSome ↔ Added calls id
  flag : ∀ info ∈ c.1,
    info.connected = true ∧ (info.blacklisted = true ↔ BlacklistedSinceAdded calls id)
  entry : ∀ u ∈ c.2, lastUntil calls id = some u
  expired : c.2 = none → ∀ u ∈ lastUntil calls id, u < now

namespace Tracks

variable {calls : List PeerCall} {call : PeerCall} {now time : ℤ} {id : String} {c : Cell}

lemma mono (h : Tracks calls now id c) (hle : now ≤ time) : Tracks calls time id c where
  known := h.known
  flag := h.flag
  entry := h.entry
  expired hnone u hu := (h.expired hnone u hu).trans_le hle

/-- Entries may be dropped when they have expired. -/
lemma filter (h : Tracks calls now id c) {p : ℤ → Bool} (hp : ∀ u, p u = false → u < now) :
    Tracks calls now id (c.1, c.2.filter p) where
  known := h.known
  flag := h.flag
  entry u hu := h.entry u (Option.mem_filter_iff.mp hu).1
  expired hnone u hu := by
    cases hentry : c.2 with
    | none => exact h.expired hentry u hu
    | some u' =>
      obtain rfl : u' = u := Option.some.inj ((h.entry u' hentry).symm.trans hu)
      refine hp u' (Bool.eq_false_iff.mpr fun hkept => ?_)
      rw [hentry, Option.filter_some, if_pos hkept] at hnone
      exact absurd hnone (Option.some_ne_none u')

/-- Calls that neither add nor blacklist the peer leave no trace in its history. -/
lemma of_ne (h : Tracks calls now id c) (hadd : call.op ≠ .addPeer id)
    (hblacklist : ∀ d, call.op ≠ .blacklistPeer id d) : Tracks (calls ++ [call]) now id c := by
  have hlast : lastUntil (calls ++ [call]) id = lastUntil calls id := by
    have hnone : call.until id = none := by
      unfold PeerCall.until
      split
      · rename_i hop
        exact if_neg fun hid => hblacklist _ (hid ▸ hop)
      · rfl
    rw [lastUntil_concat, hnone, Option.none_or]
  refine ⟨?_, ?_, fun u hu => hlast.trans (h.entry u hu), ?_⟩
  · rw [added_concat, or_iff_left hadd]
    exact h.known
  · rw [blacklistedSinceAdded_concat, or_iff_left fun hnew => hblacklist _ hnew.2.choose_spec]
    exact h.flag
  · rw [hlast]
    exact h.expired

lemma addPeer (h : Tracks calls now id c) (time : ℤ) :
    Tracks (calls ++ [⟨time, .addPeer id⟩]) now id
      (c.1.or (some { score := peerScoreInit, connected := true }), c.2) := by
  have hflag : BlacklistedSinceAdded (calls ++ [⟨time, .addPeer id⟩]) id ↔
      BlacklistedSinceAdded calls id := by
    rw [blacklistedSinceAdded_concat, or_iff_left fun hnew => nomatch hnew.2.choose_spec]
  have hlast : lastUntil (calls ++ [⟨time, .addPeer id⟩]) id = lastUntil calls id :=
    lastUntil_concat calls _ id
  refine ⟨?_, fun info hinfo => ?_, fun u hu => hlast.trans (h.entry u hu), ?_⟩
  · rw [added_concat]
    simp
  · rw [hflag]
    rcases Option.or_eq_some_iff.mp hinfo with hold | ⟨hunknown, hnew⟩
    · exact h.flag info hold
    · obtain rfl := Option.some.inj hnew
      refine ⟨rfl, iff_of_false Bool.false_ne_true fun hblacklisted => ?_⟩
      have hknown := h.known.mpr hblacklisted.added
      rw [hunknown] at hknown
      exact absurd hknown Bool.false_ne_true
  · rw [hlast]
    exact h.expired

lemma blacklistPeer (h : Tracks calls now id c) (time duration : ℤ) :
    Tracks (calls ++ [⟨time, .blacklistPeer id duration⟩]) now id
      (c.1.map fun info => { info with blacklisted := true }, some (time + duration)) := by
  have hlast : lastUntil (calls ++ [⟨time, .blacklistPeer id duration⟩]) id =
      some (time + duration) := by
    rw [lastUntil_concat]
    simp [PeerCall.until]
  refine ⟨?_, fun info hinfo => ?_, fun u hu => hlast.trans hu, nofun⟩
  · rw [added_concat, or_iff_left nofun, Option.isSome_map]
    exact h.known
  · obtain ⟨info, hold, rfl⟩ := Option.map_eq_some_iff.mp hinfo
    have hknown : Added calls id := h.known.mp (Option.isSome_of_mem hold)
    rw [blacklistedSinceAdded_concat]
    exact ⟨(h.flag info hold).1, iff_of_true rfl (.inr ⟨hknown, duration, rfl⟩)⟩

lemma step (h : Tracks calls call.time id c) :
    Tracks (calls ++ [call]) call.time id (c.step id call) := by
  unfold Cell.step
  split
  case h_1 id' hop =>
    split_ifs with hid
    · obtain ⟨time, op⟩ := call
      subst hop hid
      exact h.addPeer time
    · exact h.of_ne (by simp [hop, hid]) (by simp [hop])
  case h_2 id' duration hop =>
    split_ifs with hid
    · obtain ⟨time, op⟩ := call
      subst hop hid
      exact h.blacklistPeer time duration
    · exact h.of_ne (by simp [hop]) (by simp [hop, hid])
  case h_3 id' hop =>
    have hkeep : Tracks (calls ++ [call]) call.time id c := h.of_ne (by simp [hop]) (by simp [hop])
    split_ifs
    · exact hkeep.filter fun u hu => not_le.mp (of_decide_eq_false hu)
    · exact hkeep
  case h_4 hop =>
    refine (h.of_ne (by simp [hop]) (by simp [hop])).filter fun u hu => ?_
    have hhour : hour = 3600000000000 := rfl
    simp only [decide_not, Bool.not_eq_false', decide_eq_true_eq] at hu
    omega

variable {pm : PeerManager}

lemma isBlacklisted_iff (h : Tracks calls now id (pm.cell id)) :
    (pm.isBlacklisted id now).1 = true ↔ ∃ u, lastUntil calls id = some u ∧ now ≤ u := by
  rw [PeerManager.isBlacklisted]
  cases hlookup : pm.blacklist.lookup id with
  | none =>
    refine iff_of_false Bool.false_ne_true ?_
    rintro ⟨u, hu, hle⟩
    exact absurd (h.expired hlookup u hu) (not_lt.mpr hle)
  | some blacklistedUntil =>
    rw [h.entry blacklistedUntil hlookup]
    simp only [Option.some.injEq, exists_eq_left']
    split_ifs with hexpired
    · simpa using hexpired
    · simpa using hexpired

lemma eligible_iff (h : Tracks calls now id (pm.cell id)) (hknown : id ∈ pm.peers) :
    pm.Eligible id ↔ ¬ BlacklistedSinceAdded calls id := by
  obtain ⟨info, hinfo⟩ := Option.isSome_iff_exists.mp (Finmap.lookup_isSome.mpr hknown)
  obtain ⟨hconnected, hflag⟩ := h.flag info hinfo
  rw [← hflag, Bool.not_eq_true]
  constructor
  · rintro ⟨info', hinfo', -, hclear⟩
    obtain rfl : info' = info := Option.some.inj (hinfo'.symm.trans hinfo)
    exact hclear
  · exact fun hclear => ⟨info, hinfo, hconnected, hclear⟩

end Tracks

/-- **What the table knows after a history**, at a time after all its calls. -/
theorem tracks_foldl (horder : InOrder calls) {now : ℤ}
    (hnow : ∀ call ∈ calls, call.time ≤ now) (id : String) :
    Tracks calls now id ((calls.foldl PeerManager.step {}).cell id) := by
  rw [acts_step.view_foldl]
  induction calls using List.reverseRecOn generalizing now with
  | nil => exact ⟨by simp [PeerManager.cell, Added], nofun, nofun, by simp [lastUntil]⟩
  | append_singleton calls call ih =>
    rw [InOrder, pairwise_append] at horder
    obtain ⟨hbefore, -, hacross⟩ := horder
    have hlast : call.time ≤ now := hnow call (mem_append_right _ (mem_singleton_self call))
    rw [foldl_append]
    refine Tracks.mono (Tracks.step (ih hbefore fun earlier hearlier => ?_)) hlast
    exact hacross earlier hearlier call (mem_singleton_self call)

/-- **When the blacklist has one meaning**: after a history, a known peer is left out of the lists
exactly if `IsBlacklisted` says so, if and only if it has been blacklisted since it was added just
in case the last call that blacklisted it has not expired. -/
theorem blacklist_agrees_iff (calls : List PeerCall) (horder : InOrder calls) (now : ℤ)
    (hnow : ∀ call ∈ calls, call.time ≤ now) (id : String)
    (hknown : id ∈ (calls.foldl PeerManager.step {}).peers) :
    let pm := calls.foldl PeerManager.step {}
    (∀ peerOrder, ListsKeys peerOrder pm.peers → ∀ n : ℤ, pm.eligible.card ≤ n →
      (id ∉ pm.getConnectedPeers peerOrder ↔ (pm.isBlacklisted id now).1 = true) ∧
      ((∀ best ∈ pm.getBestPeers peerOrder n, id ∉ best) ↔ (pm.isBlacklisted id now).1 = true)) ↔
    (BlacklistedSinceAdded calls id ↔ ∃ u, lastUntil calls id = some u ∧ now ≤ u) := by
  intro pm
  have htracks : Tracks calls now id (pm.cell id) := tracks_foldl horder hnow id
  have hout : ∀ peerOrder, ListsKeys peerOrder pm.peers →
      (id ∉ pm.getConnectedPeers peerOrder ↔ BlacklistedSinceAdded calls id) := fun order h => by
    rw [PeerManager.mem_getConnectedPeers h, htracks.eligible_iff hknown, not_not]
  rw [htracks.isBlacklisted_iff]
  constructor
  · intro hagree
    have hkeys : ListsKeys pm.peers.keys.toList pm.peers :=
      ⟨Finset.nodup_toList _, Finset.toList_toFinset _⟩
    rw [← hout _ hkeys]
    exact (hagree _ hkeys _ le_rfl).1
  · intro hagree peerOrder hkeys n hn
    rw [PeerManager.mem_getBestPeers hkeys hn, hout _ hkeys]
    exact ⟨hagree, hagree⟩

theorem blacklist_agrees_hour :
    let calls : List PeerCall := [⟨0, .addPeer "peer"⟩, ⟨1, .blacklistPeer "peer" hour⟩]
    (InOrder calls ∧ (∀ call ∈ calls, call.time ≤ 2) ∧
      "peer" ∈ (calls.foldl PeerManager.step {}).peers) ∧
    ∀ peerOrder, ListsKeys peerOrder (calls.foldl PeerManager.step {}).peers →
      ("peer" ∉ (calls.foldl PeerManager.step {}).getConnectedPeers peerOrder ↔
        ((calls.foldl PeerManager.step {}).isBlacklisted "peer" 2).1 = true) := by
  intro calls
  have horder : InOrder calls := by simp [InOrder, calls]
  have hnow : ∀ call ∈ calls, call.time ≤ 2 := by simp [calls]
  have hknown : "peer" ∈ (calls.foldl PeerManager.step {}).peers := by decide +kernel
  have hblacklisted : BlacklistedSinceAdded calls "peer" := ⟨_, _, .refl _, rfl, hour, rfl⟩
  have huntil : ∃ u, lastUntil calls "peer" = some u ∧ 2 ≤ u := ⟨1 + hour, rfl, by decide⟩
  have hagree := (blacklist_agrees_iff calls horder 2 hnow "peer" hknown).mpr
    (iff_of_true hblacklisted huntil)
  exact ⟨⟨horder, hnow, hknown⟩, fun peerOrder hkeys => (hagree peerOrder hkeys _ le_rfl).1⟩

/-- **The two forms of the blacklist disagree**: when the time of a peer is over, `IsBlacklisted`
says no but the peer stays left out; a peer that is blacklisted before it is added is not left out
although `IsBlacklisted` says yes. -/
theorem blacklist_disagrees :
    (let pm := [⟨0, .addPeer "peer"⟩, ⟨1, .blacklistPeer "peer" hour⟩].foldl PeerManager.step {}
     pm.getConnectedPeers ["peer"] = [] ∧ pm.getBestPeers ["peer"] 1 = some [] ∧
       (pm.isBlacklisted "peer" (2 * hour)).1 = false) ∧
    (let pm := [⟨0, .blacklistPeer "peer" hour⟩, ⟨1, .addPeer "peer"⟩].foldl PeerManager.step {}
     pm.getConnectedPeers ["peer"] = ["peer"] ∧ pm.getBestPeers ["peer"] 1 = some ["peer"] ∧
       (pm.isBlacklisted "peer" 2).1 = true) := by
  decide +kernel

end PeerTable

end HybridChain
