import HybridChain.Lib.Majority
import HybridChain.NodeSync

/-!
# Decisions by majority

`InitiateStateVoting` and `VerifyChainState` of `peer_manager.go` count what the peers say in a map
and look for the largest count in a loop over this map.

The orders of the loops are arguments. What a peer answers is a function of the peer. The state
proposed for a vote is left out, since it is not read.

## Main definitions

* `initiateStateVoting`, `verifyChainState`

## Main results

* `initiateStateVoting_decides`, `verifyChainState_decides`
* `decisions_order_free`: a majority does not depend on the order of a loop
-/

namespace HybridChain

open Finmap
open KeyedLog (Store ListsKeys inOrder Enumerates)
open Majority (Wins addVote tally scan)

namespace StateVoting

/-- `PeerInfo`: the fields that the two functions read. -/
structure PeerInfo where
  connected : Bool := false
  lastVote : String := ""

/-! ## Votes -/

structure VotingResult where
  quorumReached : Bool := false
  winningState : String := ""
  voteCount : Store String ℕ := ∅

/-- One turn of the loop over the peers: the votes for each state, and the number of votes. -/
def countVote (counted : Store String ℕ × ℕ) (peer : PeerInfo) : Store String ℕ × ℕ :=
  if ¬ peer.connected then counted
  else if peer.lastVote ≠ "" then (addVote counted.1 peer.lastVote, counted.2 + 1)
  else counted

def countVotes (peers : Store String PeerInfo) (peerOrder : List String) : Store String ℕ × ℕ :=
  (inOrder peerOrder peers).foldl (fun counted peer => countVote counted peer.2) (∅, 0)

def initiateStateVoting (peers : Store String PeerInfo) (peerOrder voteOrder : List String) :
    VotingResult :=
  let (voteCount, totalVotes) := countVotes peers peerOrder
  let (maxVotes, winningState) := scan (0, "") (inOrder voteOrder voteCount)
  { quorumReached := totalVotes > 0 && maxVotes > totalVotes / 2
    winningState := winningState
    voteCount := voteCount }

/-- The vote of a peer, if it is connected and has voted. -/
def PeerInfo.vote (peer : PeerInfo) : Option String :=
  if peer.connected ∧ peer.lastVote ≠ "" then some peer.lastVote else none

def ballots (peers : Store String PeerInfo) : Multiset String :=
  peers.entries.filterMap fun e => e.2.vote

/-- The votes in the order of a loop over the peers. -/
def ballotList (peers : Store String PeerInfo) (peerOrder : List String) : List String :=
  (inOrder peerOrder peers).filterMap fun e => e.2.vote

variable {peers : Store String PeerInfo} {peerOrder voteOrder : List String}

lemma coe_ballotList (h : ListsKeys peerOrder peers) :
    (ballotList peers peerOrder : Multiset String) = ballots peers := by
  rw [ballots, ← h.enumerates, Multiset.filterMap_coe, List.filterMap_map]
  rfl

lemma countVote_eq (counted : Store String ℕ × ℕ) (peer : PeerInfo) : countVote counted peer =
      (peer.vote.elim counted.1 (addVote counted.1), counted.2 + peer.vote.elim 0 fun _ => 1) := by
  by_cases hconnected : peer.connected <;> by_cases hvoted : peer.lastVote = "" <;>
    simp [countVote, PeerInfo.vote, hconnected, hvoted]

lemma foldl_countVote (order : List (String × PeerInfo)) (counts : Store String ℕ) (n : ℕ) :
    order.foldl (fun counted peer => countVote counted peer.2) (counts, n) =
      ((order.filterMap fun e => e.2.vote).foldl addVote counts,
        n + (order.filterMap fun e => e.2.vote).length) := by
  induction order generalizing counts n with
  | nil => rfl
  | cons e order ih =>
    rw [List.foldl_cons, countVote_eq, ih]
    cases hvote : e.2.vote with
    | none => simp [hvote]
    | some vote => simp [hvote, add_assoc, add_comm]

/-- **The loop over the peers counts the votes.** -/
lemma countVotes_eq (peers : Store String PeerInfo) (peerOrder : List String) :
    countVotes peers peerOrder =
      (tally (ballotList peers peerOrder), (ballotList peers peerOrder).length) := by
  rw [countVotes, foldl_countVote, zero_add]
  rfl

/-- **When there is a quorum, and for which state**: exactly if some state has more than half of the
votes, and then it is the winning one. -/
theorem initiateStateVoting_decides (hpeers : ListsKeys peerOrder peers)
    (hvotes : ListsKeys voteOrder (initiateStateVoting peers peerOrder voteOrder).voteCount) :
    ((initiateStateVoting peers peerOrder voteOrder).quorumReached = true ↔
      ∃ state, Wins (ballots peers) (ballots peers).card state) ∧
    ∀ state, Wins (ballots peers) (ballots peers).card state →
      (initiateStateVoting peers peerOrder voteOrder).winningState = state := by
  rw [initiateStateVoting, countVotes_eq] at hvotes ⊢
  rw [← coe_ballotList hpeers, Multiset.coe_card]
  refine ⟨?_, fun state hstate => hstate.scan_eq hvotes.enumerates le_rfl ""⟩
  rw [← Majority.lt_scan_iff hvotes.enumerates "", Bool.and_eq_true, decide_eq_true_eq,
    decide_eq_true_eq]
  refine and_iff_right_of_imp fun hmajority => ?_
  -- without votes there is no count above zero
  by_contra hnone
  have hempty : ballotList peers peerOrder = [] :=
    List.length_eq_zero_iff.mp (Nat.eq_zero_of_not_pos hnone)
  obtain ⟨state, hstate⟩ := (Majority.lt_scan_iff hvotes.enumerates "").mp hmajority
  rw [hempty] at hstate
  exact absurd hstate (by simp [Wins])

/-! ## State roots -/

structure ChainStateVerification where
  height : UInt64
  stateRoot : String
  consensusRoot : String
  responses : Store String String
  hasConsensus : Bool
  consensusReached : Bool

/-- One turn of the loop over the peers. A request that fails is only logged. -/
def collectResponse (request : String → Except String String) (responses : Store String String)
    (peer : String × PeerInfo) : Store String String :=
  if ¬ peer.2.connected then responses
  else
    match request peer.1 with
    | .error _ => responses
    | .ok stateRoot => responses.insert peer.1 stateRoot

def collectResponses (request : String → Except String String) (peers : Store String PeerInfo)
    (peerOrder : List String) : Store String String :=
  (inOrder peerOrder peers).foldl (collectResponse request) ∅

/-- The loop over the answers: how often each root has been answered. -/
def countRoots (responses : Store String String) (responseOrder : List String) : Store String ℕ :=
  tally ((inOrder responseOrder responses).map Prod.snd)

/-- The orders in which `VerifyChainState` goes through its maps. -/
structure LoopOrders where
  peers : List String
  responses : List String
  roots : List String

def verifyChainState (C : Crypto) (bc : Blockchain) (request : String → Except String String)
    (peers : Store String PeerInfo) (orders : LoopOrders) (height : UInt64) :
    Except String ChainStateVerification :=
  match (bc.getBlockByHeight C height).1 with
  | none => .error s!"local block not found at height {height}"
  | some localBlock =>
    let responses := collectResponses request peers orders.peers
    let rootCounts := countRoots responses orders.responses
    let (maxCount, consensusRoot) := scan (0, "") (inOrder orders.roots rootCounts)
    .ok
      { height := height
        stateRoot := localBlock.header.stateRoot
        consensusRoot := consensusRoot
        responses := responses
        hasConsensus := maxCount > peers.keys.card / 2
        consensusReached := consensusRoot = localBlock.header.stateRoot }

/-- The orders are orders of the maps that the loops go through. -/
structure LoopOrders.Valid (request : String → Except String String)
    (peers : Store String PeerInfo) (orders : LoopOrders) : Prop where
  lists_peers : ListsKeys orders.peers peers
  lists_responses : ListsKeys orders.responses (collectResponses request peers orders.peers)
  lists_roots : ListsKeys orders.roots
    (countRoots (collectResponses request peers orders.peers) orders.responses)

/-- What a peer answers, if it is there and connected and the request succeeds. -/
def answer (request : String → Except String String) (peers : Store String PeerInfo) (id : String) :
    Option String :=
  (peers.lookup id).bind fun peer => if peer.connected then (request id).toOption else none

def answeredRoots (responses : Store String String) : Multiset String :=
  responses.entries.map fun e => e.2

variable {request : String → Except String String}

def reply (request : String → Except String String) (peer : String × PeerInfo) :
    Option (String × String) :=
  if peer.2.connected then (request peer.1).toOption.map fun root => (peer.1, root) else none

lemma collectResponses_eq (peers : Store String PeerInfo) (peerOrder : List String) :
    collectResponses request peers peerOrder =
      ((inOrder peerOrder peers).filterMap (reply request)).foldl
        (fun responses e => responses.insert e.1 e.2) ∅ := by
  rw [collectResponses, List.foldl_filterMap]
  congr 1
  funext responses peer
  rw [collectResponse, reply]
  by_cases hconnected : peer.2.connected
  · rw [if_neg (not_not.mpr hconnected), if_pos hconnected]
    cases request peer.1 <;> rfl
  · rw [if_pos hconnected, if_neg hconnected]

lemma mem_replies (hpeers : ListsKeys peerOrder peers) {id root : String} :
    (id, root) ∈ (inOrder peerOrder peers).filterMap (reply request) ↔
      answer request peers id = some root := by
  rw [List.mem_filterMap, answer, Option.bind_eq_some_iff]
  constructor
  · rintro ⟨⟨j, peer⟩, hmem, hreply⟩
    rw [reply] at hreply
    split_ifs at hreply with hconnected
    obtain ⟨found, hfound, heq⟩ := Option.map_eq_some_iff.mp hreply
    obtain ⟨rfl, rfl⟩ := Prod.mk.inj heq
    exact ⟨peer, (KeyedLog.mem_inOrder.mp hmem).2, by rw [if_pos hconnected, hfound]⟩
  · rintro ⟨peer, hpeer, hroot⟩
    split_ifs at hroot with hconnected
    have hid : id ∈ peerOrder := hpeers.mem_iff.mpr (mem_of_lookup_eq_some hpeer)
    exact ⟨(id, peer), KeyedLog.mem_inOrder.mpr ⟨hid, hpeer⟩, by
      rw [reply, if_pos hconnected, hroot]; rfl⟩

/-- **The answers are collected**, in any order. -/
lemma lookup_collectResponses (hpeers : ListsKeys peerOrder peers) (id : String) :
    (collectResponses request peers peerOrder).lookup id = answer request peers id := by
  have hnodup : (((inOrder peerOrder peers).filterMap (reply request)).map Prod.fst).Nodup := by
    have hkeys := hpeers.enumerates.nodup_keys
    rw [List.Nodup, List.pairwise_map] at hkeys ⊢
    refine hkeys.filterMap _ fun e e' hne r hr r' hr' => ?_
    unfold reply at hr hr'
    split_ifs at hr hr'
    obtain ⟨-, -, rfl⟩ := Option.map_eq_some_iff.mp hr
    obtain ⟨-, -, rfl⟩ := Option.map_eq_some_iff.mp hr'
    exact hne
  rw [collectResponses_eq]
  obtain ⟨hmem, hother⟩ := KeyedLog.lookup_foldl_insert _ hnodup ∅ id
  cases hanswer : answer request peers id with
  | none =>
    rw [hother, lookup_empty]
    intro root hroot
    rw [mem_replies hpeers, hanswer] at hroot
    exact nomatch hroot
  | some root => exact hmem root ((mem_replies hpeers).mpr hanswer)

lemma coe_map_inOrder {responses : Store String String} {responseOrder : List String}
    (h : ListsKeys responseOrder responses) :
    ((inOrder responseOrder responses).map Prod.snd : Multiset String) =
      answeredRoots responses := by
  rw [answeredRoots, ← h.enumerates, Multiset.map_coe, List.map_map]
  rfl

lemma card_answeredRoots_le (hpeers : ListsKeys peerOrder peers) :
    (answeredRoots (collectResponses request peers peerOrder)).card ≤ peers.keys.card := by
  have hcard : ∀ responses : Store String String,
      (answeredRoots responses).card = responses.keys.card := by
    intro responses
    rw [answeredRoots, Multiset.card_map]
    exact (Multiset.card_map _ _).symm
  rw [hcard]
  refine Finset.card_le_card fun id hid => ?_
  rw [mem_keys, ← lookup_isSome, lookup_collectResponses hpeers] at hid
  obtain ⟨root, hroot⟩ := Option.isSome_iff_exists.mp hid
  obtain ⟨peer, hpeer, -⟩ := Option.bind_eq_some_iff.mp hroot
  exact mem_keys.mpr (mem_of_lookup_eq_some hpeer)

section Verification

variable {C : Crypto} {bc : Blockchain} {orders : LoopOrders} {height : UInt64}
  {v : ChainStateVerification}

lemma verifyChainState_inv (h : verifyChainState C bc request peers orders height = .ok v) :
    v.responses = collectResponses request peers orders.peers ∧ v.consensusRoot =
        (scan (0, "") (inOrder orders.roots (countRoots v.responses orders.responses))).2 ∧
      (v.hasConsensus = true ↔ peers.keys.card / 2 <
        (scan (0, "") (inOrder orders.roots (countRoots v.responses orders.responses))).1) := by
  unfold verifyChainState at h
  cases hblock : (bc.getBlockByHeight C height).1 with
  | none => rw [hblock] at h; cases h
  | some localBlock =>
    rw [hblock] at h
    obtain rfl := Except.ok.inj h
    exact ⟨rfl, rfl, decide_eq_true_iff⟩

/-- **When there is a consensus, and on which root**: exactly if more than half of the peers answer
with the same root, and then it is this one. -/
theorem verifyChainState_decides (h : verifyChainState C bc request peers orders height = .ok v)
    (horders : orders.Valid request peers) : (v.hasConsensus = true ↔
      ∃ root, Wins (answeredRoots v.responses) peers.keys.card root) ∧
    ∀ root, Wins (answeredRoots v.responses) peers.keys.card root → v.consensusRoot = root := by
  obtain ⟨hpeers, hresponses, hroots⟩ := horders
  obtain ⟨hcollected, hroot, hconsensus⟩ := verifyChainState_inv h
  rw [← hcollected] at hresponses hroots
  rw [hconsensus, hroot, ← coe_map_inOrder hresponses, Majority.lt_scan_iff hroots.enumerates]
  refine ⟨Iff.rfl, fun root hwins => hwins.scan_eq hroots.enumerates ?_ ""⟩
  rw [← Multiset.coe_card, coe_map_inOrder hresponses, hcollected]
  exact card_answeredRoots_le hpeers

end Verification

/-! ## Both -/

/-- **Decisions by majority do not depend on the order of a loop**: a vote has a quorum exactly if
some state has more than half of the votes, and then it wins; and two verifications with the same
answers agree on whether there is a consensus, and on its root. -/
theorem decisions_order_free (peers : Store String PeerInfo) :
    (∀ peerOrder voteOrder, ListsKeys peerOrder peers →
      ListsKeys voteOrder (initiateStateVoting peers peerOrder voteOrder).voteCount →
      ((initiateStateVoting peers peerOrder voteOrder).quorumReached = true ↔
        ∃ state, Wins (ballots peers) (ballots peers).card state) ∧
      ∀ state, Wins (ballots peers) (ballots peers).card state →
        (initiateStateVoting peers peerOrder voteOrder).winningState = state) ∧
    ∀ C bc request orders orders' height v v', orders.Valid request peers →
      orders'.Valid request peers → verifyChainState C bc request peers orders height = .ok v →
      verifyChainState C bc request peers orders' height = .ok v' →
      v.hasConsensus = v'.hasConsensus ∧
        (v.hasConsensus = true → v.consensusRoot = v'.consensusRoot) := by
  refine ⟨fun peerOrder voteOrder hpeers hvotes => initiateStateVoting_decides hpeers hvotes, ?_⟩
  intro C bc request orders orders' height v v' hvalid hvalid' h h'
  have hsame : v.responses = v'.responses := by
    rw [(verifyChainState_inv h).1, (verifyChainState_inv h').1]
    apply ext_lookup
    intro id
    rw [lookup_collectResponses hvalid.lists_peers, lookup_collectResponses hvalid'.lists_peers]
  obtain ⟨hconsensus, hroot⟩ := verifyChainState_decides h hvalid
  obtain ⟨hconsensus', hroot'⟩ := verifyChainState_decides h' hvalid'
  rw [← hsame] at hconsensus' hroot'
  refine ⟨Bool.eq_iff_iff.mpr (hconsensus.trans hconsensus'.symm), fun hreached => ?_⟩
  obtain ⟨root, hwins⟩ := hconsensus.mp hreached
  rw [hroot root hwins, hroot' root hwins]

def threePeers : Store String PeerInfo :=
  ((Finmap.singleton "p" { connected := true, lastVote := "a" }).insert "q"
    { connected := true, lastVote := "b" }).insert "r" { connected := true, lastVote := "a" }

/-- The peers answer the roots that they have voted for. -/
def answerVote (id : String) : Except String String :=
  ((threePeers.lookup id).map PeerInfo.lastVote).elim (.error "unknown peer") .ok

theorem decisions_order_free_threePeers :
    let orders : LoopOrders := ⟨["p", "q", "r"], ["q", "p", "r"], ["a", "b"]⟩
    let orders' : LoopOrders := ⟨["r", "q", "p"], ["p", "q", "r"], ["b", "a"]⟩
    ((initiateStateVoting threePeers ["p", "q", "r"] ["a", "b"]).winningState = "a" ∧
      (initiateStateVoting threePeers ["r", "q", "p"] ["b", "a"]).winningState = "a") ∧
    ∃ v v', verifyChainState Crypto.sample { chain := [{}] } answerVote threePeers orders 0 =
        .ok v ∧
      verifyChainState Crypto.sample { chain := [{}] } answerVote threePeers orders' 0 = .ok v' ∧
      v.hasConsensus = true ∧ v'.hasConsensus = true ∧ v.consensusRoot = v'.consensusRoot := by
  intro orders orders'
  have hwins : Wins (ballots threePeers) (ballots threePeers).card "a" := by decide +kernel
  have hvalid : orders.Valid answerVote threePeers :=
    ⟨by decide +kernel, by decide +kernel, by decide +kernel⟩
  have hvalid' : orders'.Valid answerVote threePeers :=
    ⟨by decide +kernel, by decide +kernel, by decide +kernel⟩
  obtain ⟨hvoting, hverification⟩ := decisions_order_free threePeers
  obtain ⟨hsame, hroot⟩ := hverification Crypto.sample { chain := [{}] } answerVote orders orders' 0
    _ _ hvalid hvalid' rfl rfl
  have hconsensus : decide ((scan (0, "") (inOrder orders.roots (countRoots
      (collectResponses answerVote threePeers orders.peers) orders.responses))).1 >
      threePeers.keys.card / 2) = true := by decide +kernel
  exact ⟨⟨(hvoting ["p", "q", "r"] ["a", "b"] (by decide +kernel) (by decide +kernel)).2 "a" hwins,
    (hvoting ["r", "q", "p"] ["b", "a"] (by decide +kernel) (by decide +kernel)).2 "a" hwins⟩,
    _, _, rfl, rfl, hconsensus, hsame.symm.trans hconsensus, hroot hconsensus⟩

end StateVoting

end HybridChain
