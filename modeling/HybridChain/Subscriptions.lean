import HybridChain.Lib.InverseIndex
import HybridChain.Lib.Run

/-!
# Subscriptions of clients

The `SubscriptionManager` of `RPC/server.go` keeps its subscriptions in a map and, for every client,
their identifiers in another one. Those without activity for half an hour are deleted.

The identifiers that `uuid.New` makes are arguments. The inner maps of `clientSubscriptions` are
sets. A pass of the cleanup deletes no key but the one it is at; the order of its loop is an
argument. What nothing here reads of a subscription is left out.

## Main definitions

* `addSubscription`, `removeSubscription`, `cleanupStaleSubscriptions`
* `Consistent`: the two maps fit

## Main results

* `subscriptions_consistent`: they always do
-/

namespace HybridChain

open KeyedLog (Store)
open InverseIndex (members link unlink Indexes)

/-! ## The functions -/

/-- `Subscription`: the fields that are read. -/
structure Subscription where
  clientIP : String
  lastActivity : ℤ

structure SubscriptionManager where
  subscriptions : Store String Subscription := ∅
  clientSubscriptions : Store String (Finset String) := ∅
  maxPerClient : ℤ

namespace SubscriptionManager

variable (sm : SubscriptionManager)

/-- `AddSubscription`, with the new identifier. -/
def addSubscription (clientIP subID : String) (now : ℤ) :
    SubscriptionManager × Except String String :=
  let clients :=
    match sm.clientSubscriptions.lookup clientIP with
    | some _ => sm.clientSubscriptions
    | none => sm.clientSubscriptions.insert clientIP ∅
  let subs := members clients clientIP
  if (subs.card : ℤ) ≥ sm.maxPerClient then
    ({ sm with clientSubscriptions := clients }, .error "subscription limit reached for client")
  else
    let sub : Subscription := { clientIP := clientIP, lastActivity := now }
    ({ sm with
        subscriptions := sm.subscriptions.insert subID sub
        clientSubscriptions := clients.insert clientIP (insert subID subs) }, .ok subID)

/-- A subscription is taken out of both maps. -/
def drop (subID : String) (sub : Subscription) : SubscriptionManager :=
  let clients :=
    match sm.clientSubscriptions.lookup sub.clientIP with
    | none => sm.clientSubscriptions
    | some subs =>
      let subs := subs.erase subID
      if subs.card = 0 then sm.clientSubscriptions.erase sub.clientIP
      else sm.clientSubscriptions.insert sub.clientIP subs
  { sm with subscriptions := sm.subscriptions.erase subID, clientSubscriptions := clients }

def removeSubscription (subID : String) : SubscriptionManager × Bool :=
  match sm.subscriptions.lookup subID with
  | none => (sm, false)
  | some sub => (sm.drop subID sub, true)

/-- The time after which a subscription is stale: thirty minutes in nanoseconds. -/
def staleThreshold : ℤ := 30 * 60 * 1000000000

/-- One turn of the loop of `cleanupStaleSubscriptions`. -/
def dropStale (now : ℤ) (sm : SubscriptionManager) (id : String) : SubscriptionManager :=
  match sm.subscriptions.lookup id with
  | none => sm
  | some sub => if now - sub.lastActivity > staleThreshold then sm.drop id sub else sm

/-- A pass of `cleanupStaleSubscriptions`. -/
def cleanupStaleSubscriptions (order : List String) (now : ℤ) : SubscriptionManager :=
  order.foldl (dropStale now) sm

inductive Call where
  | addSubscription (clientIP subID : String) (now : ℤ)
  | removeSubscription (subID : String)
  | cleanupStaleSubscriptions (order : List String) (now : ℤ)

def step : Call → SubscriptionManager
  | .addSubscription clientIP subID now => (sm.addSubscription clientIP subID now).1
  | .removeSubscription subID => (sm.removeSubscription subID).1
  | .cleanupStaleSubscriptions order now => sm.cleanupStaleSubscriptions order now

/-- A new identifier is not in use. -/
def Fresh : Call → Prop
  | .addSubscription _ subID _ => subID ∉ sm.subscriptions
  | _ => True

/-! ## Consistency -/

/-- The maps agree, every client in the second one has a subscription, and none has too many. -/
structure Consistent : Prop where
  indexes : Indexes Subscription.clientIP sm.subscriptions sm.clientSubscriptions
  card_le : ∀ clientIP, ((members sm.clientSubscriptions clientIP).card : ℤ) ≤ sm.maxPerClient

/-- The subscriptions of a client that are in the first map. -/
def live (clientIP : String) : Finset String := sm.subscriptions.keys.filter fun id =>
    (sm.subscriptions.lookup id).any fun sub => sub.clientIP = clientIP

variable {sm} {clientIP subID : String} {now : ℤ}

lemma addSubscription_eq (hmax : 1 ≤ sm.maxPerClient) : sm.addSubscription clientIP subID now =
      if ((members sm.clientSubscriptions clientIP).card : ℤ) ≥ sm.maxPerClient then
        (sm, .error "subscription limit reached for client") else
        ({ sm with
            subscriptions := sm.subscriptions.insert subID ⟨clientIP, now⟩
            clientSubscriptions := link sm.clientSubscriptions clientIP subID }, .ok subID) := by
  rw [addSubscription]
  cases hlookup : sm.clientSubscriptions.lookup clientIP with
  | some subs => rfl
  | none =>
    -- a new client is below the limit
    have hnone : members sm.clientSubscriptions clientIP = ∅ := by
      rw [members, hlookup, Option.getD_none]
    have hempty : members (sm.clientSubscriptions.insert clientIP ∅) clientIP = ∅ := by
      rw [members, Finmap.lookup_insert, Option.getD_some]
    have hbelow : ¬ (((∅ : Finset String).card : ℕ) : ℤ) ≥ sm.maxPerClient := by
      rw [Finset.card_empty]
      omega
    simp only [hempty, hnone, if_neg hbelow, link, Finmap.insert_insert]

lemma drop_eq (sub : Subscription) : sm.drop subID sub = { sm with
    subscriptions := sm.subscriptions.erase subID
    clientSubscriptions := unlink sm.clientSubscriptions sub.clientIP subID } := by
  rw [drop, unlink]
  cases sm.clientSubscriptions.lookup sub.clientIP <;> rfl

lemma Consistent.drop (h : sm.Consistent) {sub : Subscription}
    (hsub : sm.subscriptions.lookup subID = some sub) : (sm.drop subID sub).Consistent := by
  rw [drop_eq]
  refine ⟨h.indexes.unlink hsub, fun client => ?_⟩
  rw [InverseIndex.members_unlink]
  split_ifs
  · have hle := Finset.card_erase_le (s := members sm.clientSubscriptions sub.clientIP) (a := subID)
    have hbound := h.card_le sub.clientIP
    simp only
    omega
  · exact h.card_le client

lemma Consistent.addSubscription (h : sm.Consistent) (hmax : 1 ≤ sm.maxPerClient)
    (hfresh : subID ∉ sm.subscriptions) :
    (sm.addSubscription clientIP subID now).1.Consistent := by
  rw [addSubscription_eq hmax]
  split_ifs with hlimit
  · exact h
  · refine ⟨h.indexes.link (Finmap.lookup_eq_none.mpr hfresh) ⟨clientIP, now⟩, fun client => ?_⟩
    rw [InverseIndex.members_link]
    split_ifs
    · have hle := Finset.card_insert_le subID (members sm.clientSubscriptions clientIP)
      simp only
      omega
    · exact h.card_le client

lemma Consistent.cleanupStaleSubscriptions (h : sm.Consistent) (order : List String) (now : ℤ) :
    (sm.cleanupStaleSubscriptions order now).Consistent := by
  induction order generalizing sm with
  | nil => exact h
  | cons id order ih =>
    have hdrop : (dropStale now sm id).Consistent := by
      rw [dropStale]
      cases hsub : sm.subscriptions.lookup id with
      | none => exact h
      | some sub =>
        simp only
        split_ifs
        · exact h.drop hsub
        · exact h
    exact ih hdrop

lemma maxPerClient_cleanupStaleSubscriptions (order : List String) :
    (sm.cleanupStaleSubscriptions order now).maxPerClient = sm.maxPerClient := by
  induction order generalizing sm with
  | nil => rfl
  | cons id order ih =>
    have hdrop : (dropStale now sm id).maxPerClient = sm.maxPerClient := by
      rw [dropStale]
      cases sm.subscriptions.lookup id with
      | none => rfl
      | some sub =>
        simp only
        split_ifs <;> rfl
    exact ih.trans hdrop

lemma maxPerClient_step (call : Call) : (sm.step call).maxPerClient = sm.maxPerClient := by
  cases call with
  | addSubscription clientIP subID now =>
    simp only [step, SubscriptionManager.addSubscription]
    split_ifs <;> rfl
  | removeSubscription subID =>
    simp only [step, removeSubscription]
    cases sm.subscriptions.lookup subID <;> rfl
  | cleanupStaleSubscriptions order now => exact maxPerClient_cleanupStaleSubscriptions order

/-- **Every call keeps the state consistent.** -/
lemma consistent_step (h : sm.Consistent) (hmax : 1 ≤ sm.maxPerClient) {call : Call}
    (hfresh : sm.Fresh call) : (sm.step call).Consistent := by
  cases call with
  | addSubscription clientIP subID now => exact h.addSubscription hmax hfresh
  | removeSubscription subID =>
    simp only [step, removeSubscription]
    cases hsub : sm.subscriptions.lookup subID with
    | none => exact h
    | some sub => exact h.drop hsub
  | cleanupStaleSubscriptions order now => exact h.cleanupStaleSubscriptions order now

lemma Consistent.addSubscription_fails_iff (h : sm.Consistent) (hmax : 1 ≤ sm.maxPerClient) :
    (∃ err, (sm.addSubscription clientIP subID now).2 = .error err) ↔
      ((sm.live clientIP).card : ℤ) = sm.maxPerClient := by
  rw [addSubscription_eq hmax, live, ← h.indexes.members_eq]
  have hle := h.card_le clientIP
  split_ifs with hlimit
  · exact iff_of_true ⟨_, rfl⟩ (le_antisymm hle hlimit)
  · refine iff_of_false ?_ fun heq => hlimit heq.ge
    rintro ⟨err, herr⟩
    cases herr

end SubscriptionManager

open SubscriptionManager

/-- **The tables of a subscription manager stay consistent** in every run with fresh identifiers: an
identifier is in the map with a client exactly if it is in the client's set, no set is empty or too
large, and a subscription is refused exactly if the client has as many as it may have. -/
theorem subscriptions_consistent (maxPerClient : ℤ) (hmax : 1 ≤ maxPerClient)
    (calls : List SubscriptionManager.Call)
    (hfresh : Run.Along SubscriptionManager.step SubscriptionManager.Fresh
      { maxPerClient := maxPerClient } calls) :
    ∀ sm ∈ List.scanl SubscriptionManager.step { maxPerClient := maxPerClient } calls,
      (∀ id clientIP, (∃ sub, sm.subscriptions.lookup id = some sub ∧ sub.clientIP = clientIP) ↔
        ∃ subs, sm.clientSubscriptions.lookup clientIP = some subs ∧ id ∈ subs) ∧
      (∀ clientIP subs, sm.clientSubscriptions.lookup clientIP = some subs →
        subs.Nonempty ∧ (subs.card : ℤ) ≤ maxPerClient) ∧
      ∀ clientIP subID now, (∃ err, (sm.addSubscription clientIP subID now).2 = .error err) ↔
        ((sm.live clientIP).card : ℤ) = maxPerClient := by
  have hinvariant : ∀ sm ∈ List.scanl SubscriptionManager.step { maxPerClient := maxPerClient }
      calls, sm.Consistent ∧ sm.maxPerClient = maxPerClient := by
    refine Run.forall_mem_scanl (fun sm call hcall hsm => ?_) ?_ hfresh
    · exact ⟨consistent_step hsm.1 (hsm.2 ▸ hmax) hcall, (maxPerClient_step call).trans hsm.2⟩
    · refine ⟨⟨.empty, fun clientIP => ?_⟩, rfl⟩
      simp only [members, Finmap.lookup_empty, Option.getD_none, Finset.card_empty]
      omega
  intro sm hsm
  obtain ⟨hconsistent, hlimit⟩ := hinvariant sm hsm
  refine ⟨fun id clientIP => ?_, fun clientIP subs hsubs => ⟨?_, ?_⟩, fun clientIP subID now => ?_⟩
  · rw [← hconsistent.indexes.mem_iff, InverseIndex.mem_members]
  · exact hconsistent.indexes.nonempty clientIP subs hsubs
  · have hle := hconsistent.card_le clientIP
    rwa [members, hsubs, Option.getD_some, hlimit] at hle
  · rw [hconsistent.addSubscription_fails_iff (hlimit ▸ hmax), hlimit]

theorem subscriptions_consistent_one :
    let calls := [SubscriptionManager.Call.addSubscription "client" "first" 0]
    ((1 : ℤ) ≤ 1 ∧ Run.Along SubscriptionManager.step SubscriptionManager.Fresh
      { maxPerClient := 1 } calls) ∧
    ∃ err, ((calls.foldl SubscriptionManager.step { maxPerClient := 1 }).addSubscription "client"
      "second" 0).2 = .error err := by
  intro calls
  have hfresh : Run.Along SubscriptionManager.step SubscriptionManager.Fresh
      { maxPerClient := 1 } calls := ⟨Finmap.notMem_empty, trivial⟩
  refine ⟨⟨le_rfl, hfresh⟩, ?_⟩
  refine ((subscriptions_consistent 1 le_rfl calls hfresh _ (Run.foldl_mem_scanl _ _)).2.2 _ _
    _).mpr ?_
  decide +kernel

end HybridChain
