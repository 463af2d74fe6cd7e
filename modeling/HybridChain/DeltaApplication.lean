import HybridChain.DeltaSync

/-!
# The loops of a difference

`ApplyDeltaUpdate` of `utxo.go` calls `VerifyDeltaUpdate`, which applies the difference to a copy
and compares roots, and then applies it to the pool. The test `Amount <= 0` lets NaN pass.

`amount` is a rational number. A predicate says of which outputs the amount is NaN; their `amount`
is not looked at.

## Main definitions

* `applyDeltaUpdateIn`, `verifyDeltaUpdateIn`: with the orders in which maps are visited
* `AppliedVerified`: what an applied update should be

## Main results

* `applyDeltaUpdateIn_eq`: the orders do not matter
* `applyDeltaUpdateIn_spec`: it is this, exactly without NaN
-/

namespace HybridChain

open KeyedLog (Store Enumerates)
open Crypto (sample)

/-! ## Amounts that may be NaN -/

namespace UTXO

variable (isNaN : UTXO → Bool) (utxo : UTXO)

/-- `Amount <= 0`, which is false for NaN. -/
def NonPositive : Prop := isNaN utxo = false ∧ utxo.amount ≤ 0

/-- `Amount > 0`, which is false for NaN too. -/
def Positive : Prop := isNaN utxo = false ∧ 0 < utxo.amount

instance : Decidable (utxo.NonPositive isNaN) := inferInstanceAs (Decidable (_ ∧ _))

/-- What `%.8f` prints for the amount. -/
def amountText : String := if isNaN utxo then "NaN" else Text.fixed 8 utxo.amount

end UTXO

/-- **The orders in which one call of `ApplyDeltaUpdate` visits the maps**: the outputs when they
are copied, and the updates twice. -/
structure DeltaVisits (pool : UTXOPool) (delta : DeltaUpdate) where
  copied : List (String × UTXO)
  verified : List (String × UTXO)
  applied : List (String × UTXO)
  enumerates_copied : Enumerates copied pool.utxos
  enumerates_verified : Enumerates verified delta.utxoUpdates
  enumerates_applied : Enumerates applied delta.utxoUpdates

instance (pool : UTXOPool) (delta : DeltaUpdate) : Nonempty (DeltaVisits pool delta) := by
  obtain ⟨copied, hcopied⟩ := KeyedLog.exists_enumerates pool.utxos
  obtain ⟨updates, hupdates⟩ := KeyedLog.exists_enumerates delta.utxoUpdates
  exact ⟨copied, updates, updates, hcopied, hupdates, hupdates⟩

namespace UTXOPool

variable (C : Crypto) (isNaN : UTXO → Bool) {pool : UTXOPool} {delta : DeltaUpdate} (host : Host)

/-! ## The procedures -/

/-- `CalculateMerkleRoot`. -/
def merkleRootIn (utxos : Store String UTXO) : String :=
  calculateMerkleRootBy C (fun utxo => utxo.merkleLine (utxo.amountText isNaN)) utxos

/-- `verifyUTXO`. -/
def verifyUTXOIn (utxo : UTXO) : Except String Unit :=
  if utxo.transactionID = "" ∨ utxo.NonPositive isNaN then .error "invalid UTXO data" else .ok ()

def writeEntries (utxos : Store String UTXO) (entries : List (String × UTXO)) : Store String UTXO :=
  entries.foldl (fun utxos e => utxos.insert e.1 e.2) utxos

/-- A loop that deletes keys, which may be repeated or absent. -/
def deleteKeys (utxos : Store String UTXO) (keys : List String) : Store String UTXO :=
  keys.foldl (fun utxos key => utxos.erase key) utxos

/-- One turn of the loop of `VerifyDeltaUpdate` over the updates. -/
def writeVerified (utxos : Store String UTXO) (e : String × UTXO) :
    Except String (Store String UTXO) :=
  match verifyUTXOIn isNaN e.2 with
  | .error err => .error ("invalid UTXO in delta: " ++ err)
  | .ok () => .ok (utxos.insert e.1 e.2)

/-- `VerifyDeltaUpdate`, on a copy of the outputs. The first update that is not well formed ends
it. -/
def verifyDeltaUpdateIn (visits : DeltaVisits pool delta) : Except String Unit := do
  let tempPool := writeEntries ∅ visits.copied
  let tempPool ← visits.verified.foldlM (writeVerified isNaN) tempPool
  let tempPool := deleteKeys tempPool delta.utxoDeletions
  if merkleRootIn C isNaN tempPool ≠ delta.stateRoot then
    throw "state root mismatch after delta application"

/-- `ApplyDeltaUpdate`. -/
def applyDeltaUpdateIn (visits : DeltaVisits pool delta) : (UTXOPool × Host) × Except String Unit :=
  match verifyDeltaUpdateIn C isNaN visits with
  | .error err => ((pool, host), .error ("delta verification failed: " ++ err))
  | .ok () =>
    let utxos := writeEntries pool.utxos visits.applied
    let utxos := deleteKeys utxos delta.utxoDeletions
    let pool := { pool with
      utxos := utxos
      lastUpdateTime := delta.updateTimestamp
      merkleRoot := merkleRootIn C isNaN utxos }
    ((pool, (host.saveState pool.utxos).1), .ok ())

/-! ## The orders do not matter -/

variable {isNaN} {updates : List (String × UTXO)} (visits : DeltaVisits pool delta)

lemma deleteKeys_writeEntries
    (h : Enumerates updates delta.utxoUpdates) (utxos : Store String UTXO) :
    deleteKeys (writeEntries utxos updates) delta.utxoDeletions = delta.patch utxos := by
  rw [writeEntries, h.foldl_insert]
  rfl

lemma writeEntries_copied : writeEntries ∅ visits.copied = pool.utxos := by
  rw [writeEntries, visits.enumerates_copied.foldl_insert, Finmap.union_empty]

lemma verifyUTXOIn_eq_ok_iff {utxo : UTXO} :
    verifyUTXOIn isNaN utxo = .ok () ↔ utxo.transactionID ≠ "" ∧ ¬ utxo.NonPositive isNaN := by
  rw [← not_or, verifyUTXOIn]
  split_ifs with h
  · exact iff_of_false (nomatch ·) (not_not_intro h)
  · exact iff_of_true rfl h

lemma foldlM_writeVerified_of_forall
    (h : ∀ e ∈ updates, verifyUTXOIn isNaN e.2 = .ok ()) (utxos : Store String UTXO) :
    updates.foldlM (writeVerified isNaN) utxos = .ok (writeEntries utxos updates) := by
  induction updates generalizing utxos with
  | nil => rfl
  | cons e updates ih =>
    have he : writeVerified isNaN utxos e = .ok (utxos.insert e.1 e.2) := by
      rw [writeVerified, h e (by simp)]
    rw [List.foldlM_cons, he]
    exact ih (fun e' he' => h e' (by simp [he'])) _

/-- The loop that verifies ends with an error if any update is not well formed, and the error does
not depend on which one comes first. -/
lemma foldlM_writeVerified_of_exists
    (h : ∃ e ∈ updates, verifyUTXOIn isNaN e.2 ≠ .ok ()) (utxos : Store String UTXO) :
    updates.foldlM (writeVerified isNaN) utxos =
      .error "invalid UTXO in delta: invalid UTXO data" := by
  induction updates generalizing utxos with
  | nil => simp at h
  | cons e updates ih =>
    rw [List.foldlM_cons]
    by_cases he : verifyUTXOIn isNaN e.2 = .ok ()
    · have hwrite : writeVerified isNaN utxos e = .ok (utxos.insert e.1 e.2) := by
        rw [writeVerified, he]
      obtain ⟨e', hmem, hinvalid⟩ := h
      rw [hwrite]
      refine ih ⟨e', (List.mem_cons.mp hmem).resolve_left ?_, hinvalid⟩ _
      rintro rfl
      exact hinvalid he
    · have herror : verifyUTXOIn isNaN e.2 = .error "invalid UTXO data" := by
        unfold verifyUTXOIn at he ⊢
        split_ifs at he ⊢
        · rfl
        · exact absurd rfl he
      have hwrite : writeVerified isNaN utxos e =
          .error "invalid UTXO in delta: invalid UTXO data" := by
        rw [writeVerified, herror]
        rfl
      rw [hwrite]
      rfl

/-- **Verification does not depend on the orders**: it looks at the updates, and at the root of the
patch. -/
lemma verifyDeltaUpdateIn_eq : verifyDeltaUpdateIn C isNaN visits =
      if ¬ ∀ e ∈ visits.verified, verifyUTXOIn isNaN e.2 = .ok () then
        .error "invalid UTXO in delta: invalid UTXO data"
      else if merkleRootIn C isNaN (delta.patch pool.utxos) ≠ delta.stateRoot then
        .error "state root mismatch after delta application"
      else .ok () := by
  simp only [verifyDeltaUpdateIn, writeEntries_copied]
  by_cases hvalid : ∀ e ∈ visits.verified, verifyUTXOIn isNaN e.2 = .ok ()
  · rw [foldlM_writeVerified_of_forall hvalid, if_neg (not_not_intro hvalid),
      ← deleteKeys_writeEntries visits.enumerates_verified pool.utxos]
    rfl
  · rw [if_pos hvalid]
    push Not at hvalid
    rw [foldlM_writeVerified_of_exists hvalid]
    rfl

/-- **No order matters, and without NaN it is the procedure on rational amounts.** -/
theorem applyDeltaUpdateIn_eq :
    applyDeltaUpdateIn C (fun _ => false) host visits = pool.applyDeltaUpdate C host delta := by
  have hpatch := deleteKeys_writeEntries visits.enumerates_applied pool.utxos
  have hroot : merkleRootIn C (fun _ => false) = calculateMerkleRoot C := rfl
  have hutxo : ∀ utxo, verifyUTXOIn (fun _ => false) utxo = verifyUTXO utxo := by
    intro utxo
    simp only [verifyUTXOIn, verifyUTXO, UTXO.NonPositive, true_and]
  have hverify : verifyDeltaUpdateIn C (fun _ => false) visits =
      pool.verifyDeltaUpdate C delta := by
    have hentries : (∀ e ∈ visits.verified, verifyUTXO e.2 = .ok ()) ↔
        ∀ e ∈ delta.utxoUpdates.entries, (verifyUTXO e.2).isOk := by
      rw [← visits.enumerates_verified]
      simp only [Multiset.mem_coe, List.forall_mem_map]
      refine forall₂_congr fun e _ => ?_
      cases verifyUTXO e.2 <;> simp [Except.isOk, Except.toBool]
    rw [verifyDeltaUpdateIn_eq, verifyDeltaUpdate]
    simp only [hutxo, hentries, hroot]
  rw [applyDeltaUpdateIn, applyDeltaUpdate, hverify]
  cases pool.verifyDeltaUpdate C delta with
  | error err => rfl
  | ok _ => simp only [hpatch, hroot]

/-! ## Atomic and verified -/

/-- **What an update that was applied promises**: the stored root and the root of the new outputs
are the root that the sender states, every updated output has an identifier and a positive amount,
and no deleted key is present. -/
structure AppliedVerified (isNaN : UTXO → Bool) (delta : DeltaUpdate) (after : UTXOPool) :
    Prop where
  stored : after.merkleRoot = delta.stateRoot
  recomputed : merkleRootIn C isNaN after.utxos = delta.stateRoot
  updated : ∀ key utxo, delta.utxoUpdates.lookup key = some utxo →
    utxo.transactionID ≠ "" ∧ utxo.Positive isNaN
  deleted : ∀ key ∈ delta.utxoDeletions, key ∉ after.utxos

/-- **An error changes nothing, and a success is verified exactly if no updated amount is NaN**, in
whatever order the maps are visited. -/
theorem applyDeltaUpdateIn_spec (visits : DeltaVisits pool delta) :
    (∀ err, (applyDeltaUpdateIn C isNaN host visits).2 = .error err →
        (applyDeltaUpdateIn C isNaN host visits).1.1.utxos = pool.utxos ∧
          (applyDeltaUpdateIn C isNaN host visits).1.1.merkleRoot = pool.merkleRoot) ∧
      ((applyDeltaUpdateIn C isNaN host visits).2 = .ok () →
        (AppliedVerified C isNaN delta (applyDeltaUpdateIn C isNaN host visits).1.1 ↔
          ∀ key utxo, delta.utxoUpdates.lookup key = some utxo → isNaN utxo = false)) := by
  have hpatch := deleteKeys_writeEntries visits.enumerates_applied pool.utxos
  have hverified : verifyDeltaUpdateIn C isNaN visits = _ := verifyDeltaUpdateIn_eq C visits
  by_cases hvalid : ∀ e ∈ visits.verified, verifyUTXOIn isNaN e.2 = .ok ()
  swap
  · rw [if_pos hvalid] at hverified
    simp [applyDeltaUpdateIn, hverified]
  rw [if_neg (not_not_intro hvalid)] at hverified
  by_cases hroot : merkleRootIn C isNaN (delta.patch pool.utxos) = delta.stateRoot
  swap
  · rw [if_pos hroot] at hverified
    simp [applyDeltaUpdateIn, hverified]
  rw [if_neg (not_not_intro hroot)] at hverified
  simp only [applyDeltaUpdateIn, hverified, hpatch]
  refine ⟨by simp, fun _ => ⟨fun h key utxo hutxo => (h.updated key utxo hutxo).2.1, ?_⟩⟩
  intro hnum
  refine ⟨hroot, hroot, fun key utxo hutxo => ?_, fun key hkey => ?_⟩
  · obtain ⟨hID, hpos⟩ :=
      verifyUTXOIn_eq_ok_iff.mp (hvalid (key, utxo) (visits.enumerates_verified.mem_iff.mpr hutxo))
    exact ⟨hID, hnum key utxo hutxo, not_le.mp fun hle => hpos ⟨hnum key utxo hutxo, hle⟩⟩
  · rw [← Finmap.lookup_eq_none, lookup_patch, if_pos hkey]

/-- One update of an empty pool. -/
def oneUpdate (isNaN : UTXO → Bool) : DeltaUpdate where
  lastSyncTime := 0
  utxoUpdates := Finmap.singleton "p-0" { transactionID := "p", amount := 1 }
  utxoDeletions := []
  stateRoot := merkleRootIn sample isNaN
    (Finmap.singleton "p-0" { transactionID := "p", amount := 1 })
  updateTimestamp := 0

def oneUpdateVisits (isNaN : UTXO → Bool) : DeltaVisits {} (oneUpdate isNaN) where
  copied := []
  verified := [("p-0", { transactionID := "p", amount := 1 })]
  applied := [("p-0", { transactionID := "p", amount := 1 })]
  enumerates_copied := rfl
  enumerates_verified := rfl
  enumerates_applied := rfl

lemma applyDeltaUpdateIn_oneUpdate (isNaN : UTXO → Bool) :
    (applyDeltaUpdateIn sample isNaN {} (oneUpdateVisits isNaN)).2 = .ok () := by
  have hverified : verifyDeltaUpdateIn sample isNaN (oneUpdateVisits isNaN) = _ :=
    verifyDeltaUpdateIn_eq sample _
  have hvalid : ∀ e ∈ (oneUpdateVisits isNaN).verified, verifyUTXOIn isNaN e.2 = .ok () := by
    intro e he
    obtain rfl := List.mem_singleton.mp he
    exact verifyUTXOIn_eq_ok_iff.mpr ⟨by decide, fun h => absurd h.2 (by decide +kernel)⟩
  rw [if_neg (not_not_intro hvalid), if_neg (not_not_intro ?_)] at hverified
  · simp only [applyDeltaUpdateIn, hverified]
  · rfl

theorem oneUpdate_applied :
    (applyDeltaUpdateIn sample (fun _ => false) {} (oneUpdateVisits fun _ => false)).2 = .ok () ∧
      AppliedVerified sample (fun _ => false) (oneUpdate fun _ => false)
        (applyDeltaUpdateIn sample (fun _ => false) {} (oneUpdateVisits fun _ => false)).1.1 := by
  have hok := applyDeltaUpdateIn_oneUpdate fun _ => false
  exact ⟨hok, ((applyDeltaUpdateIn_spec sample {} _).2 hok).mpr fun _ _ _ => rfl⟩

/-- An update whose amount is NaN is applied. -/
theorem nanUpdate_applied :
    (applyDeltaUpdateIn sample (fun _ => true) {} (oneUpdateVisits fun _ => true)).2 = .ok () ∧
      ¬ AppliedVerified sample (fun _ => true) (oneUpdate fun _ => true)
        (applyDeltaUpdateIn sample (fun _ => true) {} (oneUpdateVisits fun _ => true)).1.1 := by
  refine ⟨applyDeltaUpdateIn_oneUpdate fun _ => true, fun h => ?_⟩
  have hpos := (h.updated "p-0" { transactionID := "p", amount := 1 } (by decide +kernel)).2
  exact absurd hpos.1 (by decide)

end UTXOPool

end HybridChain
