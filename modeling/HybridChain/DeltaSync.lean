import HybridChain.PoolState

/-!
# Synchronisation by differences

A sender records what `AddUTXO` writes in `updates` and what `RemoveUTXO` deletes in `deletions`;
`ApplyDeltaUpdate` replays all updates before all deletions. Neither record is ever cleared.

## Main definitions

* `Edit`, `edits`: the sender's calls
* `Replayable`: the records say what has happened

## Main results

* `delta_converges_iff`: just then the receiver ends with the sender's outputs
* `replayable_of_fresh`, `recreated_not_applied`
-/

namespace HybridChain

open List Finmap
open KeyedLog (Store)
open Crypto (sample)

/-- A change that a sender makes. -/
inductive Edit where
  | addUTXO (tx : Transaction) (blockHeight : UInt64)
  | removeUTXO (txID : String) (outputIndex : ℤ)

namespace Edit

def created : Edit → List String
  | .addUTXO tx _ => tx.outputKeys
  | .removeUTXO _ _ => []

/-- The keys that an edit marks, if they are present. -/
def spent : Edit → List String
  | .addUTXO tx _ => tx.spentKeys
  | .removeUTXO _ _ => []

def removed : Edit → List String
  | .addUTXO _ _ => []
  | .removeUTXO txID outputIndex => [utxoKey txID outputIndex]

/-- Transactions have an identifier and positive amounts. -/
def WellFormed : Edit → Prop
  | .addUTXO tx _ => tx.transactionID ≠ "" ∧ ∀ output ∈ tx.outputs, 0 < output.amount
  | .removeUTXO _ _ => True

end Edit

namespace UTXOPool

variable (C : Crypto)

def edit (s : UTXOPool × Host) (e : Edit × ℤ) : UTXOPool × Host :=
  match e.1 with
  | .addUTXO tx blockHeight => s.1.addUTXO C s.2 tx blockHeight e.2
  | .removeUTXO txID outputIndex => s.1.removeUTXO C s.2 txID outputIndex e.2

def edits (pool : UTXOPool) (host : Host) (es : List (Edit × ℤ)) : UTXOPool :=
  (es.foldl (edit C) (pool, host)).1

/-! ## The record of one key -/

/-- The record of a key across some calls: if the key is written, its output is recorded; otherwise
neither output nor record change. -/
structure Tracked (key : String) (W : Prop) (p p' : UTXOPool) : Prop where
  written : W → key ∈ p'.utxos ∧ p'.updates.lookup key = p'.utxos.lookup key
  other : ¬ W → p'.utxos.lookup key = p.utxos.lookup key ∧
    p'.updates.lookup key = p.updates.lookup key

namespace Tracked

variable {key : String} {W W₁ W₂ : Prop} {p p₁ p₂ : UTXOPool}

lemma refl (key : String) (p : UTXOPool) : Tracked key False p p where
  written := False.elim
  other _ := ⟨rfl, rfl⟩

lemma congr (h : Tracked key W₁ p p₁) (hW : W₁ ↔ W₂) : Tracked key W₂ p p₁ where
  written h₂ := h.written (hW.mpr h₂)
  other h₂ := h.other (mt hW.mp h₂)

lemma mem_iff (h : Tracked key W p p₁) : key ∈ p₁.utxos ↔ W ∨ key ∈ p.utxos := by
  by_cases hW : W
  · exact iff_of_true (h.written hW).1 (.inl hW)
  · rw [← lookup_isSome, (h.other hW).1, lookup_isSome]
    exact (or_iff_right hW).symm

lemma trans (h₁ : Tracked key W₁ p p₁) (h₂ : Tracked key W₂ p₁ p₂) :
    Tracked key (W₁ ∨ W₂) p p₂ where
  written hW := by
    by_cases hW₂ : W₂
    · exact h₂.written hW₂
    · obtain ⟨hutxos, hupdates⟩ := h₂.other hW₂
      obtain ⟨hmem, hlookup⟩ := h₁.written (hW.resolve_right hW₂)
      exact ⟨h₂.mem_iff.mpr (.inr hmem), by rw [hutxos, hupdates, hlookup]⟩
  other hW := by
    obtain ⟨hW₁, hW₂⟩ := not_or.mp hW
    rw [(h₂.other hW₂).1, (h₂.other hW₂).2]
    exact h₁.other hW₁

lemma trans_mark {X Y : Prop} (h₁ : Tracked key (X ∧ key ∈ p.utxos) p p₁)
    (h₂ : Tracked key (Y ∧ key ∈ p₁.utxos) p₁ p₂) : Tracked key ((X ∨ Y) ∧ key ∈ p.utxos) p p₂ := by
  refine (h₁.trans h₂).congr ?_
  rw [h₁.mem_iff]
  tauto

end Tracked

variable {es : List (Edit × ℤ)} {sender : UTXOPool} (pool : UTXOPool) (host : Host)
  (delta : DeltaUpdate)

lemma tracked_insert (key j : String) (utxo : UTXO) : Tracked key (j = key) pool
      { pool with utxos := pool.utxos.insert j utxo, updates := pool.updates.insert j utxo } where
  written hj := by
    subst hj
    exact ⟨mem_insert.mpr (.inl rfl), by simp⟩
  other hj := by
    simp only [KeyedLog.lookup_insert_eq, if_neg hj, and_self]

lemma tracked_markInput (key j : String) :
    Tracked key (j = key ∧ key ∈ pool.utxos) pool (pool.markInput j) := by
  unfold markInput
  cases hj : pool.utxos.lookup j with
  | none =>
    refine (Tracked.refl key pool).congr (iff_of_false id ?_)
    rintro ⟨rfl, hmem⟩
    exact lookup_eq_none.mp hj hmem
  | some utxo =>
    refine (tracked_insert pool key j utxo.markSpent).congr ?_
    refine ⟨fun h => ⟨h, ?_⟩, And.left⟩
    exact h ▸ mem_of_lookup_eq_some hj

lemma tracked_markInputs (key : String) (tx : Transaction) :
    Tracked key (key ∈ tx.spentKeys ∧ key ∈ pool.utxos) pool (pool.markInputs tx) := by
  unfold markInputs
  induction tx.spentKeys generalizing pool with
  | nil => exact (Tracked.refl key pool).congr (by simp)
  | cons j keys ih =>
    refine ((tracked_markInput pool key j).trans_mark (ih (pool.markInput j))).congr ?_
    rw [mem_cons, eq_comm]

lemma tracked_createOutputs (key : String) (tx : Transaction) (h : UInt64) :
    Tracked key (key ∈ tx.outputKeys) pool (pool.createOutputs tx h) := by
  rw [← tx.map_fst_created h]
  unfold createOutputs
  induction tx.created h generalizing pool with
  | nil => exact (Tracked.refl key pool).congr (by simp)
  | cons e es ih =>
    refine ((tracked_insert pool key e.1 e.2).trans (ih _)).congr ?_
    rw [map_cons, mem_cons, eq_comm]

/-! ## Edits -/

/-- A key is written by some edits: created, or marked although it was there. -/
def Written (key : String) (pool : UTXOPool) (es : List (Edit × ℤ)) : Prop :=
  (∃ e ∈ es, key ∈ e.1.created) ∨ (∃ e ∈ es, key ∈ e.1.spent) ∧ key ∈ pool.utxos

lemma tracked_edit {key : String} (s : UTXOPool × Host) (e : Edit × ℤ) (hkey : key ∉ e.1.removed) :
    Tracked key (key ∈ e.1.created ∨ key ∈ e.1.spent ∧ key ∈ s.1.utxos) s.1 (edit C s e).1 := by
  obtain ⟨⟨tx, blockHeight⟩ | ⟨txID, outputIndex⟩, now⟩ := e
  · have h := ((tracked_markInputs s.1 key tx).trans
      (tracked_createOutputs (s.1.markInputs tx) key tx blockHeight)).congr or_comm
    exact ⟨h.written, h.other⟩
  · have hne : key ≠ utxoKey txID outputIndex := by simpa [Edit.removed] using hkey
    refine ⟨by simp [Edit.created, Edit.spent], fun _ => ⟨?_, rfl⟩⟩
    exact lookup_erase_ne hne

/-- **The record of a key that is never removed**: if it is written, its output is recorded, and
otherwise nothing changes. -/
lemma tracked_edits {key : String} (es : List (Edit × ℤ)) (hkey : ∀ e ∈ es, key ∉ e.1.removed)
    (s : UTXOPool × Host) :
    Tracked key (Written key s.1 es) s.1 (es.foldl (edit C) s).1 := by
  induction es generalizing s with
  | nil => exact (Tracked.refl key s.1).congr (by simp [Written])
  | cons e es ih =>
    have hhead := tracked_edit C s e (hkey e (by simp))
    have htail := ih (fun e' he' => hkey e' (by simp [he'])) (edit C s e)
    refine (hhead.trans htail).congr ?_
    rw [Written, hhead.mem_iff, Written]
    simp only [mem_cons, exists_eq_or_imp]
    generalize (∃ e ∈ es, key ∈ e.1.created) = created
    generalize (∃ e ∈ es, key ∈ e.1.spent) = spent
    tauto

lemma exists_createOutputs_markInputs_eq (tx : Transaction) (h : UInt64) :
    ∃ utxos updates, (pool.markInputs tx).createOutputs tx h =
      { pool with utxos := utxos, updates := updates } := by
  have hmark : ∃ utxos updates, pool.markInputs tx =
      { pool with utxos := utxos, updates := updates } := by
    unfold markInputs
    induction tx.spentKeys generalizing pool with
    | nil => exact ⟨_, _, rfl⟩
    | cons key keys ih =>
      obtain ⟨utxos, updates, hrest⟩ := ih (pool.markInput key)
      rw [foldl_cons, hrest]
      cases hkey : pool.utxos.lookup key with
      | none | some utxo => exact ⟨utxos, updates, by simp only [markInput, hkey]⟩
  obtain ⟨utxos, updates, hmark⟩ := hmark
  rw [hmark]
  unfold createOutputs
  clear hmark
  induction tx.created h generalizing utxos updates with
  | nil => exact ⟨utxos, updates, rfl⟩
  | cons e es ih => exact ih _ _

lemma deletions_edit (s : UTXOPool × Host) (e : Edit × ℤ) :
    (edit C s e).1.deletions = s.1.deletions ++ e.1.removed := by
  obtain ⟨⟨tx, blockHeight⟩ | ⟨txID, outputIndex⟩, now⟩ := e
  · obtain ⟨utxos, updates, heq⟩ := exists_createOutputs_markInputs_eq s.1 tx blockHeight
    rw [Edit.removed, append_nil]
    change ((s.1.markInputs tx).createOutputs tx blockHeight).deletions = s.1.deletions
    rw [heq]
  · rfl

lemma deletions_edits (es : List (Edit × ℤ)) :
    (edits C pool host es).deletions = pool.deletions ++ es.flatMap fun e => e.1.removed := by
  have hfold : ∀ s : UTXOPool × Host, (es.foldl (edit C) s).1.deletions =
      s.1.deletions ++ es.flatMap fun e => e.1.removed := by
    induction es with
    | nil => exact fun s => (append_nil _).symm
    | cons e es ih =>
      intro s
      rw [foldl_cons, ih, deletions_edit, append_assoc, flatMap_cons]
  exact hfold (pool, host)

lemma lt_lastUpdateTime_edits {t₀ : ℤ} (hne : es ≠ []) (htimes : ∀ e ∈ es, t₀ < e.2) :
    t₀ < (edits C pool host es).lastUpdateTime := by
  obtain ⟨init, ⟨e, now⟩, rfl⟩ := (eq_nil_or_concat es).resolve_left hne
  have hnow : t₀ < now := htimes (e, now) (by simp)
  rw [edits, concat_eq_append, foldl_append]
  cases e with
  | addUTXO tx blockHeight | removeUTXO txID outputIndex => exact hnow

/-! ## Convergence -/

lemma lookup_patch (utxos : Store String UTXO) (key : String) : (delta.patch utxos).lookup key =
      if key ∈ delta.utxoDeletions then none
      else (delta.utxoUpdates.lookup key).or (utxos.lookup key) := by
  rw [DeltaUpdate.patch, KeyedLog.lookup_foldl_erase, KeyedLog.lookup_union]

lemma verifyDeltaUpdate_iff : pool.verifyDeltaUpdate C delta = .ok () ↔
      (∀ key utxo, delta.utxoUpdates.lookup key = some utxo → verifyUTXO utxo = .ok ()) ∧
        calculateMerkleRoot C (delta.patch pool.utxos) = delta.stateRoot := by
  have hok : ∀ utxo, (verifyUTXO utxo).isOk = true ↔ verifyUTXO utxo = .ok () := by
    intro utxo
    cases verifyUTXO utxo <;> simp [Except.isOk, Except.toBool]
  have hentries : (∀ e ∈ delta.utxoUpdates.entries, (verifyUTXO e.2).isOk) ↔
      ∀ key utxo, delta.utxoUpdates.lookup key = some utxo → verifyUTXO utxo = .ok () := by
    simp only [Finmap.lookup_eq_some_iff, hok]
    exact ⟨fun h key utxo hmem => h ⟨key, utxo⟩ hmem, fun h e he => h e.1 e.2 he⟩
  rw [← hentries, verifyDeltaUpdate]
  split_ifs with hvalid hroot
  · exact iff_of_false (nomatch ·) fun h => hroot h.2
  · exact iff_of_true rfl ⟨hvalid, not_not.mp hroot⟩
  · exact iff_of_false (nomatch ·) fun h => hvalid h.1

/-- **An update leads to given outputs** exactly if its entries are well formed and the patch gives
these outputs, when it carries their root. -/
lemma applyDeltaUpdate_iff
    {utxos : Store String UTXO} (hroot : delta.stateRoot = calculateMerkleRoot C utxos) :
    (pool.applyDeltaUpdate C host delta).2 = .ok () ∧
        (pool.applyDeltaUpdate C host delta).1.1.utxos = utxos ↔
      (∀ key utxo, delta.utxoUpdates.lookup key = some utxo → verifyUTXO utxo = .ok ()) ∧
        delta.patch pool.utxos = utxos := by
  have hverify := verifyDeltaUpdate_iff C pool delta
  cases hv : pool.verifyDeltaUpdate C delta with
  | error err =>
    simp only [applyDeltaUpdate, hv, reduceCtorEq, false_and, false_iff]
    rintro ⟨hvalid, hpatch⟩
    rw [hv] at hverify
    exact nomatch hverify.mpr ⟨hvalid, by rw [hpatch, hroot]⟩
  | ok =>
    simp only [applyDeltaUpdate, hv, true_and]
    exact (and_iff_right (hverify.mp hv).1).symm

/-- **What the records must look like to be replayed**, in a sender that made some edits. -/
structure Replayable (sender : UTXOPool) (host : Host) (es : List (Edit × ℤ)) : Prop where
  /-- No key recorded as deleted is present. -/
  deletions : ∀ key ∈ (edits C sender host es).deletions, key ∉ (edits C sender host es).utxos
  /-- Every update recorded is well formed, if it is sent. -/
  wellFormed : es ≠ [] → ∀ key utxo, (edits C sender host es).updates.lookup key = some utxo →
    verifyUTXO utxo = .ok ()
  /-- An update recorded before the edits, of a key that they do not write, agrees with the
  outputs. -/
  updates : es ≠ [] → ∀ key ∉ (edits C sender host es).deletions, ¬ Written key sender es →
    ∀ utxo, sender.updates.lookup key = some utxo → sender.utxos.lookup key = some utxo

lemma patch_eq_self_iff {delta : DeltaUpdate} (hupdates : delta.utxoUpdates = ∅)
    (utxos : Store String UTXO) :
    delta.patch utxos = utxos ↔ ∀ key ∈ delta.utxoDeletions, key ∉ utxos := by
  have hlookup : ∀ key, (delta.patch utxos).lookup key =
      if key ∈ delta.utxoDeletions then none else utxos.lookup key := by
    intro key
    rw [lookup_patch, hupdates, lookup_empty, Option.none_or]
  constructor
  · intro hpatch key hkey
    rw [← lookup_eq_none, ← hpatch, hlookup, if_pos hkey]
  · intro hdeletions
    apply ext_lookup
    intro key
    rw [hlookup]
    split_ifs with hkey
    · exact (lookup_eq_none.mpr (hdeletions key hkey)).symm
    · rfl

lemma tracked_of_not_mem_deletions {host : Host}
    {key : String} (hkey : key ∉ (edits C sender host es).deletions) :
    Tracked key (Written key sender es) sender (edits C sender host es) := by
  rw [deletions_edits, mem_append, not_or] at hkey
  refine tracked_edits C es (fun e he hremoved => hkey.2 ?_) (sender, host)
  exact mem_flatMap.mpr ⟨e, he, hremoved⟩

lemma lookup_patch_edits {host : Host} {t₀ : ℤ}
    (hne : es ≠ []) (htimes : ∀ e ∈ es, t₀ < e.2) (now : ℤ) (key : String) :
    (((edits C sender host es).getDeltaUpdates C t₀ now).patch sender.utxos).lookup key =
      if key ∈ (edits C sender host es).deletions then none
      else ((edits C sender host es).updates.lookup key).or (sender.utxos.lookup key) := by
  have hupdates : ((edits C sender host es).getDeltaUpdates C t₀ now).utxoUpdates =
      (edits C sender host es).updates := if_pos (lt_lastUpdateTime_edits C sender host hne htimes)
  rw [lookup_patch, hupdates]
  rfl

lemma patch_edits_iff {host : Host} {t₀ now : ℤ} (hne : es ≠ []) (htimes : ∀ e ∈ es, t₀ < e.2) :
    ((edits C sender host es).getDeltaUpdates C t₀ now).patch sender.utxos =
        (edits C sender host es).utxos ↔
      (∀ key ∈ (edits C sender host es).deletions, key ∉ (edits C sender host es).utxos) ∧
        ∀ key ∉ (edits C sender host es).deletions, ¬ Written key sender es →
          ∀ utxo, sender.updates.lookup key = some utxo → sender.utxos.lookup key = some utxo := by
  have hlookup := @lookup_patch_edits C es sender host t₀ hne htimes now
  have htracked := @tracked_of_not_mem_deletions C es sender host
  constructor
  · intro hpatch
    rw [hpatch] at hlookup
    refine ⟨fun key hkey => ?_, fun key hkey hW utxo hutxo => ?_⟩
    · rw [← lookup_eq_none, hlookup, if_pos hkey]
    · obtain ⟨hsame, hrecord⟩ := (htracked hkey).other hW
      rw [← hsame, hlookup, if_neg hkey, hrecord, hutxo, Option.some_or]
  · rintro ⟨hdeletions, hold⟩
    apply ext_lookup
    intro key
    rw [hlookup]
    split_ifs with hkey
    · exact (lookup_eq_none.mpr (hdeletions key hkey)).symm
    · by_cases hW : Written key sender es
      · obtain ⟨hmem, hrecord⟩ := (htracked hkey).written hW
        obtain ⟨utxo, hutxo⟩ := mem_iff.mp hmem
        rw [hrecord, hutxo, Option.some_or]
      · obtain ⟨hsame, hrecord⟩ := (htracked hkey).other hW
        rw [hsame, hrecord]
        cases hutxo : sender.updates.lookup key with
        | none => rw [Option.none_or]
        | some utxo => rw [Option.some_or, hold key hkey hW utxo hutxo]

/-- **When synchronisation by differences converges.** A receiver with the outputs that the sender
had at a time ends with those of the sender exactly if no key recorded as deleted is present in the
sender, every update is well formed, and every older update of a key not written since agrees with
the outputs.

**Proof sketch.** The receiver ends with the patch of the old outputs. A key recorded as deleted is
absent from it; the record of another key that was written is its output. -/
theorem delta_converges_iff {sender receiver : UTXOPool} {host receiverHost : Host}
    {es : List (Edit × ℤ)} {t₀ now : ℤ} (hsame : receiver.utxos = sender.utxos)
    (hlast : sender.lastUpdateTime ≤ t₀) (htimes : ∀ e ∈ es, t₀ < e.2) :
    (receiver.applyDeltaUpdate C receiverHost
          ((edits C sender host es).getDeltaUpdates C t₀ now)).2 = .ok () ∧
        (receiver.applyDeltaUpdate C receiverHost
          ((edits C sender host es).getDeltaUpdates C t₀ now)).1.1.utxos =
            (edits C sender host es).utxos ↔
      Replayable C sender host es := by
  rw [applyDeltaUpdate_iff C receiver receiverHost _ rfl, hsame]
  by_cases hne : es = []
  · subst hne
    have hupdates : ((edits C sender host []).getDeltaUpdates C t₀ now).utxoUpdates = ∅ :=
      if_neg (not_lt.mpr hlast)
    have hpatch := patch_eq_self_iff hupdates sender.utxos
    rw [hupdates]
    constructor
    · rintro ⟨-, h⟩
      exact ⟨hpatch.mp h, fun hne => absurd rfl hne, fun hne => absurd rfl hne⟩
    · intro h
      exact ⟨fun key utxo hutxo => by simp at hutxo, hpatch.mpr h.deletions⟩
  · rw [patch_edits_iff C hne htimes]
    have hupdates : ((edits C sender host es).getDeltaUpdates C t₀ now).utxoUpdates =
        (edits C sender host es).updates :=
      if_pos (lt_lastUpdateTime_edits C sender host hne htimes)
    rw [hupdates]
    exact ⟨fun ⟨hvalid, hdeletions, hold⟩ => ⟨hdeletions, fun _ => hvalid, fun _ => hold⟩,
      fun h => ⟨h.wellFormed hne, h.deletions, h.updates hne⟩⟩

/-! ## Senders with empty records -/

/-- Every output and every update of a pool is well formed. -/
def WellFormed (pool : UTXOPool) : Prop :=
  ∀ key utxo, pool.utxos.lookup key = some utxo ∨ pool.updates.lookup key = some utxo →
    verifyUTXO utxo = .ok ()

lemma WellFormed.insert {pool : UTXOPool} (h : pool.WellFormed) {utxo : UTXO}
    (hutxo : verifyUTXO utxo = .ok ()) (key : String) :
    WellFormed { pool with
      utxos := pool.utxos.insert key utxo
      updates := pool.updates.insert key utxo } := by
  intro k v hv
  simp only [KeyedLog.lookup_insert_eq] at hv
  split_ifs at hv with hk
  · rw [or_self, Option.some.injEq] at hv
    rwa [← hv]
  · exact h k v hv

lemma WellFormed.markInputs {pool : UTXOPool} (h : pool.WellFormed) (tx : Transaction) :
    (pool.markInputs tx).WellFormed := by
  unfold UTXOPool.markInputs
  induction tx.spentKeys generalizing pool with
  | nil => exact h
  | cons key keys ih =>
    apply ih
    unfold markInput
    cases hkey : pool.utxos.lookup key with
    | none => exact h
    | some utxo =>
      have hmarked : verifyUTXO utxo.markSpent = .ok () := h key utxo (.inl hkey)
      exact h.insert hmarked key

lemma WellFormed.createOutputs {pool : UTXOPool} (h : pool.WellFormed) {tx : Transaction}
    (hID : tx.transactionID ≠ "") (hamount : ∀ output ∈ tx.outputs, 0 < output.amount)
    (blockHeight : UInt64) : (pool.createOutputs tx blockHeight).WellFormed := by
  have hcreated : ∀ e ∈ tx.created blockHeight, verifyUTXO e.2 = .ok () := by
    intro e he
    obtain ⟨⟨output, i⟩, hmem, rfl⟩ := mem_map.mp he
    have hpos := hamount output (fst_mem_of_mem_zipIdx hmem)
    exact if_neg (not_or.mpr ⟨hID, not_le.mpr hpos⟩)
  unfold UTXOPool.createOutputs
  generalize tx.created blockHeight = created at hcreated
  induction created generalizing pool with
  | nil => exact h
  | cons e es ih =>
    exact ih (h.insert (hcreated e (by simp)) e.1) fun e' he' => hcreated e' (by simp [he'])

lemma WellFormed.edits (hes : ∀ e ∈ es, e.1.WellFormed)
    {s : UTXOPool × Host} (h : s.1.WellFormed) : (es.foldl (edit C) s).1.WellFormed := by
  induction es generalizing s with
  | nil => exact h
  | cons e es ih =>
    refine ih (fun e' he' => hes e' (by simp [he'])) ?_
    have he := hes e (by simp)
    obtain ⟨⟨tx, blockHeight⟩ | ⟨txID, outputIndex⟩, now⟩ := e
    · exact (h.markInputs tx).createOutputs he.1 he.2 blockHeight
    · intro key utxo hutxo
      refine h key utxo (hutxo.imp_left fun hlookup => ?_)
      change (s.1.utxos.erase _).lookup key = some utxo at hlookup
      by_cases hkey : key = utxoKey txID outputIndex
      · rw [hkey, lookup_erase] at hlookup
        cases hlookup
      · rwa [lookup_erase_ne hkey] at hlookup

lemma not_mem_edits_of_removed
    (hes : es.Pairwise fun e f => ∀ key ∈ e.1.removed, key ∉ f.1.created) {key : String}
    (hkey : ∃ e ∈ es, key ∈ e.1.removed) (s : UTXOPool × Host) :
    key ∉ (es.foldl (edit C) s).1.utxos := by
  induction es generalizing s with
  | nil => simp at hkey
  | cons e es ih =>
    obtain ⟨hhead, htail⟩ := pairwise_cons.mp hes
    by_cases hlater : ∃ f ∈ es, key ∈ f.1.removed
    · exact ih htail hlater (edit C s e)
    · have he : key ∈ e.1.removed := by
        obtain ⟨f, hf, hremoved⟩ := hkey
        rcases mem_cons.mp hf with rfl | hf
        · exact hremoved
        · exact absurd ⟨f, hf, hremoved⟩ hlater
      have hgone : key ∉ (edit C s e).1.utxos := by
        obtain ⟨⟨tx, blockHeight⟩ | ⟨txID, outputIndex⟩, now⟩ := e
        · simp [Edit.removed] at he
        · obtain rfl : key = utxoKey txID outputIndex := by simpa [Edit.removed] using he
          exact notMem_erase_self
      push Not at hlater
      rw [foldl_cons, (tracked_edits C es hlater (edit C s e)).mem_iff, not_or]
      refine ⟨?_, hgone⟩
      rintro (⟨f, hf, hcreated⟩ | ⟨-, hmem⟩)
      · exact hhead f hf key he hcreated
      · exact hgone hmem

/-- **Senders with empty records converge** if they hold well-formed outputs, make well-formed
edits, and never create a key again that they removed. -/
theorem replayable_of_fresh (hupdates : sender.updates = ∅) (hdeletions : sender.deletions = [])
    (hsender : sender.WellFormed) (hwf : ∀ e ∈ es, e.1.WellFormed)
    (hes : es.Pairwise fun e f => ∀ key ∈ e.1.removed, key ∉ f.1.created) :
    Replayable C sender host es where
  deletions key hkey := by
    rw [deletions_edits, hdeletions, nil_append] at hkey
    obtain ⟨e, he, hremoved⟩ := mem_flatMap.mp hkey
    exact not_mem_edits_of_removed C hes ⟨e, he, hremoved⟩ (sender, host)
  wellFormed _ key utxo hutxo := by
    have hend : (edits C sender host es).WellFormed := WellFormed.edits C hwf hsender
    exact hend key utxo (.inr hutxo)
  updates _ key _ _ utxo hutxo := by simp [hupdates] at hutxo

def recreated : List (Edit × ℤ) := [(.addUTXO Pools.tenTokenReward 1, 1), (.removeUTXO "p" 0, 2),
    (.addUTXO Pools.tenTokenReward 1, 3)]

/-- The deletion is replayed last, and the roots do not match. -/
theorem recreated_not_applied : (applyDeltaUpdate sample {} {}
      ((edits sample {} {} recreated).getDeltaUpdates sample 0 4)).2 =
      .error "delta verification failed: state root mismatch after delta application" := by
  decide +kernel

def createdAndRemoved : List (Edit × ℤ) := [(.addUTXO Pools.tenTokenReward 1, 1),
    (.addUTXO { Pools.tenTokenReward with transactionID := "r" } 2, 2), (.removeUTXO "p" 0, 3)]

theorem delta_converges_createdAndRemoved : (∀ e ∈ createdAndRemoved, 0 < e.2) ∧
      (applyDeltaUpdate sample {} {}
        ((edits sample {} {} createdAndRemoved).getDeltaUpdates sample 0 4)).2 = .ok () ∧
      (applyDeltaUpdate sample {} {}
        ((edits sample {} {} createdAndRemoved).getDeltaUpdates sample 0 4)).1.1.utxos =
        (edits sample {} {} createdAndRemoved).utxos := by
  have htimes : ∀ e ∈ createdAndRemoved, 0 < e.2 := by decide
  refine ⟨htimes, (delta_converges_iff sample rfl (le_refl 0) htimes).mpr ?_⟩
  refine replayable_of_fresh sample {} rfl rfl (fun key utxo h => ?_) ?_ ?_
  · simp at h
  · simp [createdAndRemoved, Edit.WellFormed, Pools.tenTokenReward]
  · decide +kernel

end UTXOPool

end HybridChain
