import HybridChain.UtxoSet

/-!
# Keys of outputs

`utxo.go` keeps outputs in maps under `fmt.Sprintf("%s-%d", id, index)`. The numeral of an index has
no dash, so what stands in front of the last dash is the identifier.

## Main definitions

* `utxoKeyBytes`, `addUTXOCalls`, `updateUTXOSetCalls`

## Main results

* `utxoKeys_unambiguous`: no two outputs share a key
-/

namespace HybridChain

open List KeyedLog

/-! ## The bytes of a key -/

/-- The bytes of a key. A string of the source is a byte string. -/
def utxoKeyBytes (transactionID : List UInt8) (outputIndex : ℤ) : List UInt8 :=
  transactionID ++ Text.bytes "-" ++ Text.bytes (toString outputIndex)

lemma bytes_utxoKey (transactionID : String) (outputIndex : ℤ) :
    Text.bytes (utxoKey transactionID outputIndex) =
      utxoKeyBytes (Text.bytes transactionID) outputIndex := by
  rw [utxoKey, Text.bytes_append, Text.bytes_append, utxoKeyBytes]

/-- **A key determines the identifier and the index.** -/
lemma utxoKeyBytes_inj {a b : List UInt8} {i j : ℤ} (hi : 0 ≤ i) (hj : 0 ≤ j)
    (h : utxoKeyBytes a i = utxoKeyBytes b j) : a = b ∧ i = j := by
  obtain ⟨m, rfl⟩ := Int.eq_ofNat_of_zero_le hi
  obtain ⟨n, rfl⟩ := Int.eq_ofNat_of_zero_le hj
  have hdash : Text.bytes "-" = [45] := by decide
  rw [utxoKeyBytes, utxoKeyBytes, hdash, append_assoc, append_assoc,
    singleton_append, singleton_append] at h
  obtain ⟨hid, hnumeral⟩ := Text.append_sep_inj (Text.dash_not_mem_bytes_repr m)
    (Text.dash_not_mem_bytes_repr n) h
  exact ⟨hid, congrArg Nat.cast (Text.repr_inj (Text.bytes_inj hnumeral))⟩

/-! ## Transactions one after the other -/

/-- Calls of `AddUTXO` with a transaction, a height and a time. -/
def UTXOPool.addUTXOCalls (C : Crypto) (state : UTXOPool × Host)
    (calls : List (Transaction × UInt64 × ℤ)) : UTXOPool × Host :=
  calls.foldl (fun s call => s.1.addUTXO C s.2 call.1 call.2.1 call.2.2) state

/-- Calls of `UpdateUTXOSet`. -/
def updateUTXOSetCalls (utxoSet : Store String UTXO) (txs : List Transaction) : Store String UTXO :=
  txs.foldl (fun utxoSet tx => updateUTXOSet tx utxoSet) utxoSet

variable {output : TransactionOutput} {i : ℕ}

namespace Transaction

variable {tx : Transaction}

lemma mem_created {h : UInt64}
    (houtput : tx.outputs[i]? = some output) :
    (utxoKey tx.transactionID i, tx.newUTXO h output i) ∈ tx.created h := by
  refine mem_map.mpr ⟨(output, i), ?_, rfl⟩
  exact mem_zipIdx_iff_getElem?.mpr houtput

lemma utxoKey_notMem_outputKeys {id : String} (hid : tx.transactionID ≠ id)
    (i : ℕ) : utxoKey id i ∉ tx.outputKeys := by
  intro hmem
  obtain ⟨j, -, hj⟩ := mem_map.mp hmem
  exact hid (utxoKey_natCast_inj hj).1

lemma foldl_cell_events {h : UInt64} {key : String} {utxo : UTXO}
    (hmem : (key, utxo) ∈ tx.created h) (c : Option UTXO) :
    (tx.events h).foldl (KeyedLog.cell UTXO.markSpent key) c = some utxo := by
  obtain ⟨before, after, hsplit⟩ := append_of_mem hmem
  have hnodup : ((tx.created h).map Prod.fst).Nodup := by
    rw [map_fst_created]
    exact tx.nodup_outputKeys
  have hafter : ∀ e ∈ after, e.1 ≠ key := by
    rw [hsplit, map_append, map_cons, nodup_append] at hnodup
    intro e he hkey
    exact (nodup_cons.mp hnodup.2.1).1 (mem_map.mpr ⟨e, he, hkey⟩)
  rw [events, hsplit, map_append, map_cons, ← append_assoc, foldl_cell_put]
  refine foldl_cell_of_key_ne _ (fun e he => ?_) _
  obtain ⟨entry, hentry, rfl⟩ := mem_map.mp he
  exact hafter entry hentry

end Transaction

namespace UTXOPool

variable (C : Crypto) (pool : UTXOPool) (host : Host)

lemma utxos_addUTXOCalls (calls : List (Transaction × UInt64 × ℤ)) :
    (addUTXOCalls C (pool, host) calls).1.utxos = KeyedLog.run UTXO.markSpent pool.utxos
        (calls.flatMap fun call => call.1.events call.2.1) := by
  induction calls generalizing pool host with
  | nil => rfl
  | cons call calls ih =>
    obtain ⟨tx, h, now⟩ := call
    have hrest := ih (pool.addUTXO C host tx h now).1 (pool.addUTXO C host tx h now).2
    rw [utxos_addUTXO, ← run_append] at hrest
    rw [flatMap_cons]
    exact hrest

/-- **What is left of an output**: after transactions with other identifiers it is as it was
created, apart from the flag that a transaction sets which spends it. -/
lemma lookup_addUTXOCalls {tx : Transaction} (h : UInt64) (now : ℤ)
    {later : List (Transaction × UInt64 × ℤ)}
    (hlater : ∀ call ∈ later, call.1.transactionID ≠ tx.transactionID)
    (houtput : tx.outputs[i]? = some output) :
    (addUTXOCalls C (pool, host) ((tx, h, now) :: later)).1.utxos.lookup
        (utxoKey tx.transactionID i) =
      some (if ∃ call ∈ later, utxoKey tx.transactionID i ∈ call.1.spentKeys
        then (tx.newUTXO h output i).markSpent else tx.newUTXO h output i) := by
  have hput : ∀ utxo, Event.put (utxoKey tx.transactionID i) utxo ∉
      later.flatMap fun call => call.1.events call.2.1 := by
    intro utxo hmem
    obtain ⟨call, hcall, hevent⟩ := mem_flatMap.mp hmem
    exact Transaction.utxoKey_notMem_outputKeys (hlater call hcall) i
      (Transaction.exists_put_mem_events.mp ⟨utxo, hevent⟩)
  rw [utxos_addUTXOCalls, flatMap_cons, lookup_run, foldl_append,
    Transaction.foldl_cell_events (Transaction.mem_created houtput)]
  split_ifs with hspent
  · obtain ⟨call, hcall, hkey⟩ := hspent
    have hmark : Event.mark (utxoKey tx.transactionID i) ∈
        later.flatMap fun call => call.1.events call.2.1 :=
      mem_flatMap.mpr ⟨call, hcall, Transaction.mark_mem_events.mpr hkey⟩
    exact foldl_cell_of_mark _ UTXO.markSpent_markSpent hmark hput _
  · refine foldl_cell_of_key_ne _ (fun e he hkey => ?_) _
    cases e with
    | put key utxo => exact hput utxo (hkey ▸ he)
    | mark key =>
      obtain ⟨call, hcall, hevent⟩ := mem_flatMap.mp he
      exact hspent ⟨call, hcall, hkey ▸ Transaction.mark_mem_events.mp hevent⟩

end UTXOPool

/-- **The same in a plain map**, from which a transaction deletes what it spends. -/
lemma lookup_updateUTXOSetCalls (utxoSet : Store String UTXO) {tx : Transaction}
    {later : List Transaction} (hlater : ∀ t ∈ later, t.transactionID ≠ tx.transactionID)
    (houtput : tx.outputs[i]? = some output) :
    ((updateUTXOSetCalls utxoSet (tx :: later)).lookup (utxoKey tx.transactionID i)).map
        UTXO.entry = if ∃ t ∈ later, utxoKey tx.transactionID i ∈ t.spentKeys then none
      else some (tx.plainUTXO output i).entry := by
  -- a pool whose unspent part is the map runs along
  let pool : UTXOPool :=
    { utxos := KeyedLog.mapValues (fun utxo => { utxo with spent := false }) utxoSet }
  have hstart : KeyedLog.mapValues UTXO.entry utxoSet =
      KeyedLog.mapValues UTXO.entry pool.unspent := by
    refine Finmap.ext_lookup fun key => ?_
    rw [lookup_mapValues, lookup_mapValues, UTXOPool.unspent, lookup_filterValues, lookup_mapValues]
    cases utxoSet.lookup key <;> rfl
  let call : Transaction → Transaction × UInt64 × ℤ := fun t => (t, 0, 0)
  have hsame := updateUTXOSet_foldl_eq_unspent Crypto.sample ((tx :: later).map call) {} hstart
  have hlookup := congrArg (Finmap.lookup (utxoKey tx.transactionID i)) hsame
  have hcalls : ∀ c ∈ later.map call, c.1.transactionID ≠ tx.transactionID :=
    forall_mem_map.mpr hlater
  have hpool := pool.lookup_addUTXOCalls Crypto.sample {} 0 0 hcalls houtput
  have hspent : (∃ c ∈ later.map call, utxoKey tx.transactionID i ∈ c.1.spentKeys) ↔
      ∃ t ∈ later, utxoKey tx.transactionID i ∈ t.spentKeys := by
    simp only [mem_map, exists_exists_and_eq_and, call]
  rw [lookup_mapValues, lookup_mapValues, foldl_map] at hlookup
  rw [updateUTXOSetCalls]
  refine hlookup.trans ?_
  rw [UTXOPool.unspent, lookup_filterValues]
  rw [UTXOPool.addUTXOCalls] at hpool
  rw [map_cons, hpool]
  simp only [hspent]
  split_ifs <;> rfl

/-! ## Outputs that do not overwrite each other -/

/-- **Keys of outputs are unambiguous**: a key determines the identifier and the index, and every
output of a transaction is in the pool under its key, and stays there apart from its flag, whatever
transactions with other identifiers follow; so it does in a plain map, from which spent outputs are
deleted. -/
theorem utxoKeys_unambiguous : (∀ (a b : List UInt8) (i j : ℤ), 0 ≤ i → 0 ≤ j →
      (utxoKeyBytes a i = utxoKeyBytes b j ↔ a = b ∧ i = j)) ∧
    (∀ (id : String) (i : ℤ), Text.bytes (utxoKey id i) = utxoKeyBytes (Text.bytes id) i) ∧
    (∀ (C : Crypto) (pool : UTXOPool) (host : Host) (tx : Transaction) (h : UInt64) (now : ℤ)
      (later : List (Transaction × UInt64 × ℤ)),
      (∀ call ∈ later, call.1.transactionID ≠ tx.transactionID) →
      ∀ (i : ℕ) (output : TransactionOutput), tx.outputs[i]? = some output →
        (UTXOPool.addUTXOCalls C (pool, host) ((tx, h, now) :: later)).1.utxos.lookup
            (utxoKey tx.transactionID i) =
          some (if ∃ call ∈ later, utxoKey tx.transactionID i ∈ call.1.spentKeys
            then (tx.newUTXO h output i).markSpent else tx.newUTXO h output i)) ∧
    (∀ (utxoSet : Store String UTXO) (tx : Transaction) (later : List Transaction),
      (∀ t ∈ later, t.transactionID ≠ tx.transactionID) →
      ∀ (i : ℕ) (output : TransactionOutput), tx.outputs[i]? = some output →
        ((updateUTXOSetCalls utxoSet (tx :: later)).lookup (utxoKey tx.transactionID i)).map
            UTXO.entry = if ∃ t ∈ later, utxoKey tx.transactionID i ∈ t.spentKeys then none
          else some (tx.plainUTXO output i).entry) := by
  refine ⟨fun a b i j hi hj => ⟨utxoKeyBytes_inj hi hj, ?_⟩, bytes_utxoKey, ?_, ?_⟩
  · rintro ⟨rfl, rfl⟩
    rfl
  · intro C pool host tx h now later hlater i output houtput
    exact pool.lookup_addUTXOCalls C host h now hlater houtput
  · intro utxoSet tx later hlater i output houtput
    exact lookup_updateUTXOSetCalls utxoSet hlater houtput

/-- The identifiers `a-1` and `a` have different keys for the positions 2 and 12, and the token of
`a` is still there after a transaction with another identifier. -/
theorem utxoKeys_unambiguous_dashes :
    utxoKeyBytes (Text.bytes "a-1") 2 ≠ utxoKeyBytes (Text.bytes "a") 12 ∧
      ((updateUTXOSetCalls ∅ [mintToken, { mintToken with transactionID := "m-0" }]).lookup
        "m-0").map UTXO.entry = some ⟨"m", 0, "a", 1, ""⟩ := by
  obtain ⟨hbytes, -, -, hplain⟩ := utxoKeys_unambiguous
  constructor
  · intro h
    have hindex := ((hbytes _ _ 2 12 (by decide) (by decide)).mp h).2
    exact absurd hindex (by decide)
  · refine (hplain ∅ mintToken [{ mintToken with transactionID := "m-0" }] (by decide) 0
      { receiver := "a", amount := 1 } rfl).trans ?_
    rw [if_neg (by decide)]
    rfl

end HybridChain
