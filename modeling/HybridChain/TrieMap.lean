import HybridChain.Trie

/-!
# The trie as a map

The functions of `patricia_trie.go` that read a trie, after any insertions, root hashes and
enumerations.

## Main definitions

* `getTransaction`, `search`, `len`
* `Inserted`: a trie with some insertions

## Main results

* `Inserted.is_map`: a trie is a map from identifiers to transactions
-/

namespace HybridChain

open List
open EdgeTree (Tree)
open Crypto (sample)

variable {txs : List Transaction} {txID : String}

namespace PatriciaTrie

variable (C : Crypto)

/-! ## Reading a trie -/

def idPath (txID : String) : List UInt8 := (C.sha256 (Text.bytes txID)).toList

/-- `GetTransaction`: the node at the end of the path, and whether it has a value. -/
def getTransaction (t : PatriciaTrie) (txID : String) : Option PatriciaNode × Bool :=
  match EdgeTree.descend (idPath C txID) t.root with
  | none => (none, false)
  | some node => (some node, node.data.value.isSome)

def search (t : PatriciaTrie) (txID : String) : Option Transaction :=
  (EdgeTree.descend (idPath C txID) t.root).bind fun node => node.data.value

def len (t : PatriciaTrie) : ℕ := EdgeTree.fold
    (fun a counts => (if a.isLeaf && a.value.isSome then 1 else 0) + (counts.map Prod.snd).sum)
    t.root

lemma len_eq_length (t : PatriciaTrie) : t.len = t.getAllTransactions.length := by
  obtain ⟨root⟩ := t
  simp only [len, getAllTransactions]
  induction root using Tree.ind with
  | h a cs ih =>
    rw [EdgeTree.fold_node, EdgeTree.preorder_node, length_append, length_flatMap, map_map]
    congr 1
    · unfold listed
      cases a.isLeaf <;> cases a.value <;> rfl
    · exact congrArg List.sum (map_congr_left ih)

@[simp] lemma search_forgetCaches (t : PatriciaTrie) (txID : String) :
    t.forgetCaches.search C txID = t.search C txID := by
  rw [search, search, forgetCaches, EdgeTree.descend_map, Option.bind_map]
  refine congrArg (Option.bind _) (funext fun node => ?_)
  obtain ⟨a, cs⟩ := node
  simp only [Function.comp_apply, Tree.map_node, Tree.data, clearCache]

variable {C} {t : PatriciaTrie}

/-- **What is found in a trie**: the listed transaction whose path is that of the identifier. -/
lemma WellFormed.search_eq_some_iff (h : WellFormed C t)
    {tx : Transaction} :
    t.search C txID = some tx ↔ tx ∈ t.getAllTransactions ∧ path C tx = idPath C txID := by
  have hdata : ∀ a, (EdgeTree.descend (idPath C txID) t.root).map Tree.data = some a ↔
      (idPath C txID, a) ∈ EdgeTree.paths 32 t.root :=
    fun a => h.uniform.data_descend_eq_some_iff (C.sha256 _).toList_length
  have hsearch : t.search C txID = some tx ↔
      ∃ a, (idPath C txID, a) ∈ EdgeTree.paths 32 t.root ∧ a.value = some tx := by
    simp only [← hdata, search, Option.bind_eq_some_iff, Option.map_eq_some_iff]
    constructor
    · rintro ⟨node, hnode, hvalue⟩
      exact ⟨node.data, ⟨node, hnode, rfl⟩, hvalue⟩
    · rintro ⟨_, ⟨node, hnode, rfl⟩, hvalue⟩
      exact ⟨node, hnode, hvalue⟩
  rw [hsearch, h.mem_getAllTransactions]
  constructor
  · rintro ⟨a, ha, hvalue⟩
    obtain ⟨tx', rfl, hpath⟩ := h.leaves _ a ha
    obtain rfl : tx' = tx := Option.some.inj hvalue
    exact ⟨hpath ▸ ha, hpath.symm⟩
  · rintro ⟨hleaf, hpath⟩
    exact ⟨leaf C tx, hpath ▸ hleaf, rfl⟩

/-! ## Sequences of insertions -/

variable (C) in
/-- The tries that occur, with the transactions inserted so far: root hashes are generated and the
maps enumerated anew at any time. -/
inductive Inserted : List Transaction → PatriciaTrie → Prop
  | new : Inserted [] new
  | insert {txs : List Transaction} {t : PatriciaTrie} (tx : Transaction) :
    Inserted txs t → Inserted (txs ++ [tx]) (insert C t tx)
  | hashed {txs : List Transaction} {t : PatriciaTrie} :
    Inserted txs t → Inserted txs (generateRootHash C t).2
  | enumerated {txs : List Transaction} {t u : PatriciaTrie} :
    Inserted txs t → Enumerates t u → Inserted txs u

lemma Inserted.built (h : Inserted C txs t) :
    Built C t := by
  induction h with
  | new => exact .new
  | insert tx _ ih => exact ih.insert tx
  | hashed _ ih => exact ih.hashed
  | enumerated _ htu ih => exact ih.enumerated htu

lemma inserted_insertBatch (C : Crypto) (txs : List Transaction) :
    Inserted C txs (new.insertBatch C txs) := by
  induction txs using List.reverseRecOn with
  | nil => exact .new
  | append_singleton txs tx ih =>
    rw [insertBatch, foldl_append]
    exact ih.insert tx

end PatriciaTrie

/-- The last transaction of a list that meets a test. -/
def lastWith (test : Transaction → Bool) (txs : List Transaction) : Option Transaction :=
  txs.reverse.find? test

lemma lastWith_append_singleton (test : Transaction → Bool) (txs : List Transaction)
    (tx : Transaction) :
    lastWith test (txs ++ [tx]) = if test tx then some tx else lastWith test txs := by
  rw [lastWith, reverse_append, reverse_singleton, singleton_append, List.find?_cons]
  cases test tx <;> rfl

lemma mem_of_lastWith_eq_some {test : Transaction → Bool}
    {tx : Transaction} (h : lastWith test txs = some tx) : tx ∈ txs :=
  mem_reverse.mp (mem_of_find?_eq_some h)

lemma lastWith_congr {test test' : Transaction → Bool}
    (h : ∀ tx ∈ txs, test tx = test' tx) : lastWith test txs = lastWith test' txs := by
  unfold lastWith
  exact List.find?_congr fun tx htx => h tx (mem_reverse.mp htx)

/-- The last transaction of a list with an identifier. -/
def lastInserted (txs : List Transaction) (txID : String) : Option Transaction :=
  lastWith (fun tx => tx.transactionID = txID) txs

/-- The byte strings whose digests are the paths of some transactions. -/
def idTexts (txs : List Transaction) : Set (List UInt8) :=
  {text | ∃ tx ∈ txs, text = Text.bytes tx.transactionID}

namespace PatriciaTrie

variable {C : Crypto} {txs : List Transaction} {t : PatriciaTrie}

/-- **What is listed**: the transactions that are the last ones of their path. The step is that an
insertion replaces the transaction with the same path. -/
lemma Inserted.mem_getAllTransactions_iff (h : Inserted C txs t) {tx : Transaction} :
    tx ∈ t.getAllTransactions ↔ lastWith (fun x => path C x = path C tx) txs = some tx := by
  induction h with
  | new => simp [lastWith]
  | @insert txs t last ht ih =>
    have hwf := ht.built.wellFormed
    rw [← getAllTransactions_forgetCaches, forgetCaches_insert, hwf.mem_getAllTransactions_insert,
      getAllTransactions_forgetCaches, ih, lastWith_append_singleton]
    by_cases hpath : path C last = path C tx
    · simp [hpath, eq_comm]
    · have hne : tx ≠ last := by
        rintro rfl
        exact hpath rfl
      simp [hpath, Ne.symm hpath, hne]
  | hashed _ ih => rw [getAllTransactions_generateRootHash, ih]
  | enumerated _ htu ih => rw [← htu.perm.mem_iff, ih]

lemma path_eq_iff {texts : Set (List UInt8)} (hinj : Set.InjOn C.sha256 texts) {x y : String}
    (hx : Text.bytes x ∈ texts) (hy : Text.bytes y ∈ texts) :
    idPath C x = idPath C y ↔ x = y := by
  refine ⟨fun h => Text.bytes_inj (hinj hx hy (Subtype.ext h)), fun h => by rw [h]⟩

lemma Inserted.mem_getAllTransactions_iff_lastInserted (h : Inserted C txs t)
    (hinj : Set.InjOn C.sha256 (idTexts txs)) {tx : Transaction} :
    tx ∈ t.getAllTransactions ↔ lastInserted txs tx.transactionID = some tx := by
  rw [h.mem_getAllTransactions_iff]
  by_cases htx : tx ∈ txs
  · rw [lastInserted, lastWith_congr fun x hx => ?_]
    rw [decide_eq_decide]
    exact path_eq_iff hinj ⟨x, hx, rfl⟩ ⟨tx, htx, rfl⟩
  · have hfound : ∀ {test : Transaction → Bool}, lastWith test txs ≠ some tx := fun hlast =>
      htx (mem_of_lastWith_eq_some hlast)
    exact iff_of_false hfound hfound

lemma Inserted.search_eq_lastInserted (h : Inserted C txs t)
    (hinj : Set.InjOn C.sha256 (idTexts txs ∪ {Text.bytes txID})) :
    t.search C txID = lastInserted txs txID := by
  have hids := hinj.mono Set.subset_union_left
  refine Option.ext fun tx => ?_
  rw [← search_forgetCaches, h.built.wellFormed.search_eq_some_iff,
    getAllTransactions_forgetCaches, h.mem_getAllTransactions_iff_lastInserted hids]
  constructor
  · rintro ⟨hlast, hpath⟩
    have htx : tx ∈ txs := mem_of_lastWith_eq_some hlast
    rwa [← (path_eq_iff hinj (.inl ⟨tx, htx, rfl⟩) (.inr rfl)).mp hpath]
  · intro hlast
    have hid : tx.transactionID = txID := by simpa using List.find?_some hlast
    subst hid
    exact ⟨hlast, rfl⟩

/-- **A trie is a map** from identifiers to transactions: a search finds the last transaction
inserted with the identifier, and each identifier is listed once and with that transaction. -/
theorem Inserted.is_map (h : Inserted C txs t) (hinj : Set.InjOn C.sha256 (idTexts txs)) :
    (∀ txID, Set.InjOn C.sha256 (idTexts txs ∪ {Text.bytes txID}) →
        t.search C txID = lastInserted txs txID) ∧
      (t.getAllTransactions.map Transaction.transactionID).Nodup ∧
      (∀ tx, tx ∈ t.getAllTransactions ↔ lastInserted txs tx.transactionID = some tx) ∧
      t.len = (txs.map Transaction.transactionID).toFinset.card := by
  have hmem := @Inserted.mem_getAllTransactions_iff_lastInserted C txs t h hinj
  have hnodup : (t.getAllTransactions.map Transaction.transactionID).Nodup :=
    h.built.nodup_getAllTransactions.map_on fun x hx y hy hid =>
      h.built.eq_of_transactionID_eq hx hy hid
  refine ⟨fun txID => h.search_eq_lastInserted, hnodup, fun tx => hmem, ?_⟩
  rw [len_eq_length, ← length_map (f := Transaction.transactionID), ← toFinset_card_of_nodup hnodup]
  congr 1
  ext txID
  simp only [mem_toFinset, mem_map, hmem]
  constructor
  · rintro ⟨tx, hlast, rfl⟩
    exact ⟨tx, mem_of_lastWith_eq_some hlast, rfl⟩
  · rintro ⟨tx, htx, rfl⟩
    obtain ⟨last, hlast⟩ := Option.isSome_iff_exists.mp (List.find?_isSome.mpr
      ⟨tx, mem_reverse.mpr htx, by simp⟩ :
      (txs.reverse.find? fun x => x.transactionID = tx.transactionID).isSome)
    have hid : last.transactionID = tx.transactionID := by simpa using List.find?_some hlast
    exact ⟨last, by rw [hid]; exact hlast, hid⟩

def resent : List Transaction :=
  [{ transactionID := "a", receiver := "x" }, { transactionID := "b" },
    { transactionID := "a", receiver := "y" }]

theorem is_map_resent : Set.InjOn sample.sha256 (idTexts resent) ∧
      (new.insertBatch sample resent).search sample "a" =
        some { transactionID := "a", receiver := "y" } ∧
      (new.insertBatch sample resent).len = 2 := by
  have hpairs : ∀ x ∈ resent, ∀ y ∈ resent, sampleHash (Text.bytes x.transactionID) =
      sampleHash (Text.bytes y.transactionID) → x.transactionID = y.transactionID := by
    decide +kernel
  have hinj : Set.InjOn sample.sha256 (idTexts resent) := by
    rintro _ ⟨x, hx, rfl⟩ _ ⟨y, hy, rfl⟩ h
    rw [hpairs x hx y hy h]
  obtain ⟨hsearch, -, -, hlen⟩ := (inserted_insertBatch sample resent).is_map hinj
  refine ⟨hinj, ?_, ?_⟩
  · rw [hsearch "a" (hinj.mono ?_)]
    · decide +kernel
    · rintro _ (h | rfl)
      · exact h
      · exact ⟨_, mem_cons_self, rfl⟩
  · rw [hlen]
    decide +kernel

end PatriciaTrie

end HybridChain
