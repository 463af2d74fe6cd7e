import HybridChain.Lib.EdgeTree
import HybridChain.Transaction

/-!
# The transaction trie

`patricia_trie.go`: a trie over the 32 bytes of the `sha256` sum of a transaction's identifier, with
the transactions at its leaves.

A node lists its children in the order in which the running program happens to enumerate them. `Key`
is never used, and `Parent` only serves to reach the ancestors of a new leaf.

## Main definitions

* `PatriciaTrie`, `insert`, `generateRootHash`, `getAllTransactions`
* `Enumerates`: another order of the maps of children

## Main results

* `WellFormed.mem_getAllTransactions_insert`: what a trie lists
* `WellFormed.rootHash_eq`: what its root is
-/

namespace HybridChain

open List
open EdgeTree (Tree mem_nodes nodes paths)

structure NodeData where
  value : Option Transaction := none
  hash : String := ""
  isLeaf : Bool := false
  hashCache : String := ""

/-- A node with its children, in the order in which they are enumerated. -/
abbrev PatriciaNode := Tree UInt8 NodeData

structure PatriciaTrie where
  root : PatriciaNode

namespace PatriciaTrie

variable (C : Crypto)

/-- `NewPatriciaTrie`. -/
def new : PatriciaTrie := ⟨.node {} []⟩

/-- The path of a transaction: the digest of its identifier. -/
def path (tx : Transaction) : List UInt8 := (C.sha256 (Text.bytes tx.transactionID)).toList

def leaf (tx : Transaction) : NodeData where
  value := some tx
  hash := Text.hex (path C tx)
  isLeaf := true
  hashCache := ""

/-- `MarkDirty` on one node. -/
def clearCache (a : NodeData) : NodeData := { a with hashCache := "" }

/-- `Insert`: make the nodes along the path, set the leaf, and clear the caches on the way up. -/
def insert (t : PatriciaTrie) (tx : Transaction) : PatriciaTrie :=
  ⟨EdgeTree.modify {} clearCache (fun _ => leaf C tx) (path C tx) t.root⟩

def insertBatch (t : PatriciaTrie) (txs : List Transaction) : PatriciaTrie := txs.foldl (insert C) t

mutual

/-- `computeHash`: the hash of a node and the node with its cache filled. -/
def computeHash : PatriciaNode → String × PatriciaNode
  | .node a cs =>
    if a.hashCache ≠ "" then (a.hashCache, .node a cs)
    else if a.isLeaf then (a.hash, .node { a with hashCache := a.hash } cs)
    else
      let (combinedHash, cs) := computeHashes cs
      let hash := C.hashHex combinedHash
      (hash, .node { a with hashCache := hash } cs)

/-- The loop of `computeHash` over the children: their hashes, one after another. -/
def computeHashes : List (UInt8 × PatriciaNode) → List UInt8 × List (UInt8 × PatriciaNode)
  | [] => ([], [])
  | (b, t) :: cs =>
    let (hash, t) := computeHash t
    let (rest, cs) := computeHashes cs
    (Text.bytes hash ++ rest, (b, t) :: cs)

end

/-- `GenerateRootHash`: the root hash and the trie with its caches filled. -/
def generateRootHash (t : PatriciaTrie) : String × PatriciaTrie :=
  if t.root.children.isEmpty then (C.hashHex (Text.bytes ""), t)
  else
    let (hash, root) := computeHash C t.root
    (hash, ⟨root⟩)

def rootHash (t : PatriciaTrie) : String := (generateRootHash C t).1

/-- What a node adds to the listing of transactions. -/
def listed (a : NodeData) : List Transaction := if a.isLeaf then a.value.toList else []

def getAllTransactions (t : PatriciaTrie) : List Transaction := EdgeTree.preorder listed t.root

@[simp] lemma getAllTransactions_new : new.getAllTransactions = [] := by
  simp [new, getAllTransactions, EdgeTree.preorder_node, listed]

/-- Two tries that differ only in the order in which maps of children are enumerated. -/
def Enumerates (t u : PatriciaTrie) : Prop := EdgeTree.Reordered t.root u.root

/-- The children of every node are enumerated in the order of a ranking of the bytes. -/
def EnumeratedBy (rank : UInt8 → ℕ) (t : PatriciaTrie) : Prop := EdgeTree.Sorted rank 32 t.root

/-! ## The invariant of tries -/

/-- The invariant of tries made by `insert`, in any enumeration: leaves at depth 32, under the
path of their transaction, and nothing cached. -/
structure WellFormed (t : PatriciaTrie) : Prop where
  uniform : EdgeTree.Uniform NodeData.isLeaf 32 t.root
  uncached : ∀ a ∈ nodes t.root, a.hashCache = ""
  leaves : ∀ p a, (p, a) ∈ paths 32 t.root → ∃ tx, a = leaf C tx ∧ p = path C tx

@[simp] lemma length_path (tx : Transaction) : (path C tx).length = 32 :=
  (C.sha256 _).toList_length

lemma wellFormed_new : WellFormed C new where
  uniform := ⟨rfl, nodup_nil, by simp⟩
  uncached := by simp [new, mem_nodes]
  leaves := by simp [new, paths]

variable {C} {t : PatriciaTrie} {txs : List Transaction}

lemma WellFormed.mem_paths_insert (h : WellFormed C t) (tx : Transaction)
    {q : List UInt8} {a : NodeData} : (q, a) ∈ paths 32 (insert C t tx).root ↔
      (q = path C tx ∧ a = leaf C tx) ∨ (q ≠ path C tx ∧ (q, a) ∈ paths 32 t.root) := by
  have huni := h.uniform
  rw [← length_path C tx] at huni ⊢
  exact EdgeTree.mem_paths_modify (fun _ => rfl) (.inr huni)

lemma WellFormed.insert (h : WellFormed C t) (tx : Transaction) : WellFormed C (insert C t tx) where
  uniform := by
    have huni := h.uniform
    rw [← length_path C tx] at huni ⊢
    refine EdgeTree.uniform_modify ?_ ?_ rfl (.inr huni) <;> exact fun _ => rfl
  uncached := by
    refine EdgeTree.forall_mem_nodes_modify (P := fun a : NodeData => a.hashCache = "")
      rfl ?_ ?_ h.uncached <;> exact fun _ _ => rfl
  leaves := by
    intro p a hp
    rcases (h.mem_paths_insert tx).mp hp with ⟨rfl, rfl⟩ | ⟨-, hp⟩
    · exact ⟨tx, rfl, rfl⟩
    · exact h.leaves p a hp

/-- **The invariant holds of every trie the code builds.** -/
theorem wellFormed_insertBatch (C : Crypto) (txs : List Transaction) :
    WellFormed C (new.insertBatch C txs) := by
  have key : ∀ t : PatriciaTrie, WellFormed C t → WellFormed C (t.insertBatch C txs) := by
    induction txs with
    | nil => exact fun t ht => ht
    | cons tx txs ih => exact fun t ht => ih _ (ht.insert tx)
  exact key _ (wellFormed_new C)

lemma WellFormed.enumerates {t u : PatriciaTrie} (h : WellFormed C t) (htu : Enumerates t u) :
    WellFormed C u where
  uniform := htu.uniform h.uniform
  uncached := fun a ha => h.uncached a ((htu.preorder_perm _).mem_iff.mpr ha)
  leaves := fun p a hp => h.leaves p a ((htu.paths_perm 32).mem_iff.mpr hp)

/-! ## Listing -/

lemma listed_of_not_isLeaf (a : NodeData) (h : a.isLeaf = false) : listed a = [] := by
  simp [listed, h]

lemma length_listed_le (a : NodeData) : (listed a).length ≤ 1 := by
  unfold listed
  split_ifs
  · cases a.value <;> simp
  · simp

lemma WellFormed.getAllTransactions_eq (h : WellFormed C t) :
    t.getAllTransactions = (paths 32 t.root).flatMap fun e => listed e.2 :=
  h.uniform.preorder_eq listed_of_not_isLeaf

variable {tx : Transaction}

lemma WellFormed.mem_getAllTransactions (h : WellFormed C t) :
    tx ∈ t.getAllTransactions ↔ (path C tx, leaf C tx) ∈ paths 32 t.root := by
  rw [h.getAllTransactions_eq, mem_flatMap]
  constructor
  · rintro ⟨⟨p, a⟩, hp, htx⟩
    obtain ⟨tx', rfl, rfl⟩ := h.leaves p a hp
    obtain rfl : tx = tx' := by simpa [listed, leaf] using htx
    exact hp
  · exact fun hp => ⟨_, hp, by simp [listed, leaf]⟩

lemma WellFormed.map_path (h : WellFormed C t) :
    t.getAllTransactions.map (path C) = (paths 32 t.root).map Prod.fst := by
  rw [h.getAllTransactions_eq, map_flatMap, ← flatMap_singleton' ((paths 32
    t.root).map Prod.fst), flatMap_map]
  refine flatMap_congr fun e he => ?_
  obtain ⟨tx, ha, hp⟩ := h.leaves e.1 e.2 he
  simp [ha, hp, listed, leaf]

lemma WellFormed.nodup_map_path (h : WellFormed C t) :
    (t.getAllTransactions.map (path C)).Nodup := by
  rw [h.map_path]
  exact h.uniform.nodup_paths

lemma WellFormed.eq_of_transactionID_eq (h : WellFormed C t)
    {s u : Transaction} (hs : s ∈ t.getAllTransactions) (hu : u ∈ t.getAllTransactions)
    (hid : s.transactionID = u.transactionID) : s = u :=
  inj_on_of_nodup_map h.nodup_map_path hs hu (by rw [path, path, hid])

lemma WellFormed.nodup_getAllTransactions (h : WellFormed C t) : t.getAllTransactions.Nodup :=
  h.nodup_map_path.of_map _

/-- **An insertion replaces the transaction with the same digest**, if there is one. -/
theorem WellFormed.mem_getAllTransactions_insert (h : WellFormed C t) {tx' : Transaction} :
    tx' ∈ (PatriciaTrie.insert C t tx).getAllTransactions ↔
      tx' = tx ∨ (path C tx' ≠ path C tx ∧ tx' ∈ t.getAllTransactions) := by
  rw [(h.insert tx).mem_getAllTransactions, h.mem_paths_insert, h.mem_getAllTransactions]
  refine or_congr_left ⟨fun hl => ?_, fun hl => by rw [hl]; exact ⟨rfl, rfl⟩⟩
  exact Option.some.inj (congrArg NodeData.value hl.2)

lemma WellFormed.mem_map_path_insert (h : WellFormed C t) {p : List UInt8} :
    p ∈ (PatriciaTrie.insert C t tx).getAllTransactions.map (path C) ↔
      p ∈ t.getAllTransactions.map (path C) ∨ p = path C tx := by
  simp only [mem_map, h.mem_getAllTransactions_insert]
  constructor
  · rintro ⟨tx', rfl | ⟨-, htx'⟩, rfl⟩
    · exact .inr rfl
    · exact .inl ⟨tx', htx', rfl⟩
  · rintro (⟨tx', htx', rfl⟩ | rfl)
    · by_cases hp : path C tx' = path C tx
      · exact ⟨tx, .inl rfl, hp.symm⟩
      · exact ⟨tx', .inr ⟨hp, htx'⟩, rfl⟩
    · exact ⟨tx, .inl rfl, rfl⟩

lemma mem_map_path_insertBatch {p : List UInt8} :
    p ∈ (new.insertBatch C txs).getAllTransactions.map (path C) ↔ ∃ tx ∈ txs, p = path C tx := by
  have key : ∀ t : PatriciaTrie, WellFormed C t →
      (p ∈ (t.insertBatch C txs).getAllTransactions.map (path C) ↔
        p ∈ t.getAllTransactions.map (path C) ∨ ∃ tx ∈ txs, p = path C tx) := by
    induction txs with
    | nil => simp [insertBatch]
    | cons tx txs ih =>
      intro t ht
      have hcons : t.insertBatch C (tx :: txs) =
          (PatriciaTrie.insert C t tx).insertBatch C txs := rfl
      rw [hcons, ih _ (ht.insert tx), ht.mem_map_path_insert]
      simp [or_assoc]
  rw [key new (wellFormed_new C)]
  simp

lemma subset_of_insertBatch : (new.insertBatch C txs).getAllTransactions ⊆ txs := by
  have key : ∀ t : PatriciaTrie, WellFormed C t →
      (t.insertBatch C txs).getAllTransactions ⊆ txs ++ t.getAllTransactions := by
    induction txs with
    | nil => exact fun t _ => List.Subset.refl _
    | cons tx txs ih =>
      intro t ht x hx
      rcases mem_append.mp (ih _ (ht.insert tx) hx) with hx | hx
      · simp [hx]
      · rcases ht.mem_getAllTransactions_insert.mp hx with rfl | ⟨-, hx⟩ <;> simp [*]
  intro x hx
  simpa using key new (wellFormed_new C) hx

lemma mem_insertBatch_iff
    (hinj : ∀ x ∈ txs, ∀ y ∈ txs, path C x = path C y → x = y) :
    tx ∈ (new.insertBatch C txs).getAllTransactions ↔ tx ∈ txs := by
  refine ⟨fun h => subset_of_insertBatch h, fun h => ?_⟩
  obtain ⟨tx', htx', hpath⟩ := mem_map.mp (mem_map_path_insertBatch.mpr ⟨tx, h, rfl⟩)
  rwa [← hinj tx' (subset_of_insertBatch htx') tx h hpath]

lemma perm_insertBatch (hnd : (txs.map (path C)).Nodup) :
    (new.insertBatch C txs).getAllTransactions.Perm txs :=
  (perm_ext_iff_of_nodup (wellFormed_insertBatch C txs).nodup_getAllTransactions
    (hnd.of_map _)).mpr fun _ => mem_insertBatch_iff fun _ hx _ hy => inj_on_of_nodup_map hnd hx hy

lemma Enumerates.perm {t u : PatriciaTrie} (h : Enumerates t u) :
    t.getAllTransactions.Perm u.getAllTransactions :=
  h.preorder_perm listed

/-! ## Tries with cached hashes -/

/-- The trie without its cached hashes. -/
def forgetCaches (t : PatriciaTrie) : PatriciaTrie := ⟨t.root.map clearCache⟩

variable (C) in
/-- The tries that occur: made by insertions, with root hashes generated at any time and the maps
enumerated anew. -/
inductive Built : PatriciaTrie → Prop
  | new : Built new
  | insert {t : PatriciaTrie} (tx : Transaction) : Built t → Built (insert C t tx)
  | hashed {t : PatriciaTrie} : Built t → Built (generateRootHash C t).2
  | enumerated {t u : PatriciaTrie} : Built t → Enumerates t u → Built u

@[simp] lemma getAllTransactions_forgetCaches (t : PatriciaTrie) :
    t.forgetCaches.getAllTransactions = t.getAllTransactions :=
  EdgeTree.preorder_map clearCache listed t.root

lemma forgetCaches_insert (t : PatriciaTrie) (tx : Transaction) :
    (PatriciaTrie.insert C t tx).forgetCaches = PatriciaTrie.insert C t.forgetCaches tx := by
  rw [forgetCaches, PatriciaTrie.insert, EdgeTree.map_modify] <;> intros <;> rfl

lemma map_clearCache_computeHash (t : PatriciaNode) :
    (computeHash C t).2.map clearCache = t.map clearCache := by
  induction t using Tree.ind with
  | h a cs ih =>
    have hcs : (computeHashes C cs).2.map (fun c => (c.1, c.2.map clearCache)) =
        cs.map fun c => (c.1, c.2.map clearCache) := by
      induction cs with
      | nil => rfl
      | cons c cs ihcs =>
        have hrest := ihcs fun d hd => ih d (by simp [hd])
        simp only [computeHashes, map_cons, hrest, ih c (by simp)]
    rw [computeHash]
    split_ifs
    · rfl
    · simp only [Tree.map_node, clearCache]
    · simp only [Tree.map_node, clearCache, hcs]

lemma forgetCaches_generateRootHash (t : PatriciaTrie) :
    (generateRootHash C t).2.forgetCaches = t.forgetCaches := by
  unfold generateRootHash
  split_ifs
  · rfl
  · exact congrArg PatriciaTrie.mk (map_clearCache_computeHash t.root)

@[simp] lemma getAllTransactions_generateRootHash (t : PatriciaTrie) :
    (generateRootHash C t).2.getAllTransactions = t.getAllTransactions := by
  rw [← getAllTransactions_forgetCaches, forgetCaches_generateRootHash,
    getAllTransactions_forgetCaches]

/-- **Whatever is cached, a trie that occurs satisfies the invariant.** -/
theorem Built.wellFormed (h : Built C t) : WellFormed C t.forgetCaches := by
  induction h with
  | new => exact wellFormed_new C
  | insert tx _ ih =>
    rw [forgetCaches_insert]
    exact ih.insert tx
  | hashed _ ih =>
    rw [forgetCaches_generateRootHash]
    exact ih
  | enumerated _ htu ih => exact ih.enumerates (htu.map clearCache)

lemma built_insertBatch (C : Crypto) (txs : List Transaction) :
    Built C (new.insertBatch C txs) := by
  have key : ∀ t : PatriciaTrie, Built C t → Built C (t.insertBatch C txs) := by
    induction txs with
    | nil => exact fun t ht => ht
    | cons tx txs ih => exact fun t ht => ih _ (ht.insert tx)
  exact key _ .new

lemma Built.eq_of_transactionID_eq (h : Built C t) {s u : Transaction}
    (hs : s ∈ t.getAllTransactions) (hu : u ∈ t.getAllTransactions)
    (hid : s.transactionID = u.transactionID) : s = u := by
  rw [← getAllTransactions_forgetCaches] at hs hu
  exact h.wellFormed.eq_of_transactionID_eq hs hu hid

lemma Built.nodup_getAllTransactions (h : Built C t) :
    t.getAllTransactions.Nodup := by
  rw [← getAllTransactions_forgetCaches]
  exact h.wellFormed.nodup_getAllTransactions

lemma Built.exists_enumerates_last (h : Built C t)
    (htx : tx ∈ t.getAllTransactions) :
    ∃ u l, Enumerates t u ∧ u.getAllTransactions = l ++ [tx] := by
  have huni : EdgeTree.Uniform NodeData.isLeaf 32 t.root :=
    (EdgeTree.uniform_map_iff _ (f := clearCache) fun _ => rfl).mp h.wellFormed.uniform
  obtain ⟨u, l, hu, hl⟩ :=
    EdgeTree.exists_reordered_last listed_of_not_isLeaf length_listed_le huni htx
  exact ⟨⟨u⟩, l, hu, hl⟩

lemma Built.exists_enumerates_pair (h : Built C t) {x y : Transaction}
    (hxy : t.getAllTransactions.Perm [x, y]) :
    ∃ u, Enumerates t u ∧ u.getAllTransactions = [x, y] := by
  obtain ⟨u, l, hu, hl⟩ := h.exists_enumerates_last (hxy.mem_iff.mpr (by simp : y ∈ [x, y]))
  have hperm : (l ++ [y]).Perm ([x] ++ [y]) := hl ▸ hu.perm.symm.trans hxy
  rw [perm_append_right_iff, perm_singleton] at hperm
  exact ⟨u, hu, by rw [hl, hperm]; rfl⟩

/-! ## The root hash -/

variable (C) in
/-- The hash of a node from those of its children. -/
def combine (hashes : List String) : String := C.hashHex (hashes.flatMap Text.bytes)

variable (C) in
def treeHash : PatriciaNode → String := EdgeTree.digest NodeData.isLeaf NodeData.hash (combine C)

lemma computeHashes_fst (cs : List (UInt8 × PatriciaNode)) :
    (computeHashes C cs).1 = cs.flatMap fun c => Text.bytes (computeHash C c.2).1 := by
  induction cs with
  | nil => rfl
  | cons c cs ih =>
    rw [flatMap_cons, ← ih]
    rfl

lemma computeHash_fst {t : PatriciaNode} (h : ∀ a ∈ nodes t, a.hashCache = "") :
    (computeHash C t).1 = treeHash C t := by
  induction t using Tree.ind with
  | h a cs ih =>
    have ha : a.hashCache = "" := h a (mem_nodes.mpr (.inl rfl))
    have hcs : ∀ c ∈ cs, (computeHash C c.2).1 = treeHash C c.2 := fun c hc =>
      ih c hc fun x hx => h x (mem_nodes.mpr (.inr ⟨c, hc, hx⟩))
    rw [treeHash, EdgeTree.digest_node, computeHash]
    by_cases hleaf : a.isLeaf
    · simp [ha, hleaf]
    · simp only [ha, ne_eq, not_true_eq_false, if_false, hleaf, computeHashes_fst]
      rw [combine, flatMap_map]
      exact congrArg C.hashHex (flatMap_congr fun c hc => by rw [hcs c hc]; rfl)

/-- **The root hash is a digest of the tree.** The special case of the empty trie agrees with
it. -/
theorem WellFormed.rootHash_eq (h : WellFormed C t) : t.rootHash C = treeHash C t.root := by
  rw [rootHash, generateRootHash]
  split_ifs with hempty
  · obtain ⟨⟨a, cs⟩⟩ := t
    obtain rfl : cs = [] := by simpa [Tree.children] using hempty
    have ha : a.isLeaf = false := h.uniform.1
    simp [treeHash, EdgeTree.digest_node, ha, combine, Text.bytes]
  · exact computeHash_fst h.uncached

/-- The byte strings hashed on the way to the root hash. -/
def preimages (C : Crypto) (t : PatriciaTrie) : List (List UInt8) :=
  (EdgeTree.combined NodeData.isLeaf NodeData.hash (combine C) 32 t.root).map
    fun hashes => hashes.flatMap Text.bytes

end PatriciaTrie

end HybridChain
