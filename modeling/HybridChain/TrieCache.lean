import HybridChain.TrieMap

/-!
# The hash caches of the trie

A node remembers its hash until an insertion below it clears the cache. Here the map of children of
a node is enumerated anew only when an insertion has passed the node.

## Main definitions

* `insertIn`, `run`: calls with fixed orders
* `Coherent`: caches that are right

## Main results

* `inserted_run`: the calls insert what `insert` does
* `rootHash_run_eq`: caches do not change the root
-/

namespace HybridChain

open List
open EdgeTree (Tree)

namespace PatriciaTrie

/-! ## Calls with a fixed order -/

/-- An order of the children of each node, given by its path and the children it has. -/
structure ChildOrder where
  arrange : List UInt8 → List (UInt8 × PatriciaNode) → List (UInt8 × PatriciaNode)
  perm_arrange : ∀ p cs, (arrange p cs).Perm cs

variable (C : Crypto) (order : ChildOrder)

/-- `Insert`, with the children of the nodes on the way put in order. No other map changes, so the
other nodes keep their order. -/
def insertIn (t : PatriciaTrie) (tx : Transaction) : PatriciaTrie :=
  ⟨EdgeTree.modifyIn {} clearCache (fun _ => leaf C tx) order.arrange [] (path C tx) t.root⟩

inductive TrieCall where
  | insert (tx : Transaction)
  | generateRootHash

def call (t : PatriciaTrie) : TrieCall → PatriciaTrie
  | .insert tx => insertIn C order t tx
  | .generateRootHash => (generateRootHash C t).2

/-- The trie after some calls, starting with an empty one. -/
def run (calls : List TrieCall) : PatriciaTrie := calls.foldl (call C order) new

lemma enumerates_insertIn (t : PatriciaTrie) (tx : Transaction) :
    Enumerates (insert C t tx) (insertIn C order t tx) :=
  EdgeTree.reordered_modifyIn order.perm_arrange _ _ _

def insertedBy (calls : List TrieCall) : List Transaction := calls.filterMap fun
    | .insert tx => some tx
    | .generateRootHash => none

variable {t : PatriciaNode} (calls : List TrieCall)

lemma inserted_run : Inserted C (insertedBy calls) (run C order calls) := by
  induction calls using List.reverseRecOn with
  | nil => exact .new
  | append_singleton calls c ih =>
    rw [run, foldl_append, insertedBy, filterMap_append]
    cases c with
    | insert tx => exact (ih.insert tx).enumerated (enumerates_insertIn C order _ tx)
    | generateRootHash =>
      rw [show [TrieCall.generateRootHash].filterMap _ = ([] : List Transaction) from rfl,
        append_nil]
      exact ih.hashed

/-! ## Right caches -/

/-- Every cache is empty or holds the hash of the tree below it. -/
inductive Coherent : PatriciaNode → Prop
  | node {a : NodeData} {cs : List (UInt8 × PatriciaNode)}
    (cache : a.hashCache = "" ∨ a.hashCache = treeHash C (.node a cs))
    (children : ∀ c ∈ cs, Coherent c.2) : Coherent (.node a cs)

variable {C}

lemma coherent_node_iff {a : NodeData} {cs : List (UInt8 × PatriciaNode)} :
    Coherent C (.node a cs) ↔
      (a.hashCache = "" ∨ a.hashCache = treeHash C (.node a cs)) ∧ ∀ c ∈ cs, Coherent C c.2 := by
  constructor
  · rintro ⟨cache, children⟩
    exact ⟨cache, children⟩
  · rintro ⟨cache, children⟩
    exact .node cache children

lemma coherent_fresh : Coherent C (.node {} []) := .node (.inl rfl) (by simp)

/-- **An insertion keeps caches right**: those on its way are cleared, and nothing changes below the
other nodes. -/
lemma Coherent.modifyIn (tx : Transaction) (h : Coherent C t) (q p : List UInt8) :
    Coherent C (EdgeTree.modifyIn {} clearCache (fun _ => leaf C tx) order.arrange q p t) := by
  induction p generalizing q t with
  | nil =>
    obtain ⟨a, cs⟩ := t
    exact .node (.inl rfl) (coherent_node_iff.mp h).2
  | cons b p ih =>
    obtain ⟨a, cs⟩ := t
    have hcs := (coherent_node_iff.mp h).2
    refine .node (.inl rfl) fun c hc => ?_
    rw [(order.perm_arrange q _).mem_iff] at hc
    rcases EdgeTree.upsert_cases {} b
      (EdgeTree.modifyIn {} clearCache (fun _ => leaf C tx) order.arrange (q ++ [b]) p) cs with
      ⟨-, hupsert⟩ | ⟨l, u, r, rfl, hupsert⟩
    · rw [hupsert, mem_append, mem_singleton] at hc
      rcases hc with hc | rfl
      · exact hcs c hc
      · exact ih coherent_fresh _
    · rw [hupsert, mem_append, mem_cons] at hc
      rcases hc with hc | rfl | hc
      · exact hcs c (by simp [hc])
      · exact ih (hcs (b, u) (by simp)) _
      · exact hcs c (by simp [hc])

lemma treeHash_map_clearCache (t : PatriciaNode) :
    treeHash C (t.map clearCache) = treeHash C t := by
  induction t using Tree.ind with
  | h a cs ih =>
    rw [Tree.map_node, treeHash, EdgeTree.digest_node, EdgeTree.digest_node, map_map]
    have hchildren : cs.map ((fun c => EdgeTree.digest NodeData.isLeaf NodeData.hash (combine C)
        c.2) ∘ fun c => (c.1, c.2.map clearCache)) =
        cs.map fun c => EdgeTree.digest NodeData.isLeaf NodeData.hash (combine C) c.2 :=
      map_congr_left ih
    rw [hchildren]
    rfl

lemma treeHash_computeHash (t : PatriciaNode) : treeHash C (computeHash C t).2 = treeHash C t := by
  rw [← treeHash_map_clearCache, map_clearCache_computeHash, treeHash_map_clearCache]

lemma computeHashes_snd (cs : List (UInt8 × PatriciaNode)) :
    (computeHashes C cs).2 = cs.map fun c => (c.1, (computeHash C c.2).2) := by
  induction cs with
  | nil => rfl
  | cons c cs ih =>
    rw [map_cons, ← ih]
    rfl

lemma treeHash_node (a : NodeData) (cs : List (UInt8 × PatriciaNode)) : treeHash C (.node a cs) =
      if a.isLeaf then a.hash else combine C (cs.map fun c => treeHash C c.2) :=
  EdgeTree.digest_node ..

/-- **Generating a hash keeps caches right**, and what it returns is the hash of the tree. -/
lemma Coherent.computeHash (h : Coherent C t) : (PatriciaTrie.computeHash C t).1 = treeHash C t ∧
      Coherent C (PatriciaTrie.computeHash C t).2 := by
  induction t using Tree.ind with
  | h a cs ih =>
    obtain ⟨hcache, hcs⟩ := coherent_node_iff.mp h
    have hsame := treeHash_computeHash (C := C) (.node a cs)
    rw [PatriciaTrie.computeHash] at hsame ⊢
    split_ifs at hsame ⊢ with hempty hleaf
    · exact ⟨hcache.resolve_left hempty, h⟩
    · have hhash : a.hash = treeHash C (.node a cs) := by rw [treeHash_node, if_pos hleaf]
      exact ⟨hhash, .node (.inr (hhash.trans hsame.symm)) hcs⟩
    · have hhash : C.hashHex (computeHashes C cs).1 = treeHash C (.node a cs) := by
        rw [treeHash_node, if_neg hleaf, combine, computeHashes_fst, flatMap_map]
        exact congrArg C.hashHex (flatMap_congr fun c hc => by rw [(ih c hc (hcs c hc)).1])
      refine ⟨hhash, .node (.inr (hhash.trans hsame.symm)) fun c hc => ?_⟩
      rw [computeHashes_snd] at hc
      obtain ⟨d, hd, rfl⟩ := mem_map.mp hc
      exact (ih d hd (hcs d hd)).2

lemma Coherent.generateRootHash {t : PatriciaTrie} (h : Coherent C t.root) :
    t.rootHash C = t.forgetCaches.rootHash C ∧
      Coherent C (PatriciaTrie.generateRootHash C t).2.root := by
  have hchildren : t.forgetCaches.root.children.isEmpty = t.root.children.isEmpty := by
    obtain ⟨⟨a, cs⟩⟩ := t
    simp [forgetCaches, Tree.map_node, Tree.children]
  have huncached : ∀ a ∈ EdgeTree.nodes t.forgetCaches.root, a.hashCache = "" := by
    intro a ha
    rw [forgetCaches, EdgeTree.nodes_map] at ha
    obtain ⟨b, -, rfl⟩ := mem_map.mp ha
    rfl
  rw [rootHash, rootHash, PatriciaTrie.generateRootHash, PatriciaTrie.generateRootHash, hchildren]
  split_ifs
  · exact ⟨rfl, h⟩
  · refine ⟨?_, h.computeHash.2⟩
    exact h.computeHash.1.trans
      ((treeHash_map_clearCache t.root).symm.trans (computeHash_fst huncached).symm)

lemma coherent_run : Coherent C (run C order calls).root := by
  induction calls using List.reverseRecOn with
  | nil => exact coherent_fresh
  | append_singleton calls c ih =>
    rw [run, foldl_append]
    cases c with
    | insert tx => exact ih.modifyIn order tx [] _
    | generateRootHash => exact ih.generateRootHash.2

/-- **Caching is transparent.** After any calls of `Insert` and `GenerateRootHash`, a further
`GenerateRootHash` returns what it would return if nothing were cached. -/
theorem rootHash_run_eq (C : Crypto) (order : ChildOrder) (calls : List TrieCall) :
    (run C order calls).rootHash C = (run C order calls).forgetCaches.rootHash C :=
  (coherent_run order calls).generateRootHash.1

end PatriciaTrie

end HybridChain
