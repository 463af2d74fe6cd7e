import HybridChain.Block

/-!
# What the transaction root commits to

The hashes of the leaves are the digests of transaction identifiers; the children of a node enter in
the order in which a Go map is enumerated.

## Main definitions

* `SameContents`, `SameIDs`, `Committed`

## Main results

* `rootHash_order_free_iff`: with two identifiers the root depends on the order
* `merkleRoot_binding_iff`: for a fixed order it commits to the identifiers only
-/

namespace HybridChain

open List
open Crypto (sample)
open EdgeTree (combined spine)
open Text (bytes hex)

namespace PatriciaTrie

variable {C : Crypto}

/-! ## Equal roots -/

variable {txs : List Transaction} {S : Set (List UInt8)} {tx : Transaction} (bs : List UInt8)

lemma injOn_combine {A : Set (List String)} (hS : Set.InjOn C.sha256 S)
    (hA : ∀ l ∈ A, l.flatMap bytes ∈ S)
    (hlen : ∀ l ∈ A, ∀ hash ∈ l, (bytes hash).length = 64) : Set.InjOn (combine C) A := by
  intro l hl m hm h
  have hflat : l.flatMap bytes = m.flatMap bytes := hS (hA l hl) (hA m hm) ((C.hashHex_eq_iff).mp h)
  have hmap : l.map bytes = m.map bytes := by
    refine Text.flatten_inj (n := 64) (by norm_num) ?_ ?_ hflat
    · simpa using hlen l hl
    · simpa using hlen m hm
  exact map_injective_iff.mpr (fun _ _ => Text.bytes_inj) hmap

variable {t : PatriciaTrie} {p q : List UInt8} {x y : UInt8}

lemma WellFormed.length_of_mem_combined (h : WellFormed C t) :
    ∀ l ∈ combined NodeData.isLeaf NodeData.hash (combine C) 32 t.root,
      ∀ hash ∈ l, (bytes hash).length = 64 := by
  refine EdgeTree.forall_mem_combined (P := fun hash => (bytes hash).length = 64) ?_ ?_
  · intro l
    simp [combine, Crypto.hashHex]
  · intro a ha hleaf
    obtain ⟨p, hp⟩ := h.uniform.exists_path_of_mem_nodes ha hleaf
    obtain ⟨tx, rfl, -⟩ := h.leaves p a hp
    simp [leaf]

lemma WellFormed.leafDigests_eq (h : WellFormed C t) :
    EdgeTree.leafDigests NodeData.isLeaf NodeData.hash t.root =
      t.getAllTransactions.map fun tx => hex (path C tx) := by
  rw [EdgeTree.leafDigests, h.uniform.preorder_eq (by simp), h.getAllTransactions_eq, map_flatMap]
  refine flatMap_congr fun e he => ?_
  obtain ⟨tx, ha, -⟩ := h.leaves e.1 e.2 he
  simp [ha, leaf, listed]

/-- **Equal roots list the same identifiers**, in the same order. -/
theorem map_path_eq_of_rootHash_eq {s t : PatriciaTrie} (hs : WellFormed C s) (ht : WellFormed C t)
    (hinj : Set.InjOn C.sha256 {x | x ∈ s.preimages C ∨ x ∈ t.preimages C})
    (h : s.rootHash C = t.rootHash C) :
    s.getAllTransactions.map (path C) = t.getAllTransactions.map (path C) := by
  rw [hs.rootHash_eq, ht.rootHash_eq] at h
  have hcomb : Set.InjOn (combine C)
      {l | l ∈ combined NodeData.isLeaf NodeData.hash (combine C) 32 s.root ∨
        l ∈ combined NodeData.isLeaf NodeData.hash (combine C) 32 t.root} := by
    refine injOn_combine hinj ?_ ?_
    · exact fun l hl => hl.imp (fun hl => mem_map.mpr ⟨l, hl, rfl⟩)
        fun hl => mem_map.mpr ⟨l, hl, rfl⟩
    · exact fun l hl => hl.elim (hs.length_of_mem_combined l) (ht.length_of_mem_combined l)
  have hleaves := EdgeTree.leafDigests_eq_of_digest_eq hs.uniform ht.uniform hcomb h
  rw [hs.leafDigests_eq, ht.leafDigests_eq] at hleaves
  refine EdgeTree.map_eq_of_map_eq hleaves fun x _ y _ hxy => Text.hex_inj hxy

/-- **For a fixed enumeration order the root is a function of the identifiers.** -/
theorem rootHash_eq_of_paths {rank : UInt8 → ℕ} {s t : PatriciaTrie} (hs : WellFormed C s)
    (ht : WellFormed C t) (hss : EnumeratedBy rank s) (hst : EnumeratedBy rank t)
    (h : ∀ p, p ∈ s.getAllTransactions.map (path C) ↔ p ∈ t.getAllTransactions.map (path C)) :
    s.rootHash C = t.rootHash C := by
  rw [hs.rootHash_eq, ht.rootHash_eq]
  have hφ : ∀ {u : PatriciaTrie}, WellFormed C u → ∀ p a,
      (p, a) ∈ EdgeTree.paths 32 u.root → a.hash = hex p := by
    intro u hu p a hp
    obtain ⟨tx, rfl, rfl⟩ := hu.leaves p a hp
    rfl
  refine EdgeTree.digest_eq_of_paths hs.uniform ht.uniform hss hst (hφ hs) (hφ ht) fun p => ?_
  have hp := h p
  rw [hs.map_path, ht.map_path] at hp
  simpa using hp

lemma WellFormed.enumeratedBy_of_subsingleton (rank : UInt8 → ℕ) (h : WellFormed C t)
    (hone : ∀ x ∈ t.getAllTransactions, ∀ y ∈ t.getAllTransactions, path C x = path C y) :
    EnumeratedBy rank t := by
  refine EdgeTree.sorted_of_subsingleton rank h.uniform fun p x q y hp hq => ?_
  obtain ⟨s, rfl, rfl⟩ := h.leaves p x hp
  obtain ⟨u, rfl, rfl⟩ := h.leaves q y hq
  exact hone s (h.mem_getAllTransactions.mpr hp) u (h.mem_getAllTransactions.mpr hq)

/-! ## The root as a function of the transaction set -/

/-- The byte strings hashed when the transactions are inserted, in any order, and the root is
computed, with any enumeration of the children. -/
def hashedBy (C : Crypto) (txs : List Transaction) : Set (List UInt8) :=
  {x | (∃ tx ∈ txs, x = bytes tx.transactionID) ∨
    ∃ l t, l.Perm txs ∧ Enumerates (new.insertBatch C l) t ∧ x ∈ t.preimages C}

lemma exists_enumerates_path_last (C : Crypto) (htx : tx ∈ txs) :
    ∃ t l tx', Enumerates (new.insertBatch C txs) t ∧ t.getAllTransactions = l ++ [tx'] ∧
      path C tx' = path C tx := by
  obtain ⟨tx', htx', hpath⟩ := mem_map.mp (mem_map_path_insertBatch.mpr ⟨tx, htx, rfl⟩)
  obtain ⟨t, l, ht, hl⟩ := (built_insertBatch C txs).exists_enumerates_last htx'
  exact ⟨t, l, tx', ht, hl, hpath⟩

/-- The paths in the listing are those of the inserted transactions, in any order of insertion and
enumeration. -/
lemma mem_map_path_of_enumerates {C : Crypto} {txs l : List Transaction}
    (hl : l.Perm txs) (ht : Enumerates (new.insertBatch C l) t) (p : List UInt8) :
    p ∈ t.getAllTransactions.map (path C) ↔ ∃ tx ∈ txs, p = path C tx := by
  rw [← (ht.perm.map (path C)).mem_iff, mem_map_path_insertBatch]
  exact exists_congr fun tx => and_congr_left fun _ => hl.mem_iff

/-- **Roots that no enumeration changes have one identifier**: either of two identifiers can be
listed last, and equal roots list the same identifiers in the same order. -/
lemma transactionID_eq_of_rootHash_eq (hinj : Set.InjOn C.sha256 (hashedBy C txs))
    (h : ∀ s t, Enumerates (new.insertBatch C txs) s → Enumerates (new.insertBatch C txs) t →
      s.rootHash C = t.rootHash C) :
    ∀ x ∈ txs, ∀ y ∈ txs, x.transactionID = y.transactionID := by
  intro x hx y hy
  have hwf := wellFormed_insertBatch C txs
  -- each of the two identifiers is last in some enumeration
  obtain ⟨s, ls, x', hs, hls, hpx⟩ := exists_enumerates_path_last C hx
  obtain ⟨t, lt, y', ht, hlt, hpy⟩ := exists_enumerates_path_last C hy
  have hroots := map_path_eq_of_rootHash_eq (hwf.enumerates hs) (hwf.enumerates ht)
    (hinj.mono fun p hp => .inr (hp.elim (fun hp => ⟨txs, s, .refl _, hs, hp⟩)
      fun hp => ⟨txs, t, .refl _, ht, hp⟩)) (h s t hs ht)
  rw [hls, hlt, map_append, map_append] at hroots
  have hpath : path C x = path C y := by
    rw [← hpx, ← hpy]
    exact singleton_inj.mp (append_inj' hroots rfl).2
  have hdigest : C.sha256 (bytes x.transactionID) =
      C.sha256 (bytes y.transactionID) := Subtype.ext hpath
  exact Text.bytes_inj (hinj (.inl ⟨x, hx, rfl⟩) (.inl ⟨y, hy, rfl⟩) hdigest)

/-- **With one identifier the root is the same** for every order of insertion and every enumeration:
the tries are single paths, which are sorted in any order. -/
lemma rootHash_eq_of_one_identifier {txs l₁ l₂ : List Transaction} {t₁ t₂ : PatriciaTrie}
    (h : ∀ x ∈ txs, ∀ y ∈ txs, x.transactionID = y.transactionID) (h₁ : l₁.Perm txs)
    (h₂ : l₂.Perm txs) (ht₁ : Enumerates (new.insertBatch C l₁) t₁)
    (ht₂ : Enumerates (new.insertBatch C l₂) t₂) : t₁.rootHash C = t₂.rootHash C := by
  have hsorted : ∀ {l : List Transaction} {t : PatriciaTrie}, l.Perm txs →
      Enumerates (new.insertBatch C l) t → EnumeratedBy UInt8.toNat t := by
    intro l t hl ht
    refine ((wellFormed_insertBatch C l).enumerates ht).enumeratedBy_of_subsingleton _
      fun x hx y hy => ?_
    obtain ⟨x', hx', hpx⟩ :=
      (mem_map_path_of_enumerates hl ht _).mp (mem_map_of_mem (f := path C) hx)
    obtain ⟨y', hy', hpy⟩ :=
      (mem_map_path_of_enumerates hl ht _).mp (mem_map_of_mem (f := path C) hy)
    rw [hpx, hpy, path, path, h x' hx' y' hy']
  exact rootHash_eq_of_paths ((wellFormed_insertBatch C l₁).enumerates ht₁)
    ((wellFormed_insertBatch C l₂).enumerates ht₂) (hsorted h₁ ht₁) (hsorted h₂ ht₂)
    fun p => (mem_map_path_of_enumerates h₁ ht₁ p).trans (mem_map_path_of_enumerates h₂ ht₂ p).symm

/-- **The root is a function of the transaction set exactly when there is one identifier.** -/
theorem rootHash_order_free_iff (C : Crypto) (txs : List Transaction)
    (hinj : Set.InjOn C.sha256 (hashedBy C txs)) : (∀ l₁ l₂ t₁ t₂, l₁.Perm txs → l₂.Perm txs →
      Enumerates (new.insertBatch C l₁) t₁ → Enumerates (new.insertBatch C l₂) t₂ →
        t₁.rootHash C = t₂.rootHash C) ↔
      ∀ x ∈ txs, ∀ y ∈ txs, x.transactionID = y.transactionID := by
  constructor
  · intro h
    exact transactionID_eq_of_rootHash_eq hinj fun s t => h txs txs s t (.refl _) (.refl _)
  · intro h l₁ l₂ t₁ t₂
    exact rootHash_eq_of_one_identifier h

/-! ### Small tries over the sample hash -/

lemma root_insert_new (C : Crypto) (tx : Transaction) :
    (insert C new tx).root = spine {} (leaf C tx) (path C tx) :=
  EdgeTree.modify_fresh rfl rfl _

lemma mem_combined_spine_leaf (C : Crypto) (tx : Transaction) (p : List UInt8) {l : List String} :
    l ∈ combined NodeData.isLeaf NodeData.hash (combine C) p.length (spine {} (leaf C tx) p) ↔
      ∃ k < p.length, l = [(fun hash => combine C [hash])^[k] (hex (path C tx))] :=
  EdgeTree.mem_combined_spine rfl rfl p

lemma iterate_combine_sample (k : ℕ) :
    (fun hash => combine sample [hash])^[k] (hex (Digest.tagged bs 0).toList) =
      hex (Digest.tagged bs (UInt8.ofNat k)).toList := by
  induction k with
  | zero => rfl
  | succ k ih =>
    rw [Function.iterate_succ_apply', ih, combine, flatMap_cons, flatMap_nil,
      append_nil, Crypto.hashHex]
    change hex (sampleHash _).toList = _
    rw [sampleHash_hex, UInt8.ofNat_add]
    rfl

/-- Strings that the sample hash sends to digests with different data or different tags do not
collide. -/
lemma injOn_sample {Z : Set (List UInt8)} (hZ : Set.InjOn pad Z)
    (G : List UInt8 → UInt8 → List UInt8)
    (h : ∀ x ∈ S, ∃ z ∈ Z, ∃ tag, x = G z tag ∧ sampleHash x = .tagged z tag) :
    Set.InjOn sample.sha256 S := by
  intro x hx y hy hxy
  obtain ⟨z, hz, i, hxG, hxs⟩ := h x hx
  obtain ⟨w, hw, j, hyG, hys⟩ := h y hy
  change sampleHash x = sampleHash y at hxy
  rw [hxs, hys] at hxy
  obtain ⟨hpad, rfl⟩ := Digest.tagged_inj hxy
  obtain rfl : z = w := hZ hz hw hpad
  rw [hxG, hyG]

/-- A transaction with nothing but an identifier and a receiver. -/
def named (id receiver : String) : Transaction where
  transactionID := id
  receiver := receiver

/-- The string that the sample hash sends to the data of an identifier with a given tag. -/
def source (bs : List UInt8) (tag : UInt8) : List UInt8 :=
  if tag = 0 then bs else bytes (hex (Digest.tagged bs (tag - 1)).toList)

lemma sampleHash_source_ofNat {k : ℕ} (hk : k < 32) :
    bytes (hex (Digest.tagged bs (UInt8.ofNat k)).toList) = source bs (UInt8.ofNat k + 1) ∧
      sampleHash (bytes (hex (Digest.tagged bs (UInt8.ofNat k)).toList)) =
        .tagged bs (UInt8.ofNat k + 1) := by
  have hne : ∀ k < 32, UInt8.ofNat k + 1 ≠ 0 ∧ UInt8.ofNat k + 1 - 1 = UInt8.ofNat k := by decide
  refine ⟨?_, sampleHash_hex bs _⟩
  rw [source, if_neg (hne k hk).1, (hne k hk).2]

lemma mem_preimages_single {C : Crypto} {x : List UInt8}
    (hx : x ∈ (new.insertBatch C [tx]).preimages C) :
    ∃ k < 32, x = bytes ((fun hash => combine C [hash])^[k] (hex (path C tx))) := by
  obtain ⟨l, hl, rfl⟩ := mem_map.mp hx
  have hroot : (new.insertBatch C [tx]).root = spine {} (leaf C tx) (path C tx) :=
    root_insert_new C tx
  rw [hroot, ← length_path C tx, mem_combined_spine_leaf, length_path] at hl
  obtain ⟨k, hk, rfl⟩ := hl
  exact ⟨k, hk, by simp⟩

lemma injOn_sample_single (S : Set (List UInt8)) (hS : ∀ x ∈ S, x = bytes "a" ∨ ∃ r,
      x ∈ (new.insertBatch sample [named "a" r]).preimages sample) :
    Set.InjOn sample.sha256 S := by
  have hid : sampleHash (bytes "a") = .tagged (bytes "a") 0 := by decide
  refine injOn_sample (Z := {bytes "a"}) (Set.injOn_singleton _ _) source fun x hx => ?_
  rcases hS x hx with rfl | ⟨r, hx⟩
  · exact ⟨_, rfl, 0, rfl, hid⟩
  · obtain ⟨k, hk, hx⟩ := mem_preimages_single hx
    have hpath : path sample (named "a" r) = (Digest.tagged (bytes "a") 0).toList :=
      congrArg List.Vector.toList hid
    rw [hx, hpath, iterate_combine_sample]
    exact ⟨_, rfl, _, sampleHash_source_ofNat _ hk⟩

/-- The strings hashed for one transaction with the identifier `a`: a single path has no other
enumeration. -/
lemma injOn_hashedBy_single (receiver : String) :
    Set.InjOn sample.sha256 (hashedBy sample [named "a" receiver]) := by
  refine injOn_sample_single _ fun x hx => ?_
  rcases hx with ⟨tx, htx, rfl⟩ | ⟨l, t, hl, ht, hx⟩
  · obtain rfl : tx = named "a" receiver := by simpa using htx
    exact .inl rfl
  · obtain rfl : l = [named "a" receiver] := perm_singleton.mp hl
    have hroot := ht.eq_spine (path sample (named "a" receiver)) (root_insert_new _ _)
    obtain rfl : t = new.insertBatch sample [named "a" receiver] := by
      obtain ⟨root⟩ := t
      exact congrArg PatriciaTrie.mk (hroot.trans (root_insert_new _ _).symm)
    exact .inr ⟨_, hx⟩

theorem rootHash_order_free_single : Set.InjOn sample.sha256 (hashedBy sample [named "a" "bob"]) ∧
      ∀ l₁ l₂ t₁ t₂, l₁.Perm [named "a" "bob"] → l₂.Perm [named "a" "bob"] →
        Enumerates (new.insertBatch sample l₁) t₁ → Enumerates (new.insertBatch sample l₂) t₂ →
            t₁.rootHash sample = t₂.rootHash sample :=
  ⟨injOn_hashedBy_single "bob",
    (rootHash_order_free_iff _ _ (injOn_hashedBy_single "bob")).mpr (by simp)⟩

section Pair
variable {C : Crypto} {s t : Transaction} (hs : path C s = x :: p) (ht : path C t = y :: q)
  (hxy : x ≠ y)
include hs ht hxy

lemma root_insertBatch_pair :
    (new.insertBatch C [s, t]).root =
      .node {} [(x, spine {} (leaf C s) p), (y, spine {} (leaf C t) q)] := by
  change (insert C (insert C new s) t).root = _
  rw [insert, root_insert_new, hs, ht, spine, EdgeTree.modify]
  simp only [EdgeTree.upsert, if_neg hxy]
  rw [EdgeTree.modify_fresh rfl rfl]
  rfl

lemma mem_preimages_pair {z : List UInt8}
    (hz : z ∈ (new.insertBatch C [s, t]).preimages C) :
    z = bytes ((fun hash => combine C [hash])^[31] (hex (path C s))) ++
        bytes ((fun hash => combine C [hash])^[31] (hex (path C t))) ∨
      ∃ u ∈ [s, t], ∃ k < 31, z = bytes ((fun hash => combine C [hash])^[k] (hex (path C u))) := by
  have hlen : ∀ {u : Transaction} {b : UInt8} {r : List UInt8}, path C u = b :: r →
      r.length = 31 := by
    intro u b r h
    have := length_path C u
    rw [h, length_cons] at this
    omega
  have hdigest : ∀ (u : Transaction) (r : List UInt8), r.length = 31 →
      EdgeTree.digest NodeData.isLeaf NodeData.hash (combine C) (spine {} (leaf C u) r) =
        (fun hash => combine C [hash])^[31] (hex (path C u)) := by
    intro u r hr
    rw [EdgeTree.digest_spine rfl rfl, hr]
    rfl
  have hbelow : ∀ (u : Transaction) (r : List UInt8), r.length = 31 → ∀ l,
      l ∈ combined NodeData.isLeaf NodeData.hash (combine C) 31 (spine {} (leaf C u) r) →
          ∃ k < 31, l = [(fun hash => combine C [hash])^[k] (hex (path C u))] := by
    intro u r hr l hl
    rw [← hr, mem_combined_spine_leaf] at hl
    rwa [hr] at hl
  obtain ⟨l, hl, rfl⟩ := mem_map.mp hz
  rw [root_insertBatch_pair hs ht hxy] at hl
  simp only [combined, map_cons, map_nil, flatMap_cons, flatMap_nil,
    append_nil, mem_cons, mem_append, hdigest s p (hlen hs),
    hdigest t q (hlen ht)] at hl
  rcases hl with rfl | hl | hl
  · left
    simp
  · obtain ⟨k, hk, rfl⟩ := hbelow s p (hlen hs) l hl
    exact .inr ⟨s, by simp, k, hk, by simp⟩
  · obtain ⟨k, hk, rfl⟩ := hbelow t q (hlen ht) l hl
    exact .inr ⟨t, by simp, k, hk, by simp⟩

end Pair

/-- The string with tag 255 is the one hashed at the root, the other identifier coming second. -/
def sourceAB (bs : List UInt8) (tag : UInt8) : List UInt8 :=
  if tag = 255 then
    bytes (hex (Digest.tagged bs 31).toList) ++ bytes (hex (Digest.tagged
        (if bs = bytes "a" then bytes "b" else bytes "a") 31).toList)
  else source bs tag

lemma exists_sourceAB {c d : String} (hcd : (c = "a" ∧ d = "b") ∨ (c = "b" ∧ d = "a"))
    {x : List UInt8} (hx : x ∈ (new.insertBatch sample [named c "", named d ""]).preimages sample) :
    ∃ z ∈ ({bytes "a", bytes "b"} : Set (List UInt8)), ∃ tag,
      x = sourceAB z tag ∧ sampleHash x = .tagged z tag := by
  have hpath : ∀ e, e = "a" ∨ e = "b" →
      path sample (named e "") = (Digest.tagged (bytes e) 0).toList ∧
        bytes e ∈ ({bytes "a", bytes "b"} : Set (List UInt8)) := by
    rintro e (rfl | rfl)
    · exact ⟨by decide, by simp⟩
    · exact ⟨by decide, by simp⟩
  have hc : c = "a" ∨ c = "b" := hcd.imp And.left And.left
  have hd : d = "a" ∨ d = "b" := hcd.elim (fun h => .inr h.2) fun h => .inl h.2
  have hsplit : ∃ u v p q, path sample (named c "") = u :: p ∧
      path sample (named d "") = v :: q ∧ u ≠ v := by
    rcases hcd with ⟨rfl, rfl⟩ | ⟨rfl, rfl⟩
    · exact ⟨97, 98, List.replicate 31 0, List.replicate 31 0, by decide, by decide, by decide⟩
    · exact ⟨98, 97, List.replicate 31 0, List.replicate 31 0, by decide, by decide, by decide⟩
  obtain ⟨u, v, p, q, hp, hq, huv⟩ := hsplit
  rcases mem_preimages_pair hp hq huv hx with hroot | ⟨w, hw, k, hk, hlevel⟩
  · rw [hroot, (hpath c hc).1, (hpath d hd).1, iterate_combine_sample, iterate_combine_sample]
    refine ⟨_, (hpath c hc).2, 255, ?_, sampleHash_hex_append _ _ _⟩
    rw [sourceAB, if_pos rfl]
    rcases hcd with ⟨rfl, rfl⟩ | ⟨rfl, rfl⟩
    · rw [if_pos rfl]
      rfl
    · rw [if_neg (by decide)]
      rfl
  · obtain ⟨e, he, rfl⟩ : ∃ e, (e = "a" ∨ e = "b") ∧ w = named e "" := by
      rcases mem_cons.mp hw with rfl | hw
      · exact ⟨c, hc, rfl⟩
      · exact ⟨d, hd, mem_singleton.mp hw⟩
    have htag : ∀ k < 31, UInt8.ofNat k + 1 ≠ 255 := by decide
    rw [hlevel, (hpath e he).1, iterate_combine_sample]
    refine ⟨_, (hpath e he).2, UInt8.ofNat k + 1, ?_, sampleHash_hex _ _⟩
    rw [sourceAB, if_neg (htag k hk)]
    exact (sampleHash_source_ofNat _ (by omega)).1

/-- Two transactions inserted in the two orders: nothing collides, and the roots differ. -/
theorem rootHash_depends_on_order : Set.InjOn sample.sha256 {x | x = bytes "a" ∨ x = bytes "b" ∨
      x ∈ (new.insertBatch sample [named "a" "", named "b" ""]).preimages sample ∨
      x ∈ (new.insertBatch sample [named "b" "", named "a" ""]).preimages sample} ∧
      (new.insertBatch sample [named "a" "", named "b" ""]).rootHash sample ≠
        (new.insertBatch sample [named "b" "", named "a" ""]).rootHash sample := by
  have hpad : Set.InjOn pad {bytes "a", bytes "b"} := by
    have hne : pad (bytes "a") ≠ pad (bytes "b") := by decide
    rintro x (rfl | rfl) y (rfl | rfl) h
    · rfl
    · exact absurd h hne
    · exact absurd h.symm hne
    · rfl
  refine (and_iff_left_of_imp fun hinj hroot => ?_).mpr
    (injOn_sample hpad sourceAB fun x hx => ?_)
  · have hpaths := map_path_eq_of_rootHash_eq (wellFormed_insertBatch _ _)
      (wellFormed_insertBatch _ _) (hinj.mono fun x hx => .inr (.inr hx)) hroot
    exact absurd hpaths (by decide)
  · rcases hx with rfl | rfl | hx | hx
    · exact ⟨_, .inl rfl, 0, by decide, by decide⟩
    · exact ⟨_, .inr rfl, 0, by decide, by decide⟩
    · exact exists_sourceAB (.inl ⟨rfl, rfl⟩) hx
    · exact exists_sourceAB (.inr ⟨rfl, rfl⟩) hx

end PatriciaTrie

/-! ## The header and the contents of the body -/

/-- What the body of a block says about a transaction. -/
structure TransactionContents where
  transactionID : String
  sender : String
  receiver : String
  amount : ℚ
  inputs : List TransactionInput
  outputs : List TransactionOutput
  txType : ℤ
  deriving DecidableEq

/-- The contents of a transaction. -/
def Transaction.contents (tx : Transaction) : TransactionContents where
  transactionID := tx.transactionID
  sender := tx.sender
  receiver := tx.receiver
  amount := tx.amount
  inputs := tx.inputs
  outputs := tx.outputs
  txType := tx.txType

/-- The two bodies hold transactions with the same contents. -/
def SameContents (b₁ b₂ : Block) : Prop :=
  ∀ c, c ∈ b₁.transactions.map Transaction.contents ↔ c ∈ b₂.transactions.map Transaction.contents

/-- The two bodies hold transactions with the same identifiers. -/
def SameIDs (b₁ b₂ : Block) : Prop := ∀ id, id ∈ b₁.transactions.map Transaction.transactionID ↔
    id ∈ b₂.transactions.map Transaction.transactionID

/-- A block whose trie was made by inserting `txs`, is enumerated in the order `rank`, and has its
root in the header. -/
structure Committed (C : Crypto) (rank : UInt8 → ℕ) (block : Block) (txs : List Transaction) :
    Prop where
  built : PatriciaTrie.Enumerates (PatriciaTrie.new.insertBatch C txs) block.body.transactions
  ordered : PatriciaTrie.EnumeratedBy rank block.body.transactions
  merkleRoot : block.header.merkleRoot = block.body.transactions.rootHash C

/-- The byte strings hashed for the transaction roots of two blocks. -/
def hashedForRoots (C : Crypto) (b₁ b₂ : Block) : Set (List UInt8) :=
  {x | (∃ tx ∈ b₁.transactions ++ b₂.transactions, x = bytes tx.transactionID) ∨
    x ∈ b₁.body.transactions.preimages C ∨ x ∈ b₂.body.transactions.preimages C}

variable {rank : UInt8 → ℕ} (r : String)

lemma Committed.wellFormed {C : Crypto} {block : Block}
    {txs : List Transaction} (h : Committed C rank block txs) :
    block.body.transactions.WellFormed C :=
  (PatriciaTrie.wellFormed_insertBatch C txs).enumerates h.built

/-- The headers of two blocks agree on the transaction root exactly when the bodies have the same
identifiers. -/
lemma merkleRoot_eq_iff_sameIDs {C : Crypto} {b₁ b₂ : Block}
    {txs₁ txs₂ : List Transaction} (h₁ : Committed C rank b₁ txs₁) (h₂ : Committed C rank b₂ txs₂)
    (hinj : Set.InjOn C.sha256 (hashedForRoots C b₁ b₂)) :
    b₁.header.merkleRoot = b₂.header.merkleRoot ↔ SameIDs b₁ b₂ := by
  have hpath : ∀ x ∈ b₁.transactions ++ b₂.transactions,
      ∀ y ∈ b₁.transactions ++ b₂.transactions, PatriciaTrie.path C x = PatriciaTrie.path C y →
        x.transactionID = y.transactionID := fun x hx y hy hxy =>
    Text.bytes_inj (hinj (.inl ⟨x, hx, rfl⟩) (.inl ⟨y, hy, rfl⟩) (Subtype.ext hxy))
  rw [h₁.merkleRoot, h₂.merkleRoot]
  constructor
  · intro hroot id
    have hlist := PatriciaTrie.map_path_eq_of_rootHash_eq h₁.wellFormed h₂.wellFormed
      (hinj.mono fun x hx => .inr hx) hroot
    have hids : b₁.transactions.map Transaction.transactionID =
        b₂.transactions.map Transaction.transactionID :=
      EdgeTree.map_eq_of_map_eq hlist fun x hx y hy =>
        hpath x (mem_append_left _ hx) y (mem_append_right _ hy)
    rw [hids]
  · intro hids
    refine PatriciaTrie.rootHash_eq_of_paths h₁.wellFormed h₂.wellFormed h₁.ordered h₂.ordered
      fun p => ?_
    -- a path is a function of the identifier
    have hmap : ∀ block : Block, block.body.transactions.getAllTransactions.map
        (PatriciaTrie.path C) = (block.transactions.map Transaction.transactionID).map
          fun id => (C.sha256 (bytes id)).toList := fun block => by
      rw [map_map]
      rfl
    rw [hmap b₁, hmap b₂, mem_map, mem_map]
    exact exists_congr fun id => and_congr_left fun _ => hids id

/-- **The header commits to the contents of the body exactly when the identifiers do**: equal
roots force equal contents if and only if equal identifiers do. -/
theorem merkleRoot_binding_iff (C : Crypto) (rank : UInt8 → ℕ) (b₁ b₂ : Block)
    (txs₁ txs₂ : List Transaction) (h₁ : Committed C rank b₁ txs₁)
    (h₂ : Committed C rank b₂ txs₂) (hinj : Set.InjOn C.sha256 (hashedForRoots C b₁ b₂)) :
    (b₁.header.merkleRoot = b₂.header.merkleRoot → SameContents b₁ b₂) ↔
      (SameIDs b₁ b₂ → SameContents b₁ b₂) := by
  rw [merkleRoot_eq_iff_sameIDs h₁ h₂ hinj]

def trieTo (receiver : String) : PatriciaTrie :=
  PatriciaTrie.new.insertBatch sample [PatriciaTrie.named "a" receiver]

def blockTo (receiver : String) : Block where
  header := { merkleRoot := (trieTo receiver).rootHash sample }
  body := { transactions := trieTo receiver }

lemma transactions_blockTo : (blockTo r).transactions = [PatriciaTrie.named "a" r] := by
  have hwf : (trieTo r).WellFormed sample := PatriciaTrie.wellFormed_insertBatch _ _
  refine perm_singleton.mp ((perm_ext_iff_of_nodup hwf.nodup_getAllTransactions
    (nodup_singleton _)).mpr fun x => ⟨fun hx => PatriciaTrie.subset_of_insertBatch hx,
      fun hx => ?_⟩)
  rw [mem_singleton.mp hx]
  exact (PatriciaTrie.wellFormed_new _).mem_getAllTransactions_insert.mpr (.inl rfl)

lemma committed_blockTo : Committed sample UInt8.toNat (blockTo r) [PatriciaTrie.named "a" r] where
  built := EdgeTree.Reordered.refl (trieTo r).root
  ordered := by
    have hwf : (trieTo r).WellFormed sample := PatriciaTrie.wellFormed_insertBatch _ _
    refine hwf.enumeratedBy_of_subsingleton _ fun x hx y hy => ?_
    rw [mem_singleton.mp (PatriciaTrie.subset_of_insertBatch hx),
      mem_singleton.mp (PatriciaTrie.subset_of_insertBatch hy)]
  merkleRoot := rfl

lemma injOn_hashedForRoots_blockTo (r r' : String) :
    Set.InjOn sample.sha256 (hashedForRoots sample (blockTo r) (blockTo r')) := by
  refine PatriciaTrie.injOn_sample_single _ fun x hx => ?_
  rcases hx with ⟨tx, htx, rfl⟩ | hx | hx
  · rw [transactions_blockTo, transactions_blockTo] at htx
    obtain rfl | rfl : tx = PatriciaTrie.named "a" r ∨ tx = PatriciaTrie.named "a" r' := by
      simpa using htx
    · exact .inl rfl
    · exact .inl rfl
  · exact .inr ⟨r, hx⟩
  · exact .inr ⟨r', hx⟩

theorem merkleRoot_binding_self :
    Committed sample UInt8.toNat (blockTo "bob") [PatriciaTrie.named "a" "bob"] ∧
      Set.InjOn sample.sha256 (hashedForRoots sample (blockTo "bob") (blockTo "bob")) ∧
      ((blockTo "bob").header.merkleRoot = (blockTo "bob").header.merkleRoot →
        SameContents (blockTo "bob") (blockTo "bob")) :=
  ⟨committed_blockTo _, injOn_hashedForRoots_blockTo _ _,
    (merkleRoot_binding_iff _ _ _ _ _ _ (committed_blockTo _) (committed_blockTo _)
      (injOn_hashedForRoots_blockTo _ _)).mpr fun _ _ => Iff.rfl⟩

/-- Two blocks with the same root, without collisions, that pay different receivers. -/
theorem merkleRoot_hides_receiver :
    Committed sample UInt8.toNat (blockTo "bob") [PatriciaTrie.named "a" "bob"] ∧
      Committed sample UInt8.toNat (blockTo "eve") [PatriciaTrie.named "a" "eve"] ∧
      Set.InjOn sample.sha256 (hashedForRoots sample (blockTo "bob") (blockTo "eve")) ∧
      (blockTo "bob").header.merkleRoot = (blockTo "eve").header.merkleRoot ∧
      (blockTo "bob").transactions.map Transaction.receiver = ["bob"] ∧
      (blockTo "eve").transactions.map Transaction.receiver = ["eve"] := by
  refine ⟨committed_blockTo _, committed_blockTo _, injOn_hashedForRoots_blockTo _ _, ?_, ?_, ?_⟩
  · rw [merkleRoot_eq_iff_sameIDs (committed_blockTo _) (committed_blockTo _)
      (injOn_hashedForRoots_blockTo _ _)]
    intro id
    rw [transactions_blockTo, transactions_blockTo]
    rfl
  · rw [transactions_blockTo]
    rfl
  · rw [transactions_blockTo]
    rfl

end HybridChain
