import HybridChain.Crypto
import HybridChain.Lib.PairTree

/-!
# Inclusion proofs for transactions

`generateMerkleProofForIndex` of `block.go`: the index is halved in the loop over the pairs of a
level, when its pair has been found, and once more after the loop.

## Main definitions

* `generateMerkleProofForIndex`, `foldMerkleProof`
* `ProofVerifies`: the proof leads to the root

## Main results

* `inclusion_proof_verifies_iff`: for which indices it does
-/

namespace HybridChain

open List

/-- The digest of two digests, one after the other. -/
def Crypto.hashDigests (C : Crypto) (a b : Digest) : Digest := C.sha256 (a.toList ++ b.toList)

def Crypto.hashID (C : Crypto) (txID : String) : Digest := C.sha256 (Text.bytes txID)

def Digest.hex (d : Digest) : String := Text.hex d.toList

/-- The digest that a hexadecimal text stands for. -/
def Digest.unhex (s : String) : Option Digest :=
  (Text.unhex s).bind fun bs => if h : bs.length = 32 then some ⟨bs, h⟩ else none

@[simp] lemma Digest.unhex_hex (d : Digest) : Digest.unhex d.hex = some d := by
  rw [unhex, hex, Text.unhex_hex, Option.bind_some, dif_pos d.toList_length]
  rfl

/-! ## The function -/

/-- The variables of the loop over the pairs of a level. -/
structure PairState where
  proof : List String
  nextLevel : List Digest := []
  currentIndex : ℕ

section Source

variable (C : Crypto)

/-- The loop over the pairs of a level, from the index `i` on. The level has been padded, so that
no pair is incomplete. -/
def pairLoop : ℕ → List Digest → PairState → PairState
  | i, left :: right :: level, s =>
    let nextLevel := s.nextLevel ++ [C.hashDigests left right]
    if i = s.currentIndex ∨ i + 1 = s.currentIndex then
      pairLoop (i + 2) level
        { proof := s.proof ++ [(if i = s.currentIndex then right else left).hex]
          nextLevel := nextLevel
          currentIndex := nextLevel.length - 1 }
    else pairLoop (i + 2) level { s with nextLevel := nextLevel }
  | _, _, s => s

lemma nextLevel_pairLoop : ∀ (i : ℕ) (level : List Digest) (s : PairState),
    (pairLoop C i (PairTree.pad level) s).nextLevel =
      s.nextLevel ++ PairTree.level C.hashDigests level
  | _, [], s => by simp [PairTree.pad, pairLoop, PairTree.level]
  | i, [a], s => by
    simp only [PairTree.pad, length_singleton, Nat.reduceMod, if_true, List.getLast?_singleton,
      Option.toList_some, singleton_append, pairLoop, PairTree.level]
    split_ifs <;> rfl
  | i, a :: b :: level, s => by
    rw [PairTree.pad_cons_cons, pairLoop, PairTree.level]
    by_cases hpair : i = s.currentIndex ∨ i + 1 = s.currentIndex
    · rw [if_pos hpair, nextLevel_pairLoop, append_assoc, singleton_append]
    · rw [if_neg hpair, nextLevel_pairLoop, append_assoc, singleton_append]

def proofLoop (currentLevel : List Digest) (currentIndex : ℕ) (proof : List String) :
    List String :=
  if _h : currentLevel.length > 1 then
    let s := pairLoop C 0 (PairTree.pad currentLevel)
      { proof := proof, currentIndex := currentIndex }
    proofLoop s.nextLevel (s.currentIndex / 2) s.proof
  else proof
  termination_by currentLevel.length
  decreasing_by
    rw [nextLevel_pairLoop, nil_append, PairTree.length_level]
    omega

def generateMerkleProofForIndex (hashes : List String) (index : ℕ) : List String :=
  if hashes.length = 0 then [] else proofLoop C (hashes.map C.hashID) index []

/-! ## What a proof should do -/

/-- Fold a proof from the digest of an identifier, placing each sibling on the left or on the right
by a bit of the index. A sibling that is not the text of a digest is an error. -/
def foldMerkleProof (start : Digest) (index : ℕ) (proof : List String) : Option Digest :=
  (proof.mapM Digest.unhex).map (PairTree.climb C.hashDigests start index)

/-- The root of the hash tree over identifiers, the last node of an odd level being repeated. -/
def merkleTreeRoot (hashes : List String) : Option Digest :=
  PairTree.root C.hashDigests (hashes.map C.hashID)

/-- The proof for an index leads from its identifier to the root. -/
def ProofVerifies (hashes : List String) (index : ℕ) : Prop :=
  ∃ txID root, hashes[index]? = some txID ∧ merkleTreeRoot C hashes = some root ∧
    foldMerkleProof C (C.hashID txID) index (generateMerkleProofForIndex C hashes index) = some root

end Source

/-! ## The siblings of a proof -/

section Siblings

variable {C : Crypto}

lemma pairLoop_of_lt : ∀ (i : ℕ) (level : List Digest) {s : PairState}, s.currentIndex < i →
    (pairLoop C i level s).proof = s.proof ∧
      (pairLoop C i level s).currentIndex = s.currentIndex
  | _, [], _, _ | _, [_], _, _ => ⟨rfl, rfl⟩
  | i, _ :: _ :: level, s, h => by
    rw [pairLoop, if_neg (by omega)]
    exact pairLoop_of_lt (i + 2) level (by omega : s.currentIndex < i + 2)

variable {level : List Digest} {index : ℕ}

lemma pairLoop_found {i : ℕ} {left right sibling : Digest}
    {s : PairState} (hi : i = 2 * s.nextLevel.length) (hle : i ≤ s.currentIndex)
    (hlt : s.currentIndex < i + 2)
    (hsib : (left :: right :: level)[PairTree.neighbour (s.currentIndex - i)]? = some sibling) :
    (pairLoop C i (left :: right :: level) s).proof = s.proof ++ [sibling.hex] ∧
      (pairLoop C i (left :: right :: level) s).currentIndex = s.currentIndex / 2 := by
  have hhalf : (s.nextLevel ++ [C.hashDigests left right]).length - 1 = s.currentIndex / 2 := by
    rw [length_append, length_singleton]
    omega
  have hsibling : (if i = s.currentIndex then right else left) = sibling := by
    split_ifs with hleft
    · have hzero : s.currentIndex - i = 0 := by omega
      simpa [hzero, PairTree.neighbour] using hsib
    · have hone : s.currentIndex - i = 1 := by omega
      simpa [hone, PairTree.neighbour] using hsib
  rw [pairLoop, if_pos (by omega), hsibling, hhalf]
  refine pairLoop_of_lt _ _ ?_
  show s.currentIndex / 2 < i + 2
  omega

/-- **The loop over the pairs**, for an index that is still to come. -/
lemma pairLoop_of_le : ∀ (i : ℕ) (level : List Digest) {s : PairState} {sibling : Digest},
    i = 2 * s.nextLevel.length → i ≤ s.currentIndex → s.currentIndex - i < level.length →
    (PairTree.pad level)[PairTree.neighbour (s.currentIndex - i)]? = some sibling →
    (pairLoop C i (PairTree.pad level) s).proof = s.proof ++ [sibling.hex] ∧
      (pairLoop C i (PairTree.pad level) s).currentIndex = s.currentIndex / 2
  | _, [], _, _, _, _, hlen, _ => absurd hlen (by simp)
  | i, [a], s, sibling, hi, hle, hlen, hsib => by
    rw [length_singleton] at hlen
    exact pairLoop_found hi hle (by omega) hsib
  | i, a :: b :: level, s, sibling, hi, hle, hlen, hsib => by
    rw [PairTree.pad_cons_cons] at hsib ⊢
    by_cases hlt : s.currentIndex < i + 2
    · exact pairLoop_found hi hle hlt hsib
    · have hnext : s.currentIndex - i = s.currentIndex - (i + 2) + 2 := by omega
      rw [hnext, PairTree.neighbour_add_two] at hsib
      have hrest : s.currentIndex - (i + 2) < level.length := by
        simp only [length_cons] at hlen
        omega
      rw [pairLoop, if_neg (by omega)]
      refine pairLoop_of_le (i + 2) level ?_ (not_lt.mp hlt) hrest hsib
      rw [length_append, length_singleton]
      omega

lemma proofLoop_eq (index : ℕ) (h : index < level.length)
    (proof : List String) : proofLoop C level index proof =
      proof ++ (PairTree.branch C.hashDigests (fun i => i / 2 / 2) level index).map Digest.hex := by
  have hne : level ≠ [] := ne_nil_of_length_pos (by omega)
  revert index proof
  refine PairTree.level_induction C.hashDigests ?_ ?_ level hne
  · intro a index _ proof
    rw [proofLoop, dif_neg (by simp), PairTree.branch_of_not_lt _ (by simp)]
    simp
  · intro level hlt ih index hindex proof
    obtain ⟨sibling, hsib, hbranch⟩ :=
      PairTree.branch_of_lt C.hashDigests (fun i => i / 2 / 2) hlt hindex
    obtain ⟨hproof, hcurrent⟩ := pairLoop_of_le (C := C) 0 level
      (s := { proof := proof, currentIndex := index }) rfl (Nat.zero_le _) hindex hsib
    rw [proofLoop, dif_pos hlt]
    simp only [hproof, hcurrent, nextLevel_pairLoop, nil_append]
    rw [ih, hbranch, map_cons, append_assoc, singleton_append]
    rw [PairTree.length_level]
    omega

/-- **The siblings of a proof** stand next to an index that is divided by four from level to
level. -/
lemma generateMerkleProofForIndex_eq {hashes : List String}
    (h : index < hashes.length) : generateMerkleProofForIndex C hashes index =
      (PairTree.branch C.hashDigests (fun i => i / 2 / 2) (hashes.map C.hashID) index).map
        Digest.hex := by
  rw [generateMerkleProofForIndex, if_neg (by omega), proofLoop_eq index (by simpa using h),
    nil_append]

lemma mapM_unhex_map_hex (siblings : List Digest) :
    (siblings.map Digest.hex).mapM Digest.unhex = some siblings := by
  induction siblings with
  | nil => rfl
  | cons s siblings ih => simp [mapM_cons, ih]

lemma proofVerifies_iff {hashes : List String} {txID : String}
    (h : hashes[index]? = some txID) : ProofVerifies C hashes index ↔
      merkleTreeRoot C hashes = some (PairTree.climb C.hashDigests (C.hashID txID) index
        (PairTree.branch C.hashDigests (fun i => i / 2 / 2) (hashes.map C.hashID) index)) := by
  have hindex : index < hashes.length := (List.getElem?_eq_some_iff.mp h).1
  have hfold : foldMerkleProof C (C.hashID txID) index (generateMerkleProofForIndex C hashes index)
      = some (PairTree.climb C.hashDigests (C.hashID txID) index
        (PairTree.branch C.hashDigests (fun i => i / 2 / 2) (hashes.map C.hashID) index)) := by
    rw [foldMerkleProof, generateMerkleProofForIndex_eq hindex, mapM_unhex_map_hex, Option.map_some]
  constructor
  · rintro ⟨txID', root, hid, hroot, hverifies⟩
    obtain rfl : txID = txID' := Option.some.inj (h.symm.trans hid)
    rw [hroot, ← hverifies, hfold]
  · intro hroot
    exact ⟨txID, _, h, hroot, hfold⟩

end Siblings

/-! ## When a proof leads to the root -/

section Verification

variable (C : Crypto)

/-- The siblings that the proof for an index should have. -/
def trueSiblings (hashes : List String) (index : ℕ) : List Digest :=
  PairTree.branch C.hashDigests (· / 2) (hashes.map C.hashID) index

def proofSiblings (hashes : List String) (index : ℕ) : List Digest :=
  PairTree.branch C.hashDigests (fun i => i / 2 / 2) (hashes.map C.hashID) index

/-- The byte strings that are hashed to build the tree and to fold the proof of an index. -/
def inclusionTexts (hashes : List String) (index : ℕ) : Set (List UInt8) :=
  {text | (∃ txID ∈ hashes, text = Text.bytes txID) ∨
    (∃ e ∈ PairTree.treePairs C.hashDigests (hashes.map C.hashID),
      text = e.1.toList ++ e.2.toList) ∨
    ∃ txID, hashes[index]? = some txID ∧
      ∃ e ∈ PairTree.climbPairs C.hashDigests (C.hashID txID) index (proofSiblings C hashes index),
        text = e.1.toList ++ e.2.toList}

variable {C}

lemma injOn_hashDigests {texts : Set (List UInt8)} (hinj : Set.InjOn C.sha256 texts) :
    Set.InjOn (fun e : Digest × Digest => C.hashDigests e.1 e.2)
      {e | e.1.toList ++ e.2.toList ∈ texts} := by
  rintro ⟨a, b⟩ hab ⟨c, d⟩ hcd h
  obtain ⟨hac, hbd⟩ := append_inj (hinj hab hcd h) (by simp)
  exact Prod.ext (Subtype.ext hac) (Subtype.ext hbd)

variable {hashes : List String} {index : ℕ}

/-- **Without collisions a proof leads to the root exactly if it has the right siblings.** -/
lemma proofVerifies_iff_siblings (h : index < hashes.length)
    (hinj : Set.InjOn C.sha256 (inclusionTexts C hashes index)) :
    ProofVerifies C hashes index ↔ proofSiblings C hashes index = trueSiblings C hashes index := by
  have hid : hashes[index]? = some hashes[index] := List.getElem?_eq_getElem h
  have hleaf : (hashes.map C.hashID)[index]? = some (C.hashID hashes[index]) := by
    rw [List.getElem?_map, hid]
    rfl
  have hroot := PairTree.climb_branch C.hashDigests index hleaf
  have hlen : index < (hashes.map C.hashID).length := by rwa [length_map]
  rw [proofVerifies_iff hid, merkleTreeRoot, hroot, Option.some.injEq]
  constructor
  · intro hclimb
    refine (PairTree.climb_inj (injOn_hashDigests hinj) ?_ ?_ ?_ hclimb).2.symm
    · rw [PairTree.length_branch (fun i => le_rfl) index hlen,
        PairTree.length_branch (fun i => Nat.div_le_self _ 2) index hlen]
    · intro e he
      exact .inr (.inl ⟨e, PairTree.mem_treePairs_of_mem_climbPairs _ index hleaf e he, rfl⟩)
    · intro e he
      exact .inr (.inr ⟨_, hid, e, he, rfl⟩)
  · intro hsiblings
    exact (congrArg _ hsiblings).symm

lemma iterate_div (m k i : ℕ) : (fun i => i / m)^[k] i = i / m ^ k := by
  induction k with
  | zero => simp
  | succ k ih => rw [Function.iterate_succ_apply', ih, Nat.div_div_eq_div_mul, pow_succ]

lemma div_pow_succ_eq_zero {m i : ℕ} (hm : 2 ≤ m) (hi : i < 2) (k : ℕ) : i / m ^ (k + 1) = 0 :=
  Nat.div_eq_of_lt <| calc
    i < 2 := hi
    _ ≤ m := hm
    _ ≤ m ^ (k + 1) := Nat.le_self_pow (by omega) m

variable (C) in
/-- The nodes of a level of the tree, the last one repeated if they are odd in number. -/
def treeLevel (hashes : List String) (k : ℕ) : List Digest :=
  PairTree.pad ((PairTree.level C.hashDigests)^[k] (hashes.map C.hashID))

lemma siblings_eq_iff (h : index < hashes.length) :
    proofSiblings C hashes index = trueSiblings C hashes index ↔
      ∀ k < PairTree.height C.hashDigests (hashes.map C.hashID),
        (treeLevel C hashes k)[PairTree.neighbour (index / 4 ^ k)]? =
          (treeLevel C hashes k)[PairTree.neighbour (index / 2 ^ k)]? := by
  have hlen : index < (hashes.map C.hashID).length := by rwa [length_map]
  have hquarter : (fun i : ℕ => i / 2 / 2) = fun i => i / 4 :=
    funext fun i => Nat.div_div_eq_div_mul i 2 2
  rw [proofSiblings, trueSiblings, PairTree.branch_eq_iff (fun i => Nat.div_le_self _ 2)
    (fun i => le_rfl) index index hlen hlen]
  simp only [hquarter, iterate_div, treeLevel]

lemma proofVerifies_of_lt (h : index < hashes.length) (hlt : index < 2) :
    ProofVerifies C hashes index := by
  have hid : hashes[index]? = some hashes[index] := List.getElem?_eq_getElem h
  have hleaf : (hashes.map C.hashID)[index]? = some (C.hashID hashes[index]) := by
    rw [List.getElem?_map, hid]
    rfl
  have hsiblings : proofSiblings C hashes index = trueSiblings C hashes index := by
    refine (siblings_eq_iff h).mpr fun k _ => ?_
    cases k with
    | zero => rfl
    | succ k =>
      rw [div_pow_succ_eq_zero (by omega) hlt, div_pow_succ_eq_zero (by omega) hlt]
  rw [proofVerifies_iff hid, merkleTreeRoot, PairTree.climb_branch C.hashDigests index hleaf]
  exact congrArg (fun siblings => some (PairTree.climb C.hashDigests _ index siblings))
    hsiblings.symm

/-- With distinct identifiers and without collisions, other indices have a wrong sibling above the
leaves. -/
lemma not_proofVerifies_of_le (h : index < hashes.length) (hle : 2 ≤ index) (hnd : hashes.Nodup)
    (hinj : Set.InjOn C.sha256 (inclusionTexts C hashes index)) :
    ¬ ProofVerifies C hashes index := by
  have hlen : (hashes.map C.hashID).length = hashes.length := length_map _
  have hleaves : (hashes.map C.hashID).Nodup := hnd.map_on fun x hx y hy hxy =>
    Text.bytes_inj (hinj (.inl ⟨x, hx, rfl⟩) (.inl ⟨y, hy, rfl⟩) hxy)
  have hpairs : ∀ e ∈ PairTree.pairs (hashes.map C.hashID), e ∈ {e : Digest × Digest |
      e.1.toList ++ e.2.toList ∈ inclusionTexts C hashes index} := by
    intro e he
    refine .inr (.inl ⟨e, ?_, rfl⟩)
    rw [PairTree.treePairs, dif_pos (by omega)]
    exact mem_append_left _ he
  have hlevel := PairTree.nodup_level C.hashDigests (injOn_hashDigests hinj) hpairs hleaves
  have hheight : 1 < PairTree.height C.hashDigests (hashes.map C.hashID) := by
    rw [PairTree.height_of_lt _ (by omega), PairTree.height_of_lt]
    · omega
    · rw [PairTree.length_level]
      omega
  rw [proofVerifies_iff_siblings h hinj, siblings_eq_iff h]
  intro hall
  refine PairTree.getElem?_neighbour_ne hlevel (c := index / 4) (e := index / 2) (by omega) ?_
    (hall 1 hheight)
  rw [PairTree.length_level]
  omega

/-- **When an inclusion proof leads to the root**: always for the first two indices; without
collisions exactly if the node next to `index / 4 ^ k` is the one next to `index / 2 ^ k` on every
level, and so for no other index if the identifiers are distinct. -/
theorem inclusion_proof_verifies_iff (C : Crypto) {hashes : List String} {index : ℕ}
    (h : index < hashes.length) : (index < 2 → ProofVerifies C hashes index) ∧
      (Set.InjOn C.sha256 (inclusionTexts C hashes index) → (ProofVerifies C hashes index ↔
          ∀ k < PairTree.height C.hashDigests (hashes.map C.hashID),
            (treeLevel C hashes k)[PairTree.neighbour (index / 4 ^ k)]? =
              (treeLevel C hashes k)[PairTree.neighbour (index / 2 ^ k)]?) ∧
        (hashes.Nodup → (ProofVerifies C hashes index ↔ index < 2))) := by
  refine ⟨proofVerifies_of_lt h, fun hinj => ⟨?_, fun hnd => ⟨?_, proofVerifies_of_lt h⟩⟩⟩
  · rw [proofVerifies_iff_siblings h hinj, siblings_eq_iff h]
  · intro hverifies
    by_contra hle
    exact not_proofVerifies_of_le h (not_lt.mp hle) hnd hinj hverifies

theorem inclusion_proof_verifies_second : ProofVerifies Crypto.sample ["a", "b", "c"] 1 :=
  (inclusion_proof_verifies_iff Crypto.sample (by decide)).1 (by decide)

/-- The third of four identifiers: on the second level the proof has the node that the way passes,
and not its sibling. -/
theorem inclusion_proof_third_of_four : ¬ ProofVerifies Crypto.sample ["a", "b", "c", "d"] 2 ∧
      ∀ C : Crypto, Set.InjOn C.sha256 (inclusionTexts C ["a", "b", "c", "d"] 2) →
        ¬ ProofVerifies C ["a", "b", "c", "d"] 2 := by
  have hid : ["a", "b", "c", "d"][2]? = some "c" := rfl
  refine ⟨?_, fun C hinj => ?_⟩
  · rw [proofVerifies_iff hid]
    decide +kernel
  · exact not_proofVerifies_of_le (by decide) (by decide) (by decide) hinj

end Verification

end HybridChain
