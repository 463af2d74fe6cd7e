import HybridChain.Addresses
import HybridChain.Block

/-!
# The text that the hash of a header covers

`Block.Hash`, `Block.CalculateHash` and `calculateHash` build the same text: twelve fields, each
with a bar after it, and the bytes of `ExtraData`.

## Main definitions

* `headerText`, `hashedFields`
* `NoBars`: no string contains a bar

## Main results

* `headerText_unambiguous`: the text determines the fields
-/

namespace HybridChain

open List Text
open KeyedLog (Store)

/-! ## The text -/

/-- What the three functions write, one after the other. -/
def headerWrites (header : BlockHeader) : List String := [toString header.version.toNat ++ "|",
    toString header.blockNumber.toNat ++ "|",
    header.previousHash ++ "|",
    toString header.timestamp ++ "|",
    header.merkleRoot ++ "|",
    header.stateRoot ++ "|",
    header.receiptsRoot ++ "|",
    toString header.nonce.toNat ++ "|",
    toString header.gasUsed.toNat ++ "|",
    toString header.difficulty.toNat ++ "|",
    toString header.gasLimit.toNat ++ "|",
    header.minedBy ++ "|",
    if header.extraData.length = 0 then "[]" else bytesText header.extraData]

def headerText (header : BlockHeader) : String := String.join (headerWrites header)

/-- What `Block.Hash` hashes, if no hash is remembered. -/
def Block.hashString (block : Block) : String := headerText block.header

/-- What `Block.CalculateHash` hashes. -/
def Block.calculateHashString (block : Block) : String := headerText block.header

/-- What `calculateHash` hashes. -/
def calculateHashString (block : Block) : String := headerText block.header

def BlockHeader.hashedFields (header : BlockHeader) : List String :=
  [toString header.version.toNat, toString header.blockNumber.toNat, header.previousHash,
    toString header.timestamp, header.merkleRoot, header.stateRoot, header.receiptsRoot,
    toString header.nonce.toNat, toString header.gasUsed.toNat, toString header.difficulty.toNat,
    toString header.gasLimit.toNat, header.minedBy, bytesText header.extraData]

lemma bytesText_nil : bytesText [] = "[]" := by decide

variable (bs : List UInt8) (header : BlockHeader)

lemma toList_headerText :
    (headerText header).toList = ['|'].intercalate (header.hashedFields.map String.toList) := by
  have hbar : "|".toList = ['|'] := by decide
  have hextra : (if header.extraData.length = 0 then "[]" else bytesText header.extraData) =
      bytesText header.extraData := by
    split_ifs with hempty
    · rw [length_eq_zero_iff.mp hempty, bytesText_nil]
    · rfl
  rw [headerText, headerWrites, hextra, String.toList_join]
  simp only [BlockHeader.hashedFields, String.toList_append, hbar, map_cons, map_nil,
    flatMap_cons, flatMap_nil, intercalate_cons_cons, intercalate_singleton,
    append_assoc, append_nil]

lemma headerText_eq_hashInput : headerText header = hashInput header := by
  have hbar : "|".toList = ['|'] := by decide
  have hchars : (hashInput header).toList =
      ['|'].intercalate (header.hashedFields.map String.toList) := by
    unfold hashInput
    simp only [BlockHeader.hashedFields, String.toList_append, hbar, map_cons, map_nil,
      intercalate_cons_cons, intercalate_singleton, append_assoc]
  exact String.toList_inj.mp ((toList_headerText header).trans hchars.symm)

lemma headerText_eq_intercalate :
    headerText header = (String.singleton '|').intercalate header.hashedFields := by
  have hchars : ((String.singleton '|').intercalate header.hashedFields).toList =
      ['|'].intercalate (header.hashedFields.map String.toList) := by
    rw [String.toList_intercalate, String.toList_singleton]
  exact String.toList_inj.mp ((toList_headerText header).trans hchars.symm)

/-! ## Texts without a bar -/

def NoBar (text : String) : Prop := '|' ∉ text.toList

instance (text : String) : Decidable (NoBar text) :=
  inferInstanceAs (Decidable ('|' ∉ text.toList))

lemma noBar_toString_nat (n : ℕ) : NoBar (toString n) := by
  intro h
  exact absurd (isDigit_of_mem_repr h) (by decide)

lemma noBar_toString_int (z : ℤ) : NoBar (toString z) := by
  intro h
  rcases isDigit_or_of_mem_toString h with hdigit | hminus
  · exact absurd hdigit (by decide)
  · exact absurd hminus (by decide)

lemma NoBar.append {s t : String} (hs : NoBar s) (ht : NoBar t) : NoBar (s ++ t) := by
  rw [NoBar, String.toList_append, mem_append, not_or]
  exact ⟨hs, ht⟩

lemma noBar_hex : NoBar (Text.hex bs) := by
  have hdigit : ∀ n < 16, Text.hexDigit n ≠ '|' := by decide
  intro h
  rw [Text.hex, String.toList_ofList, mem_flatMap] at h
  obtain ⟨b, -, hb⟩ := h
  have hlt := b.toNat_lt
  rw [Text.hexByte, mem_cons, mem_singleton] at hb
  rcases hb with hb | hb
  · exact hdigit _ (by omega) hb.symm
  · exact hdigit _ (by omega) hb.symm

lemma noBar_addressText (hash checksum : List UInt8) : NoBar (addressText hash checksum) := by
  have hsup : NoBar "sup" := by decide
  exact (hsup.append (noBar_hex hash)).append (noBar_hex checksum)

/-! ## The bytes -/

/-- The numbers of some bytes as they are printed. -/
def byteNumerals (bs : List UInt8) : List String := bs.map fun b => toString b.toNat

lemma toList_bytesText : (bytesText bs).toList =
    '[' :: (((String.singleton ' ').intercalate (byteNumerals bs)).toList ++ [']']) := by
  have hspace : " " = String.singleton ' ' := by decide
  have hopen : "[".toList = ['['] := by decide
  have hclose : "]".toList = [']'] := by decide
  rw [bytesText, hspace, String.toList_append, String.toList_append, hopen, hclose]
  rfl

lemma byteNumerals_injective : Function.Injective byteNumerals := by
  refine map_injective_iff.mpr fun b c h => ?_
  exact UInt8.toNat_inj.mp (repr_inj h)

lemma not_mem_of_mem_byteNumerals {c : Char} (hc : c.isDigit = false) :
    ∀ u ∈ byteNumerals bs, c ∉ u.toList := by
  intro u hu hmem
  obtain ⟨b, -, rfl⟩ := mem_map.mp hu
  rw [isDigit_of_mem_repr hmem] at hc
  exact absurd hc (by decide)

lemma intercalate_byteNumerals_ne_empty {bs : List UInt8} (h : bs ≠ []) :
    (String.singleton ' ').intercalate (byteNumerals bs) ≠ "" := by
  obtain ⟨b, bs, rfl⟩ := exists_cons_of_ne_nil h
  intro hempty
  have hone : byteNumerals (b :: bs) = [""] := by
    refine intercalate_inj (not_mem_of_mem_byteNumerals _ (by decide)) (by decide)
      (cons_ne_nil _ _) (cons_ne_nil _ _) (hempty.trans ?_)
    exact String.intercalate_singleton.symm
  have hpos : 0 < b.toNat.repr.length := Nat.length_repr_pos
  have hnumeral : b.toNat.repr = "" := (List.cons.inj hone).1
  rw [hnumeral] at hpos
  exact absurd hpos (by decide)

/-- **The text of some bytes determines them**: the numbers are read back by splitting at the blanks
between them. -/
theorem bytesText_inj {bs cs : List UInt8} (h : bytesText bs = bytesText cs) : bs = cs := by
  have hchars := congrArg String.toList h
  rw [toList_bytesText, toList_bytesText, List.cons.injEq, append_left_inj] at hchars
  have hnumerals := String.toList_inj.mp hchars.2
  rcases eq_or_ne bs [] with rfl | hbs
  · by_contra hcs
    exact intercalate_byteNumerals_ne_empty (Ne.symm hcs) hnumerals.symm
  rcases eq_or_ne cs [] with rfl | hcs
  · exact absurd hnumerals (intercalate_byteNumerals_ne_empty hbs)
  · refine byteNumerals_injective (intercalate_inj (not_mem_of_mem_byteNumerals _ (by decide))
      (not_mem_of_mem_byteNumerals _ (by decide)) ?_ ?_ hnumerals)
    · exact fun hnil => hbs (map_eq_nil_iff.mp hnil)
    · exact fun hnil => hcs (map_eq_nil_iff.mp hnil)

lemma noBar_bytesText : NoBar (bytesText bs) := by
  have hnumerals := not_mem_intercalate (by decide : '|' ≠ ' ')
    (not_mem_of_mem_byteNumerals bs (by decide))
  rw [NoBar, toList_bytesText, mem_cons, mem_append, mem_singleton]
  rintro (hopen | hmem | hclose)
  · exact absurd hopen (by decide)
  · exact hnumerals hmem
  · exact absurd hclose (by decide)

/-! ## Reading the fields back -/

/-- None of the five strings of a header contains a bar. -/
structure BlockHeader.NoBars (header : BlockHeader) : Prop where
  previousHash : NoBar header.previousHash
  merkleRoot : NoBar header.merkleRoot
  stateRoot : NoBar header.stateRoot
  receiptsRoot : NoBar header.receiptsRoot
  minedBy : NoBar header.minedBy

/-- Two headers have the same thirteen hashed fields. -/
structure BlockHeader.AgreeOnHashed (h₁ h₂ : BlockHeader) : Prop where
  version : h₁.version = h₂.version
  blockNumber : h₁.blockNumber = h₂.blockNumber
  previousHash : h₁.previousHash = h₂.previousHash
  timestamp : h₁.timestamp = h₂.timestamp
  merkleRoot : h₁.merkleRoot = h₂.merkleRoot
  stateRoot : h₁.stateRoot = h₂.stateRoot
  receiptsRoot : h₁.receiptsRoot = h₂.receiptsRoot
  nonce : h₁.nonce = h₂.nonce
  gasUsed : h₁.gasUsed = h₂.gasUsed
  difficulty : h₁.difficulty = h₂.difficulty
  gasLimit : h₁.gasLimit = h₂.gasLimit
  minedBy : h₁.minedBy = h₂.minedBy
  extraData : h₁.extraData = h₂.extraData

lemma BlockHeader.NoBars.hashedFields {header : BlockHeader} (h : header.NoBars) :
    ∀ field ∈ header.hashedFields, '|' ∉ field.toList := by
  simp only [BlockHeader.hashedFields, forall_mem_cons]
  exact ⟨noBar_toString_nat _, noBar_toString_nat _, h.previousHash, noBar_toString_int _,
    h.merkleRoot, h.stateRoot, h.receiptsRoot, noBar_toString_nat _, noBar_toString_nat _,
    noBar_toString_nat _, noBar_toString_nat _, h.minedBy, noBar_bytesText _, forall_mem_nil _⟩

lemma BlockHeader.agreeOnHashed_of_hashedFields {h₁ h₂ : BlockHeader}
    (h : h₁.hashedFields = h₂.hashedFields) : h₁.AgreeOnHashed h₂ := by
  simp only [BlockHeader.hashedFields, List.cons.injEq, and_true] at h
  obtain ⟨version, blockNumber, previousHash, timestamp, merkleRoot, stateRoot, receiptsRoot,
    nonce, gasUsed, difficulty, gasLimit, minedBy, extraData⟩ := h
  have hword : ∀ {m n : UInt64}, toString m.toNat = toString n.toNat → m = n :=
    fun heq => UInt64.toNat_inj.mp (repr_inj heq)
  exact {
    version := UInt32.toNat_inj.mp (repr_inj version)
    blockNumber := hword blockNumber
    previousHash := previousHash
    timestamp := int_toString_inj timestamp
    merkleRoot := merkleRoot
    stateRoot := stateRoot
    receiptsRoot := receiptsRoot
    nonce := hword nonce
    gasUsed := hword gasUsed
    difficulty := UInt32.toNat_inj.mp (repr_inj difficulty)
    gasLimit := hword gasLimit
    minedBy := minedBy
    extraData := bytesText_inj extraData }

lemma BlockHeader.NoBars.agreeOnHashed {h₁ h₂ : BlockHeader} (hb₁ : h₁.NoBars) (hb₂ : h₂.NoBars)
    (h : headerText h₁ = headerText h₂) : h₁.AgreeOnHashed h₂ := by
  rw [headerText_eq_intercalate, headerText_eq_intercalate] at h
  exact BlockHeader.agreeOnHashed_of_hashedFields
    (intercalate_inj hb₁.hashedFields hb₂.hashedFields (cons_ne_nil _ _) (cons_ne_nil _ _) h)

lemma calculateHash_eq_hashHex (C : Crypto) (header : BlockHeader) :
    calculateHash C header = C.hashHex (Text.bytes (headerText header)) := by
  rw [calculateHash, headerText_eq_hashInput]

/-- **The text that is hashed is unambiguous**: two blocks with the same text have the same thirteen
fields, if no string in their headers contains a bar. The three functions hash one text, and no
digest or address made here contains a bar. -/
theorem headerText_unambiguous (C : Crypto) :
    (∀ block₁ block₂ : Block, block₁.header.NoBars → block₂.header.NoBars →
      block₁.hashString = block₂.hashString → block₁.header.AgreeOnHashed block₂.header) ∧
    (∀ block : Block, block.calculateHashString = block.hashString ∧
      calculateHashString block = block.hashString ∧
      calculateHash C block.header = C.hashHex (Text.bytes (calculateHashString block)) ∧
      (block.originalHash = "" → block.getHash C = C.hashHex (Text.bytes block.hashString))) ∧
    (∀ data : List UInt8, NoBar (C.hashHex data)) ∧
    (∀ publicKey : PublicKey, NoBar (C.generateAddress publicKey) ∧
      ∃ address, C.generateAddressFromPublicKey publicKey = some address ∧ NoBar address) ∧
    ∀ publicKeyMap : Store String PublicKey,
      ∃ address, C.generateMultiSigAddress publicKeyMap = some address ∧ NoBar address := by
  refine ⟨?_, ?_, ?_, ?_, ?_⟩
  · intro block₁ block₂ hb₁ hb₂ htext
    exact hb₁.agreeOnHashed hb₂ htext
  · intro block
    refine ⟨rfl, rfl, calculateHash_eq_hashHex C block.header, ?_⟩
    intro hforgotten
    rw [Block.getHash, if_neg (not_not.mpr hforgotten)]
    exact calculateHash_eq_hashHex C block.header
  · intro data
    exact noBar_hex _
  · intro publicKey
    exact ⟨noBar_addressText _ _, _, C.generateAddressFromPublicKey_eq publicKey,
      noBar_addressText _ _⟩
  · intro publicKeyMap
    exact ⟨_, C.generateMultiSigAddress_eq publicKeyMap, noBar_addressText _ _⟩

theorem headerText_unambiguous_extraData :
    Block.hashString { header := { previousHash := "0", minedBy := "sup", extraData := [1, 2] } } ≠
      Block.hashString
        { header := { previousHash := "0", minedBy := "sup", extraData := [12] } } := by
  have hbars : ∀ extraData : List UInt8, BlockHeader.NoBars
      { previousHash := "0", minedBy := "sup", extraData := extraData } := by
    have hempty : NoBar "" := by decide
    intro extraData
    exact ⟨(by decide : NoBar "0"), hempty, hempty, hempty, (by decide : NoBar "sup")⟩
  intro htext
  have hfields := (headerText_unambiguous .sample).1 _ _ (hbars _) (hbars _) htext
  exact absurd hfields.extraData (by decide)

end HybridChain
