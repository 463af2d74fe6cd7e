import HybridChain.SendTransaction

/-!
# The addresses that wallets hand out

Four functions make addresses. `ValidateAddress` asks for four bytes of the hash of the ten bytes
before them, which only `GenerateAddress` writes.

Slicing behind the end of a text panics, which is `none` here. The texts that are sliced have
characters of one byte, and are ordered as their bytes are.

## Main definitions

* `generateAddressFromPublicKey` (`hd_wallet.go`), `generateMultiSigAddress`
  (`multi_sig_wallet.go`), `encodeAddress` (`wallet.go`)

## Main results

* `addresses_accepted_iff`: which addresses are accepted
-/

namespace HybridChain

open List
open KeyedLog (Store)
open Text (bytes hex)

/-- `s[:n]`. -/
def sliceTo (s : String) (n : ℕ) : Option String :=
  if n ≤ (bytes s).length then some (String.ofList (s.toList.take n)) else none

/-- `big.Int.Text(16)`. -/
def hexNumber (n : ℕ) : String := String.ofList (Nat.toDigits 16 n)

namespace Crypto

variable (C : Crypto)

def keyHash (publicKey : PublicKey) : List UInt8 :=
  (C.sha256 (bigBytes publicKey.x ++ bigBytes publicKey.y)).toList

def generateAddressFromPublicKey (publicKey : PublicKey) : Option String :=
  let hash := C.keyHash publicKey
  let checksum := (C.sha256 hash).toList
  let fullAddress := "sup" ++ hex (hash.take 10) ++ hex (checksum.take 4)
  let length := (bytes fullAddress).length
  if length < 30 then some (fullAddress ++ String.ofList (List.replicate (30 - length) 'x'))
  else if length > 36 then sliceTo fullAddress 36
  else some fullAddress

/-- The text that `GenerateMultiSigAddress` hashes. -/
def combinedKeys (publicKeyMap : Store String PublicKey) : String :=
  (sortStrings publicKeyMap.keys).foldl (fun combined owner =>
      let pubKey := (publicKeyMap.lookup owner).getD ⟨0, 0⟩
      combined ++ owner ++ hexNumber pubKey.x ++ hexNumber pubKey.y)
    ""

def keySetHash (publicKeyMap : Store String PublicKey) : List UInt8 :=
  (C.sha256 (bytes (combinedKeys publicKeyMap))).toList

def generateMultiSigAddress (publicKeyMap : Store String PublicKey) : Option String :=
  sliceTo ("sup" ++ hex ((C.keySetHash publicKeyMap).take 28)) 31

def encodeAddress (publicKey : String) : Option String :=
  let hash := (C.sha256 (bytes publicKey)).toList
  let checksum := hash.take 4
  sliceTo ("sup" ++ hex (hash.take 10) ++ hex checksum) 36

/-! ## The parts of the addresses -/

lemma length_take_sha256 {k : ℕ} (hk : k ≤ 32) (data : List UInt8) :
    ((C.sha256 data).toList.take k).length = k := by
  rw [length_take, List.Vector.toList_length, min_eq_left hk]

lemma generateAddress_eq (publicKey : PublicKey) : C.generateAddress publicKey =
    addressText ((C.keyHash publicKey).take 10)
      ((C.sha256 ((C.keyHash publicKey).take 10)).toList.take 4) :=
  rfl

lemma generateAddressFromPublicKey_eq (publicKey : PublicKey) :
    C.generateAddressFromPublicKey publicKey = some (addressText ((C.keyHash publicKey).take 10)
      ((C.sha256 (C.keyHash publicKey)).toList.take 4)) := by
  have hlength : (bytes ("sup" ++ hex ((C.keyHash publicKey).take 10) ++
      hex ((C.sha256 (C.keyHash publicKey)).toList.take 4))).length = 31 :=
    length_bytes_addressText (C.length_take_sha256 (by norm_num) _)
      (C.length_take_sha256 (by norm_num) _)
  simp only [generateAddressFromPublicKey, hlength]
  rfl

lemma generateMultiSigAddress_eq (publicKeyMap : Store String PublicKey) :
    C.generateMultiSigAddress publicKeyMap = some (addressText ((C.keySetHash publicKeyMap).take 10)
        (((C.keySetHash publicKeyMap).drop 10).take 4)) := by
  set hash := C.keySetHash publicKeyMap with hhash
  have hlength : (bytes ("sup" ++ hex (hash.take 28))).length = 59 := by
    have hsup : (bytes "sup").length = 3 := by decide
    rw [Text.bytes_append, length_append, Text.length_bytes_hex, hsup, hhash, keySetHash,
      C.length_take_sha256 (by norm_num)]
  have hchars : ("sup" ++ hex (hash.take 28)).toList.take 31 =
      (addressText (hash.take 10) ((hash.drop 10).take 4)).toList := by
    have hcut := Text.take_flatMap_hexByte 14 (hash.take 28)
    rw [take_take, min_eq_left (by norm_num), take_add (i := 10) (j := 4)] at hcut
    simp only [addressText, String.toList_append, hex, String.toList_ofList]
    rw [append_assoc, ← flatMap_append, ← hcut]
    rfl
  rw [generateMultiSigAddress, sliceTo, if_pos (by rw [← hhash, hlength]; norm_num), ← hhash,
    hchars, String.ofList_toList]

lemma encodeAddress_eq_none (publicKey : String) : C.encodeAddress publicKey = none := by
  have hlength := length_bytes_addressText
    (C.length_take_sha256 (k := 10) (by norm_num) (bytes publicKey))
    (C.length_take_sha256 (k := 4) (by norm_num) (bytes publicKey))
  refine if_neg ?_
  show ¬ 36 ≤ (bytes (addressText _ _)).length
  rw [hlength]
  norm_num

lemma addressText_inj_right {hash checksum checksum' : List UInt8} :
    addressText hash checksum = addressText hash checksum' ↔ checksum = checksum' := by
  refine ⟨fun h => Text.hex_inj ?_, fun h => by rw [h]⟩
  have hchars := congrArg String.toList h
  simp only [addressText, String.toList_append] at hchars
  exact String.toList_inj.mp (append_cancel_left hchars)

/-! ## Which addresses are accepted -/

/-- **Which of the addresses that wallets hand out are accepted**, for any hash function.

* `GenerateAddress` of a key is valid.
* `GenerateAddressFromPublicKey` is valid, and the same address, exactly if the hashes of the digest
  of the key and of its first ten bytes begin with the same four bytes.
* `GenerateMultiSigAddress` is valid exactly if the four bytes of the digest behind the first ten
  begin the hash of these.
* `EncodeAddress` always panics. -/
theorem addresses_accepted_iff (C : Crypto) :
    (∀ publicKey, validateAddress C (C.generateAddress publicKey) = true) ∧
    (∀ publicKey, ∃ address, C.generateAddressFromPublicKey publicKey = some address ∧
      (validateAddress C address = true ↔ (C.sha256 ((C.keyHash publicKey).take 10)).toList.take 4 =
          (C.sha256 (C.keyHash publicKey)).toList.take 4) ∧ (address = C.generateAddress publicKey ↔
        (C.sha256 ((C.keyHash publicKey).take 10)).toList.take 4 =
          (C.sha256 (C.keyHash publicKey)).toList.take 4)) ∧
    (∀ publicKeyMap, ∃ address, C.generateMultiSigAddress publicKeyMap = some address ∧
      (validateAddress C address = true ↔
        (C.sha256 ((C.keySetHash publicKeyMap).take 10)).toList.take 4 =
          ((C.keySetHash publicKeyMap).drop 10).take 4)) ∧
    (∀ publicKey, C.encodeAddress publicKey = none) := by
  refine ⟨validateAddress_generateAddress C, fun publicKey => ?_, fun publicKeyMap => ?_,
    C.encodeAddress_eq_none⟩
  · refine ⟨_, C.generateAddressFromPublicKey_eq publicKey, ?_, ?_⟩
    · exact validateAddress_addressText_iff (C.length_take_sha256 (by norm_num) _)
        (C.length_take_sha256 (by norm_num) _) C
    · rw [generateAddress_eq, addressText_inj_right, eq_comm]
  · refine ⟨_, C.generateMultiSigAddress_eq publicKeyMap, ?_⟩
    have hrest : (((C.keySetHash publicKeyMap).drop 10).take 4).length = 4 := by
      rw [length_take, length_drop, keySetHash, List.Vector.toList_length]
      rfl
    exact validateAddress_addressText_iff (C.length_take_sha256 (by norm_num) _) hrest C

end Crypto

/-- Primitives whose hash repeats the length of the data. -/
def lengthHash : Crypto :=
  { Crypto.sample with
    sha256 := fun data => List.Vector.replicate 32 (UInt8.ofNat data.length) }

/-- **Three of the four are not accepted**: with a hash that depends on the length, the addresses of
a child key and of a multi-signature wallet are invalid, the first is not the address of the key,
and `EncodeAddress` panics. -/
theorem addresses_not_accepted :
    let key : PublicKey := ⟨1, 2⟩
    (lengthHash.generateAddressFromPublicKey key).map (validateAddress lengthHash) = some false ∧
      lengthHash.generateAddressFromPublicKey key ≠ some (lengthHash.generateAddress key) ∧
      (lengthHash.generateMultiSigAddress (Finmap.singleton "alice" key)).map
        (validateAddress lengthHash) = some false ∧
      lengthHash.encodeAddress "key" = none := by
  decide +kernel

end HybridChain
