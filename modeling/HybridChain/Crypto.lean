import HybridChain.Lib.KeyedLog
import HybridChain.Lib.Text

/-!
# Cryptographic primitives

Go's `crypto/sha256`, the point check of `crypto/ecdh` and the verification of `crypto/ecdsa` are
parameters; what `crypto.go`, `wallet.go` and `multi_sig_utils.go` write around them is translated.

`sha256` cannot be injective. Freedom from collisions is stated on the byte strings that are hashed,
as `Set.InjOn`.

## Main definitions

* `Crypto`, `hashHex`, `verifySignature`, `generateAddress`
* `Crypto.sample`: primitives that can be evaluated

## Main results

* `hashHex_eq_iff`: equal texts come from equal digests
-/

namespace HybridChain

open List
open KeyedLog (Store)
open Text (bytes hex)

/-- The 32 bytes of a `sha256` sum. -/
abbrev Digest := List.Vector UInt8 32

/-- An affine point, as in `ecdsa.PublicKey`. -/
structure PublicKey where
  x : ℕ
  y : ℕ
  deriving DecidableEq

/-- The primitives of Go's standard library that the code calls, and the process-wide
`PublicKeyDatabase`. -/
structure Crypto where
  /-- `sha256.Sum256`. -/
  sha256 : List UInt8 → Digest
  /-- Whether `ecdh.P256().NewPublicKey` accepts the encoding of a point. -/
  newPublicKey : List UInt8 → Bool
  /-- `ecdsa.Verify`. -/
  ecdsaVerify : PublicKey → List UInt8 → ℕ → ℕ → Bool
  /-- The keys known by address. -/
  publicKeyDatabase : Store String PublicKey

/-- `big.Int.SetBytes`: the number a byte string denotes, most significant byte first. -/
def setBytes (bs : List UInt8) : ℕ := bs.foldl (fun n b => n * 256 + b.toNat) 0

/-- `big.Int.Bytes`: the digits of a number in base 256, most significant first. -/
def bigBytes (n : ℕ) : List UInt8 := ((Nat.digits 256 n).map UInt8.ofNat).reverse

namespace Crypto

variable (C : Crypto)

/-- `hex.EncodeToString(sha256.Sum256(data)[:])`. -/
def hashHex (data : List UInt8) : String := hex (C.sha256 data).toList

lemma hashHex_eq_iff {a b : List UInt8} : C.hashHex a = C.hashHex b ↔ C.sha256 a = C.sha256 b :=
  ⟨fun h => Subtype.ext (Text.hex_inj h), fun h => by rw [hashHex, hashHex, h]⟩

@[simp] lemma length_bytes_hashHex (data : List UInt8) :
    (bytes (C.hashHex data)).length = 64 := by
  rw [hashHex, Text.length_bytes_hex, (C.sha256 data).toList_length]

lemma hashHex_ne_of_length {data : List UInt8} {s : String} (h : (bytes s).length ≠ 64) :
    C.hashHex data ≠ s := by
  rintro rfl
  exact h (C.length_bytes_hashHex data)

lemma hashHex_ne_empty (data : List UInt8) : C.hashHex data ≠ "" :=
  C.hashHex_ne_of_length (by decide)

/-- `VerifySignature` of `crypto.go`: the signature is the hexadecimal text of `r` followed by
`s`, each one half of the bytes, over the digest of the message. -/
def verifySignature (publicKey : PublicKey) (message signature : String) : Bool :=
  match Text.unhex signature with
  | none => false
  | some sigBytes =>
    let sigLen := sigBytes.length / 2
    C.ecdsaVerify publicKey (C.sha256 (bytes message)).toList
      (setBytes (sigBytes.take sigLen)) (setBytes (sigBytes.drop sigLen))

/-- `GetPublicKeyForAddress`: no key for the address `BLOCKCHAIN`, otherwise the entry of the
database. A caller that goes on with the nil key of `BLOCKCHAIN` crashes, so that case is
merged with the error. -/
def getPublicKeyForAddress (address : String) : Option PublicKey :=
  if address = "BLOCKCHAIN" then none else C.publicKeyDatabase.lookup address

/-- `GenerateAddress` of `wallet.go`. -/
def generateAddress (publicKey : PublicKey) : String :=
  let hash := (C.sha256 (bigBytes publicKey.x ++ bigBytes publicKey.y)).toList
  let checksum := (C.sha256 (hash.take 10)).toList
  "sup" ++ hex (hash.take 10) ++ hex (checksum.take 4)

end Crypto

/-! ## A concrete instance -/

/-- The first 31 bytes of a byte string, filled up with zeros. -/
def pad (bs : List UInt8) : List UInt8 := (bs ++ List.replicate 31 0).take 31

variable (bs : List UInt8) (tag : UInt8)

@[simp] lemma length_pad : (pad bs).length = 31 := by simp [pad]

lemma pad_append {as : List UInt8} (h : as.length = 31) (bs : List UInt8) :
    pad (as ++ bs) = as := by
  rw [pad, append_assoc, take_append_of_le_length (by omega), take_of_length_le (by omega)]

/-- A digest of 31 bytes of data and one byte of tag. -/
def Digest.tagged (bs : List UInt8) (tag : UInt8) : Digest := ⟨pad bs ++ [tag], by simp⟩

lemma Digest.tagged_inj {as bs : List UInt8} {a b : UInt8} (h : tagged as a = tagged bs b) :
    pad as = pad bs ∧ a = b := by
  have := append_inj (congrArg Subtype.val h) (by simp)
  exact ⟨this.1, singleton_inj.mp this.2⟩

/-- A stand-in for `sha256` that can be evaluated. The hash of a short string is the string with
tag 0; that of the hexadecimal text of a digest is the digest with the next tag, and that of a
longer one its first digest with tag 255. So the strings hashed in a small trie do not collide. -/
def sampleHash (data : List UInt8) : Digest :=
  match Text.unhexChars (data.map fun b => Char.ofNat b.toNat) with
  | none => .tagged data 0
  | some bs =>
    if data.length < 64 then .tagged data 0
    else if data.length = 64 then .tagged bs (bs.getD 31 0 + 1)
    else .tagged bs 255

/-- Primitives that can be evaluated, for examples: every key is accepted, and a signature verifies
when `r` is the number the signed digest denotes. -/
def Crypto.sample : Crypto where
  sha256 := sampleHash
  newPublicKey _ := true
  ecdsaVerify _ digest r _ := setBytes digest = r
  publicKeyDatabase := ∅

lemma unhexChars_bytes_hex :
    Text.unhexChars ((bytes (hex bs)).map fun b => Char.ofNat b.toNat) = some bs := by
  have hdigit : ∀ n < 16, Char.ofNat (UInt8.ofNat (Text.hexDigit n).toNat).toNat =
      Text.hexDigit n := by decide
  have hchars : (bs.flatMap Text.hexByte).map
      (fun c => Char.ofNat (UInt8.ofNat c.toNat).toNat) = bs.flatMap Text.hexByte := by
    refine (map_congr_left fun c hc => ?_).trans (map_id _)
    obtain ⟨b, -, hc⟩ := mem_flatMap.mp hc
    have hb := b.toNat_lt
    simp only [Text.hexByte, mem_cons, not_mem_nil, or_false] at hc
    rcases hc with rfl | rfl
    · exact hdigit _ (by omega)
    · exact hdigit _ (by omega)
  rw [Text.bytes_hex, map_map]
  rw [← Text.unhexChars_hex bs]
  exact congrArg Text.unhexChars hchars

lemma sampleHash_hex :
    sampleHash (bytes (hex (Digest.tagged bs tag).toList)) = .tagged bs (tag + 1) := by
  have hlen : (Digest.tagged bs tag).toList.length = 32 := (Digest.tagged bs tag).toList_length
  have htag : (Digest.tagged bs tag).toList.getD 31 0 = tag := by
    simp [Digest.tagged, List.Vector.toList, getD_eq_getElem?_getD]
  rw [sampleHash, unhexChars_bytes_hex]
  simp only [Text.length_bytes_hex, hlen, htag]
  norm_num
  exact Subtype.ext (congrArg (· ++ [tag + 1]) (pad_append (length_pad bs) [tag]))

lemma sampleHash_hex_append (d : Digest) : sampleHash (bytes (hex (Digest.tagged bs tag).toList) ++
      bytes (hex d.toList)) = .tagged bs 255 := by
  have hlen : ∀ d : Digest, d.toList.length = 32 := fun d => d.toList_length
  have hcat : bytes (hex (Digest.tagged bs tag).toList) ++ bytes (hex d.toList) =
      bytes (hex ((Digest.tagged bs tag).toList ++ d.toList)) := by
    simp [Text.bytes_hex]
  rw [hcat, sampleHash, unhexChars_bytes_hex]
  simp only [Text.length_bytes_hex, length_append, hlen]
  norm_num
  refine Subtype.ext (congrArg (· ++ [(255 : UInt8)]) ?_)
  rw [show (Digest.tagged bs tag).toList = pad bs ++ [tag] from rfl, append_assoc]
  exact pad_append (length_pad bs) _

end HybridChain
