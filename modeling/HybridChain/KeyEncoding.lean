import HybridChain.BlockApproval
import HybridChain.Lib.BigEndian
import Mathlib.Data.Nat.Digits.Lemmas

/-!
# Keys and signatures as bytes

A key is written as numbers of 32 bytes (`wallet.go`). A signature is written without padding
(`SignMessage` of `crypto.go`, `SignBlock` of `wallet.go`): whoever reads it guesses that the second
number begins in the middle.

`make` with a negative length panics, which is `none` here. `ecdsa.Sign` and `IsOnCurve` are
parameters. A nil slice is an empty list.

## Main definitions

* `signMessage`, `splitSignature`, `paddedSignature`
* `serializeKeys`, `deserializeKeys`

## Main results

* `signatures_survive_iff`, `signature_leading_zero`
* `deserializeKeys_serializeKeys`
-/

namespace HybridChain

open List

/-! ## The bytes of a number -/

lemma setBytes_eq_decode : setBytes = BigEndian.decode := rfl

/-- **A number comes back from its bytes.** -/
@[simp] lemma setBytes_bigBytes (n : ℕ) : setBytes (bigBytes n) = n := by
  have hdigits : (Nat.digits 256 n).map (UInt8.toNat ∘ UInt8.ofNat) = Nat.digits 256 n := by
    refine (map_congr_left fun d hd => ?_).trans (map_id _)
    exact UInt8.toNat_ofNat_of_lt' (Nat.digits_lt_base (by norm_num) hd)
  rw [setBytes_eq_ofDigits, bigBytes, reverse_reverse, map_map, hdigits, Nat.ofDigits_digits]

lemma length_bigBytes_le_iff {n k : ℕ} : (bigBytes n).length ≤ k ↔ n < 256 ^ k := by
  rw [bigBytes, length_reverse, length_map, Nat.digits_length_le_iff (by norm_num)]

variable {n : ℕ} {r s : ℕ}

lemma length_bigBytes_le (h : n < 2 ^ 256) : (bigBytes n).length ≤ 32 :=
  length_bigBytes_le_iff.mpr (lt_of_lt_of_eq h (by norm_num))

lemma setBytes_lt_of_length_lt {bs : List UInt8} (h : bs.length < (bigBytes n).length) :
    setBytes bs < n := by
  by_contra hle
  have hlt : n < 256 ^ bs.length := lt_of_le_of_lt (not_lt.mp hle) (BigEndian.decode_lt bs)
  exact absurd (length_bigBytes_le_iff.mpr hlt) (not_le.mpr h)

/-! ## Signatures -/

def SigningWallet.signMessage (C : Crypto) (w : SigningWallet) (message : String) : Option String :=
  (w.ecdsaSign (C.sha256 (Text.bytes message)).toList).map fun (r, s) =>
    Text.hex (bigBytes r ++ bigBytes s)

/-- How `VerifySignature` reads a signature. -/
def splitSignature (sigBytes : List UInt8) : ℕ × ℕ :=
  let sigLen := sigBytes.length / 2
  (setBytes (sigBytes.take sigLen), setBytes (sigBytes.drop sigLen))

lemma Crypto.verifySignature_eq (C : Crypto) (publicKey : PublicKey) (message signature : String) :
    C.verifySignature publicKey message signature =
      ((Text.unhex signature).map splitSignature).any fun (r, s) =>
        C.ecdsaVerify publicKey (C.sha256 (Text.bytes message)).toList r s := by
  unfold verifySignature
  cases Text.unhex signature <;> rfl

/-- **The middle is where the second number begins** exactly if the numbers have equally many bytes
or the second has one more. -/
lemma splitSignature_append_iff (r s : ℕ) : splitSignature (bigBytes r ++ bigBytes s) = (r, s) ↔
      (bigBytes s).length = (bigBytes r).length ∨
        (bigBytes s).length = (bigBytes r).length + 1 := by
  set mid := (bigBytes r ++ bigBytes s).length / 2 with hmid
  rw [length_append] at hmid
  constructor
  · intro h
    obtain ⟨hr, hs⟩ := Prod.mk.inj h
    by_contra hne
    rcases lt_or_gt_of_ne (by omega : mid ≠ (bigBytes r).length) with hlt | hgt
    · refine (setBytes_lt_of_length_lt (n := r) ?_).ne hr
      rw [length_take]
      omega
    · refine (setBytes_lt_of_length_lt (n := s) ?_).ne hs
      rw [length_drop, length_append]
      omega
  · intro h
    have hcut : mid = (bigBytes r).length := by omega
    show (setBytes ((bigBytes r ++ bigBytes s).take mid),
      setBytes ((bigBytes r ++ bigBytes s).drop mid)) = _
    rw [hcut, take_left, drop_left, setBytes_bigBytes, setBytes_bigBytes]

/-- The signature that `SignBlock` makes of two numbers. -/
def paddedSignature (r s : ℕ) : List UInt8 :=
  let signature := bigBytes r ++ bigBytes s
  List.replicate (64 - signature.length) 0 ++ signature

lemma length_paddedSignature (hr : r < 2 ^ 256) (hs : s < 2 ^ 256) :
    (paddedSignature r s).length = 64 := by
  have hlr := length_bigBytes_le hr
  have hls := length_bigBytes_le hs
  rw [paddedSignature, length_append, length_replicate, length_append]
  omega

/-- **The halves of a padded signature are its numbers** exactly if the second has 32 bytes. -/
lemma paddedSignature_halves_iff (hr : 1 ≤ r) (hr' : r < 2 ^ 256) (hs : s < 2 ^ 256) :
    setBytes ((paddedSignature r s).take 32) = r ∧ setBytes ((paddedSignature r s).drop 32) = s ↔
      2 ^ 248 ≤ s := by
  have hlr := length_bigBytes_le hr'
  have hls := length_bigBytes_le hs
  have hsize : 2 ^ 248 ≤ s ↔ (bigBytes s).length = 32 := by
    have h31 : (bigBytes s).length ≤ 31 ↔ s < 2 ^ 248 := length_bigBytes_le_iff.trans (by norm_num)
    omega
  rw [hsize]
  set zeros : List UInt8 := List.replicate (64 - (bigBytes r ++ bigBytes s).length) 0 with hzeros
  have hfirst : (zeros ++ bigBytes r).length = 64 - (bigBytes s).length := by
    rw [length_append, hzeros, length_replicate, length_append]
    omega
  have hsplit : paddedSignature r s = (zeros ++ bigBytes r) ++ bigBytes s :=
    (append_assoc _ _ _).symm
  have hvalue : setBytes (zeros ++ bigBytes r) = r := by
    rw [hzeros, setBytes_eq_decode, BigEndian.decode_replicate_zero_append, ← setBytes_eq_decode,
      setBytes_bigBytes]
  constructor
  · rintro ⟨hhalf, -⟩
    by_contra hne
    have htake : (paddedSignature r s).take 32 = (zeros ++ bigBytes r).take 32 := by
      rw [hsplit, take_append_of_le_length (by omega)]
    have hrest : 0 < ((zeros ++ bigBytes r).drop 32).length := by
      rw [length_drop]
      omega
    have hdiv := BigEndian.decode_eq_div ((zeros ++ bigBytes r).take 32)
      ((zeros ++ bigBytes r).drop 32)
    rw [take_append_drop, ← setBytes_eq_decode, hvalue, ← htake, hhalf] at hdiv
    exact (Nat.div_lt_self hr (Nat.one_lt_pow hrest.ne' (by norm_num))).ne hdiv.symm
  · intro h32
    have hcut : (zeros ++ bigBytes r).length = 32 := by omega
    rw [hsplit, take_left' hcut, drop_left' hcut, hvalue, setBytes_bigBytes]
    exact ⟨rfl, rfl⟩

/-- **When signatures survive their encoding**: `VerifySignature` reads what `SignMessage` has
written exactly if the two numbers have equally many bytes or the second has one more; `SignBlock`
writes 64 bytes, whose halves are the numbers exactly if the second has no leading zero byte. -/
theorem signatures_survive_iff (C : Crypto) (r s : ℕ) (hr : 1 ≤ r) (hr' : r < 2 ^ 256)
    (hs : s < 2 ^ 256) : (∀ (w : SigningWallet) (message : String),
      w.ecdsaSign (C.sha256 (Text.bytes message)).toList = some (r, s) →
      ∃ signature sigBytes, w.signMessage C message = some signature ∧
        Text.unhex signature = some sigBytes ∧ (splitSignature sigBytes = (r, s) ↔
          (bigBytes s).length = (bigBytes r).length ∨
            (bigBytes s).length = (bigBytes r).length + 1)) ∧
    (∀ (w : SigningWallet) (block : Block) (hashBytes : List UInt8),
      Text.unhex (block.getHash C) = some hashBytes → w.ecdsaSign hashBytes = some (r, s) →
      ∃ signature, w.signBlock C block = .ok signature ∧ signature.length = 64 ∧
        (setBytes (signature.take 32) = r ∧ setBytes (signature.drop 32) = s ↔ 2 ^ 248 ≤ s)) := by
  constructor
  · intro w message hsign
    refine ⟨_, _, ?_, Text.unhex_hex (bigBytes r ++ bigBytes s), splitSignature_append_iff r s⟩
    rw [SigningWallet.signMessage, hsign]
    rfl
  · intro w block hashBytes hhash hsign
    refine ⟨paddedSignature r s, ?_, length_paddedSignature hr' hs,
      paddedSignature_halves_iff hr hr' hs⟩
    rw [SigningWallet.signBlock, hhash]
    simp only [hsign]
    rfl

def fixedSigner (r s : ℕ) : SigningWallet where
  address := ""
  ecdsaSign _ := some (r, s)

theorem signatures_survive_full : ∃ signature sigBytes,
      (fixedSigner (2 ^ 255) (2 ^ 255 + 1)).signMessage Crypto.sample "m" = some signature ∧
      Text.unhex signature = some sigBytes ∧
      splitSignature sigBytes = (2 ^ 255, 2 ^ 255 + 1) := by
  obtain ⟨signature, sigBytes, hsign, hunhex, hsplit⟩ :=
    (signatures_survive_iff Crypto.sample (2 ^ 255) (2 ^ 255 + 1) (by norm_num) (by norm_num)
      (by norm_num)).1 (fixedSigner (2 ^ 255) (2 ^ 255 + 1)) "m" rfl
  have hlength : ∀ n : ℕ, 2 ^ 255 ≤ n → n < 2 ^ 256 → (bigBytes n).length = 32 := by
    intro n hlow hhigh
    have hle := length_bigBytes_le hhigh
    have hgt : ¬ (bigBytes n).length ≤ 31 := by
      rw [length_bigBytes_le_iff]
      omega
    omega
  refine ⟨signature, sigBytes, hsign, hunhex, hsplit.mpr (.inl ?_)⟩
  rw [hlength _ (by norm_num) (by norm_num), hlength _ (by norm_num) (by norm_num)]

/-- **A leading zero byte spoils a signature**: 256 and 1 are read as 1 and 1, and in the signature
of a block they stand in one half. -/
theorem signature_leading_zero : (fixedSigner 256 1).signMessage Crypto.sample "m" = some "010001" ∧
      (Text.unhex "010001").map splitSignature = some (1, 1) ∧
      (fixedSigner 256 1).signBlock Crypto.sample
          { originalHash := "00" } = .ok (List.replicate 61 0 ++ [1, 0, 1]) ∧
      setBytes ((List.replicate 61 (0 : UInt8) ++ [1, 0, 1]).take 32) = 0 := by
  decide +kernel

/-! ## Keys -/

/-- An `ecdsa.PrivateKey`. -/
structure PrivateKey where
  d : ℕ
  publicKey : PublicKey
  deriving DecidableEq

/-- `make([]byte, n)`. -/
def makeBytes (n : ℤ) : Option (List UInt8) :=
  if n < 0 then none else some (List.replicate n.toNat 0)

def serializeKeys (privateKey : PrivateKey) (publicKey : PublicKey) :
    Option (List UInt8 × List UInt8) := do
  let privateKeyBytes := bigBytes privateKey.d
  let privateKeyBytes ←
    if privateKeyBytes.length < 32 then do
      let padding ← makeBytes (32 - privateKeyBytes.length)
      pure (padding ++ privateKeyBytes)
    else pure privateKeyBytes
  let paddingX ← makeBytes (32 - (bigBytes publicKey.x).length)
  let paddingY ← makeBytes (32 - (bigBytes publicKey.y).length)
  pure (privateKeyBytes, (paddingX ++ bigBytes publicKey.x) ++ (paddingY ++ bigBytes publicKey.y))

def deserializeKeys (isOnCurve : ℕ → ℕ → Bool) (privateKeyBytes publicKeyBytes : List UInt8) :
    Except String (PrivateKey × PublicKey) :=
  if privateKeyBytes.length = 0 then .error "private key bytes are nil or empty"
  else if publicKeyBytes.length < 64 then
    .error (s!"public key bytes are nil or invalid length (got {publicKeyBytes.length}, " ++
      "need at least 64)")
  else
    let d := setBytes privateKeyBytes
    let x := setBytes (publicKeyBytes.take 32)
    let y := setBytes (publicKeyBytes.drop 32)
    if !isOnCurve x y then .error "deserialized public key is not on the curve"
    else .ok (⟨d, ⟨x, y⟩⟩, ⟨x, y⟩)

/-- The bytes of a number, filled up to 32. -/
def padded (n : ℕ) : List UInt8 := List.replicate (32 - (bigBytes n).length) 0 ++ bigBytes n

lemma length_padded (h : n < 2 ^ 256) : (padded n).length = 32 := by
  have hle := length_bigBytes_le h
  rw [padded, length_append, length_replicate]
  omega

@[simp] lemma setBytes_padded (n : ℕ) : setBytes (padded n) = n := by
  rw [padded, setBytes_eq_decode, BigEndian.decode_replicate_zero_append, ← setBytes_eq_decode,
    setBytes_bigBytes]

lemma makeBytes_eq {k : ℕ} (h : k ≤ 32) :
    makeBytes (32 - (k : ℤ)) = some (List.replicate (32 - k) 0) := by
  have hcount : (32 - (k : ℤ)).toNat = 32 - k := by omega
  rw [makeBytes, if_neg (by omega), hcount]

lemma serializeKeys_eq {privateKey : PrivateKey} {publicKey : PublicKey}
    (hd : privateKey.d < 2 ^ 256) (hx : publicKey.x < 2 ^ 256) (hy : publicKey.y < 2 ^ 256) :
    serializeKeys privateKey publicKey =
      some (padded privateKey.d, padded publicKey.x ++ padded publicKey.y) := by
  have hle := length_bigBytes_le hd
  simp only [serializeKeys, makeBytes_eq hle, makeBytes_eq (length_bigBytes_le hx),
    makeBytes_eq (length_bigBytes_le hy)]
  split_ifs with hshort
  · rfl
  · have hpadded : padded privateKey.d = bigBytes privateKey.d := by
      rw [padded, (by omega : 32 - (bigBytes privateKey.d).length = 0)]
      rfl
    rw [hpadded]
    rfl

/-- **Keys survive serialisation.** -/
theorem deserializeKeys_serializeKeys (isOnCurve : ℕ → ℕ → Bool) (d x y : ℕ)
    (hd : d < 2 ^ 256) (hx : x < 2 ^ 256) (hy : y < 2 ^ 256) (hcurve : isOnCurve x y = true) :
    ∃ privateKeyBytes publicKeyBytes,
      serializeKeys ⟨d, ⟨x, y⟩⟩ ⟨x, y⟩ = some (privateKeyBytes, publicKeyBytes) ∧
      privateKeyBytes.length = 32 ∧ publicKeyBytes.length = 64 ∧
      deserializeKeys isOnCurve privateKeyBytes publicKeyBytes = .ok (⟨d, ⟨x, y⟩⟩, ⟨x, y⟩) := by
  have hprivate := length_padded hd
  have hpublic : (padded x ++ padded y).length = 64 := by
    rw [length_append, length_padded hx, length_padded hy]
  refine ⟨padded d, padded x ++ padded y, serializeKeys_eq hd hx hy, hprivate, hpublic, ?_⟩
  unfold deserializeKeys
  simp only [hprivate, hpublic, take_left' (length_padded hx),
    drop_left' (length_padded hx), setBytes_padded, hcurve]
  rfl

theorem deserializeKeys_serializeKeys_small : ∃ privateKeyBytes publicKeyBytes,
      serializeKeys ⟨1, ⟨2, 300⟩⟩ ⟨2, 300⟩ = some (privateKeyBytes, publicKeyBytes) ∧
      privateKeyBytes.length = 32 ∧ publicKeyBytes.length = 64 ∧
      deserializeKeys (fun x y => x == 2 && y == 300) privateKeyBytes publicKeyBytes =
        .ok (⟨1, ⟨2, 300⟩⟩, ⟨2, 300⟩) :=
  deserializeKeys_serializeKeys _ 1 2 300 (by norm_num) (by norm_num) (by norm_num) rfl

end HybridChain
