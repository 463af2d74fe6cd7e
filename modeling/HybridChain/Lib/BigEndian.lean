import Mathlib.Tactic

/-!
# Big-endian numbers and byte slices

Numbers of a fixed width as byte strings, and slices of byte strings that are put together from
pieces of known length.

## Main definitions

* `encode`, `decode`, `slice`

## Main results

* `decode_encode`: a number comes back
-/

namespace BigEndian

open List

/-- The last `w` bytes of a number, the most significant one first. -/
def encode : ℕ → ℕ → List UInt8
  | 0, _ => []
  | w + 1, n => encode w (n / 256) ++ [UInt8.ofNat n]

def decode (bs : List UInt8) : ℕ := bs.foldl (fun n b => n * 256 + b.toNat) 0

@[simp] lemma length_encode (w n : ℕ) : (encode w n).length = w := by
  induction w generalizing n with
  | zero => rfl
  | succ w ih => simp [encode, ih]

lemma decode_append_singleton (bs : List UInt8) (b : UInt8) :
    decode (bs ++ [b]) = decode bs * 256 + b.toNat := by
  rw [decode, foldl_append]
  rfl

/-- **A number that fits into the width comes back.** -/
theorem decode_encode {w n : ℕ} (h : n < 256 ^ w) : decode (encode w n) = n := by
  induction w generalizing n with
  | zero =>
    have hzero : n = 0 := by simpa using h
    rw [hzero]
    rfl
  | succ w ih =>
    have hhigh : n / 256 < 256 ^ w := by
      rw [Nat.div_lt_iff_lt_mul (by norm_num)]
      rwa [pow_succ] at h
    rw [encode, decode_append_singleton, ih hhigh, UInt8.toNat_ofNat']
    omega

/-- **The number of a concatenation.** -/
theorem decode_append (as bs : List UInt8) :
    decode (as ++ bs) = decode as * 256 ^ bs.length + decode bs := by
  induction bs using List.reverseRecOn with
  | nil => simp [decode]
  | append_singleton bs b ih =>
    rw [← append_assoc, decode_append_singleton, decode_append_singleton, ih,
      length_append, length_singleton, pow_succ]
    ring

lemma decode_lt (bs : List UInt8) : decode bs < 256 ^ bs.length := by
  induction bs using List.reverseRecOn with
  | nil => norm_num [decode]
  | append_singleton bs b ih =>
    have hb := b.toNat_lt
    rw [decode_append_singleton, length_append, length_singleton, pow_succ]
    omega

@[simp] lemma decode_replicate_zero_append (n : ℕ) (bs : List UInt8) :
    decode (List.replicate n 0 ++ bs) = decode bs := by
  have hzero : decode (List.replicate n 0) = 0 := by
    induction n with
    | zero => rfl
    | succ n ih => rw [replicate_succ', decode_append_singleton, ih, UInt8.toNat_zero]
  rw [decode_append, hzero, zero_mul, zero_add]

lemma decode_eq_div (as bs : List UInt8) : decode as = decode (as ++ bs) / 256 ^ bs.length := by
  rw [decode_append, add_comm, Nat.add_mul_div_right _ _ (by positivity),
    Nat.div_eq_of_lt (decode_lt bs), zero_add]

def slice {α : Type} (bs : List α) (i j : ℕ) : List α := (bs.take j).drop i

variable {α : Type}

lemma slice_append_left {as bs : List α} {i j : ℕ} (h : j ≤ as.length) :
    slice (as ++ bs) i j = slice as i j := by
  rw [slice, take_append_of_le_length h]
  rfl

lemma slice_append_right {as bs : List α} {i j n : ℕ} (hn : as.length = n) :
    slice (as ++ bs) (n + i) (n + j) = slice bs i j := by
  subst hn
  rw [slice, take_length_add_append, drop_length_add_append]
  rfl

lemma slice_self {bs : List α} {n : ℕ} (hn : bs.length = n) : slice bs 0 n = bs := by
  rw [slice, drop_zero, take_of_length_le hn.le]

/-- **A piece between others** is the slice of its length behind what stands before it. -/
lemma slice_piece {before piece after : List α} {i n : ℕ} (hi : before.length = i)
    (hn : piece.length = n) : slice (before ++ (piece ++ after)) i (i + n) = piece := by
  have hright : slice (before ++ (piece ++ after)) (i + 0) (i + n) = slice (piece ++ after) 0 n :=
    slice_append_right hi
  rw [Nat.add_zero] at hright
  rw [hright, slice_append_left hn.ge, slice_self hn]

end BigEndian
