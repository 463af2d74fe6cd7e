import Mathlib.Algebra.FreeMonoid.Basic
import Mathlib.Data.Nat.Digits.Defs
import Mathlib.Data.Rat.Floor
import Mathlib.Tactic

/-!
# Decimal and hexadecimal text

The texts a program prints for numbers and byte strings, and how a reader recovers them.

## Main definitions

* `fixed`, `hex`, `unhex`, `bytes`

## Main results

* `numeralSep_inj`, `sepNumeral_inj`, `intercalate_inj`: separators that are no digits
* `hex_inj`, `bytes_inj`, `unhexChars_hex`
-/

namespace Text

open List

/-! ## Numerals -/

variable {c : Char} {m n : ℕ} (bs : List UInt8)

lemma isDigit_of_mem_repr {n : ℕ} (h : c ∈ n.repr.toList) : c.isDigit := by
  rw [Nat.toList_repr] at h
  exact Nat.isDigit_of_mem_toDigits (by decide) (by decide) h

lemma repr_inj (h : m.repr = n.repr) : m = n := by
  have hd : Nat.toDigits 10 m = Nat.toDigits 10 n := by
    rw [← Nat.toList_repr, ← Nat.toList_repr, h]
  rw [← Nat.ofDigitChars_ten_toDigits (n := m), hd, Nat.ofDigitChars_ten_toDigits]

variable {a b : String} {α : Type} (d : ℕ) (q : ℚ)

lemma append_sep_inj {c : α} {a b u v : List α} (hu : c ∉ u) (hv : c ∉ v)
    (h : a ++ c :: u = b ++ c :: v) : a = b ∧ u = v := by
  rcases append_eq_append_iff.mp h with ⟨w, rfl, hw⟩ | ⟨w, rfl, hw⟩
  · cases w with
    | nil => simpa using hw
    | cons x w =>
      rw [cons_append, List.cons.injEq] at hw
      exact absurd (by rw [hw.2]; simp) hu
  · cases w with
    | nil => simpa [eq_comm] using hw
    | cons x w =>
      rw [cons_append, List.cons.injEq] at hw
      exact absurd (by rw [hw.2]; simp) hv

/-- **A numeral, a separator and a text**: the printed text determines both parts, the separator
being no digit. -/
theorem numeralSep_inj (hc : c.isDigit = false) {a b : List Char}
    (h : m.repr.toList ++ c :: a = n.repr.toList ++ c :: b) : m = n ∧ a = b := by
  have hnot : ∀ k : ℕ, c ∉ k.repr.toList.reverse := by
    intro k hk
    have := isDigit_of_mem_repr (mem_reverse.mp hk)
    simp [hc] at this
  have hrev := congrArg List.reverse h
  simp only [reverse_append, reverse_cons, append_assoc, singleton_append] at hrev
  obtain ⟨h₁, h₂⟩ := append_sep_inj (hnot m) (hnot n) hrev
  exact ⟨repr_inj (String.toList_inj.mp (reverse_injective h₂)), reverse_injective h₁⟩

/-- **A text, a separator and a numeral**: the printed text determines both parts, the
separator being no digit. -/
theorem sepNumeral_inj (hc : c.isDigit = false)
    (h : a ++ c.toString ++ m.repr = b ++ c.toString ++ n.repr) : a = b ∧ m = n := by
  have hl : a.toList ++ c :: m.repr.toList = b.toList ++ c :: n.repr.toList := by
    simpa [String.toList_append] using congrArg String.toList h
  have hnot : ∀ k : ℕ, c ∉ k.repr.toList := by
    intro k hk
    have := isDigit_of_mem_repr hk
    simp [hc] at this
  obtain ⟨h₁, h₂⟩ := append_sep_inj (hnot m) (hnot n) hl
  exact ⟨String.toList_inj.mp h₁, repr_inj (String.toList_inj.mp h₂)⟩

lemma toList_toString_negSucc (n : ℕ) :
    (toString (Int.negSucc n)).toList = '-' :: (n + 1).repr.toList := by
  show ("-" ++ (n + 1).repr).toList = _
  rw [String.toList_append]
  rfl

lemma isDigit_or_of_mem_toString {z : ℤ} (h : c ∈ (toString z).toList) : c.isDigit ∨ c = '-' := by
  cases z with
  | ofNat n => exact .inl (isDigit_of_mem_repr h)
  | negSucc n =>
    rw [toList_toString_negSucc] at h
    rcases mem_cons.mp h with rfl | hdigit
    · exact .inr rfl
    · exact .inl (isDigit_of_mem_repr hdigit)

lemma int_toString_inj {y z : ℤ} (h : toString y = toString z) : y = z := by
  -- a numeral does not begin with a minus sign
  have hminus : ∀ m n : ℕ, toString (Int.ofNat m) ≠ toString (Int.negSucc n) := by
    intro m n heq
    have hmem : '-' ∈ (toString (Int.negSucc n)).toList := by
      rw [toList_toString_negSucc]
      exact mem_cons_self
    rw [← heq] at hmem
    exact absurd (isDigit_of_mem_repr hmem) (by decide)
  cases y with
  | ofNat m =>
    cases z with
    | ofNat n => exact congrArg Int.ofNat (repr_inj h)
    | negSucc n => exact absurd h (hminus m n)
  | negSucc m =>
    cases z with
    | ofNat n => exact absurd h.symm (hminus n m)
    | negSucc n =>
      have hchars := congrArg String.toList h
      rw [toList_toString_negSucc, toList_toString_negSucc, List.cons.injEq] at hchars
      have hsucc := repr_inj (String.toList_inj.mp hchars.2)
      rw [Nat.succ_injective hsucc]

/-- **Texts joined by a separator** that none of them contains are read back by splitting at it. -/
theorem intercalate_inj {us vs : List String} (hu : ∀ u ∈ us, c ∉ u.toList)
    (hv : ∀ v ∈ vs, c ∉ v.toList) (hus : us ≠ []) (hvs : vs ≠ [])
    (h : (String.singleton c).intercalate us = (String.singleton c).intercalate vs) : us = vs := by
  have hchars : [c].intercalate (us.map String.toList) =
      [c].intercalate (vs.map String.toList) := by
    simpa [String.toList_intercalate] using congrArg String.toList h
  have hsplit : ∀ ws : List String, (∀ w ∈ ws, c ∉ w.toList) → ws ≠ [] →
      ([c].intercalate (ws.map String.toList)).splitOn c = ws.map String.toList := by
    intro ws hws hne
    refine splitOn_intercalate c ?_ (by simpa using hne)
    intro l hl
    obtain ⟨w, hw, rfl⟩ := mem_map.mp hl
    exact hws w hw
  have hmap : us.map String.toList = vs.map String.toList := by
    rw [← hsplit us hu hus, ← hsplit vs hv hvs, hchars]
  exact map_injective_iff.mpr (fun _ _ => String.toList_inj.mp) hmap

lemma not_mem_intercalate {c sep : Char} (hc : c ≠ sep) {us : List String}
    (hu : ∀ u ∈ us, c ∉ u.toList) : c ∉ ((String.singleton sep).intercalate us).toList := by
  rw [String.toList_intercalate, String.toList_singleton]
  induction us with
  | nil => exact not_mem_nil
  | cons u us ih =>
    have hrest := ih fun v hv => hu v (mem_cons_of_mem u hv)
    cases us with
    | nil => simpa using hu u mem_cons_self
    | cons v us =>
      rw [map_cons, map_cons, intercalate_cons_cons, mem_append, mem_append, mem_singleton]
      rintro (⟨hmem | hsep⟩ | hmem)
      · exact hu u mem_cons_self hmem
      · exact hc hsep
      · exact hrest hmem

/-- A nonnegative rational rounded to a natural number, halves to the even neighbour. -/
def roundHalfEven (q : ℚ) : ℕ :=
  let f := q.floor.toNat
  let r := q - f
  if r < 1 / 2 then f else if 1 / 2 < r then f + 1 else if f % 2 = 0 then f else f + 1

/-- A rational printed with `d` decimals. The sign is that of the number itself, also when
the rounded digits are all zero. -/
def fixed (d : ℕ) (q : ℚ) : String :=
  let n := roundHalfEven (|q| * 10 ^ d)
  let frac := (n % 10 ^ d).repr
  (if q < 0 then "-" else "") ++ (n / 10 ^ d).repr ++ "." ++
    String.ofList (List.replicate (d - frac.length) '0') ++ frac

/-! ## Hexadecimal text -/

def hexDigit (n : ℕ) : Char := Char.ofNat (if n < 10 then '0'.toNat + n else 'a'.toNat + n - 10)

def hexByte (b : UInt8) : List Char := [hexDigit (b.toNat / 16), hexDigit (b.toNat % 16)]

/-- The lower-case hexadecimal text of a byte string. -/
def hex (bs : List UInt8) : String := String.ofList (bs.flatMap hexByte)

/-- The value of a hexadecimal digit of either case. -/
def digitValue (c : Char) : Option ℕ :=
  if c.isDigit then some (c.toNat - '0'.toNat)
  else if 'a' ≤ c ∧ c ≤ 'f' then some (c.toNat - 'a'.toNat + 10)
  else if 'A' ≤ c ∧ c ≤ 'F' then some (c.toNat - 'A'.toNat + 10)
  else none

/-- Read pairs of hexadecimal digits; an odd digit or a foreign character is an error. -/
def unhexChars : List Char → Option (List UInt8)
  | [] => some []
  | [_] => none
  | c :: d :: cs => do
    let h ← digitValue c
    let l ← digitValue d
    let rest ← unhexChars cs
    return UInt8.ofNat (16 * h + l) :: rest

/-- The byte string a hexadecimal text stands for. -/
def unhex (s : String) : Option (List UInt8) := unhexChars s.toList

lemma hexByte_inj : ∀ {a b : UInt8}, hexByte a = hexByte b → a = b := by
  have h : ∀ a b : Fin 256, hexByte (UInt8.ofFin a) = hexByte (UInt8.ofFin b) → a = b := by
    have hd : ∀ m n : Fin 16, hexDigit m = hexDigit n → m = n := by decide
    intro a b hab
    simp only [hexByte, List.cons.injEq, and_true] at hab
    have h1 := hd ⟨a / 16, by omega⟩ ⟨b / 16, by omega⟩ hab.1
    have h2 := hd ⟨a % 16, by omega⟩ ⟨b % 16, by omega⟩ hab.2
    simp only [Fin.mk.injEq] at h1 h2
    apply Fin.ext
    omega
  intro a b hab
  have := h a.toFin b.toFin (by simpa using hab)
  exact UInt8.toFin_inj.mp this

/-- **Pieces of one positive length can be cut out of a concatenation.** -/
theorem flatten_inj {n : ℕ} (hn : 0 < n) {xs ys : List (List α)}
    (hx : ∀ x ∈ xs, x.length = n) (hy : ∀ y ∈ ys, y.length = n)
    (h : xs.flatten = ys.flatten) : xs = ys := by
  -- a concatenation of pieces of positive length is empty only if there is no piece
  have hnil : ∀ zs : List (List α), (∀ z ∈ zs, z.length = n) → zs.flatten = [] → zs = [] := by
    intro zs hz h
    cases zs with
    | nil => rfl
    | cons z zs =>
      rw [flatten_cons, append_eq_nil_iff] at h
      have hlen := hz z (by simp)
      rw [h.1, length_nil] at hlen
      omega
  induction xs generalizing ys with
  | nil => exact (hnil ys hy h.symm).symm
  | cons x xs ih =>
    cases ys with
    | nil => exact hnil _ hx h
    | cons y ys =>
      have hxy : x.length = y.length := (hx x (by simp)).trans (hy y (by simp)).symm
      obtain ⟨h₁, h₂⟩ := append_inj (by simpa using h) hxy
      have hrest : xs = ys :=
        ih (fun z hz => hx z (by simp [hz])) (fun z hz => hy z (by simp [hz])) h₂
      rw [h₁, hrest]

lemma take_flatMap_hexByte (k : ℕ) (bs : List UInt8) :
    (bs.flatMap hexByte).take (2 * k) = (bs.take k).flatMap hexByte := by
  induction k generalizing bs with
  | zero => rfl
  | succ k ih =>
    cases bs with
    | nil => simp
    | cons b bs =>
      rw [take_succ_cons, flatMap_cons, flatMap_cons, ← ih bs, hexByte, mul_add]
      rfl

/-- Hexadecimal text determines the bytes. -/
theorem hex_inj {as bs : List UInt8} (h : hex as = hex bs) : as = bs := by
  have hl : (as.map hexByte).flatten = (bs.map hexByte).flatten := by
    simpa [hex, List.flatMap] using congrArg String.toList h
  have hlen : ∀ (cs : List UInt8) (x : List Char), x ∈ cs.map hexByte → x.length = 2 := by
    intro cs x hx
    obtain ⟨b, -, rfl⟩ := mem_map.mp hx
    rfl
  have := flatten_inj (by norm_num) (hlen as) (hlen bs) hl
  exact map_injective_iff.mpr (fun _ _ => hexByte_inj) this

/-! ## Bytes of a text -/

def bytes (s : String) : List UInt8 := s.toUTF8.data.toList

/-- The bytes determine the text. -/
theorem bytes_inj (h : bytes a = bytes b) : a = b := by
  have hd : a.toUTF8.data = b.toUTF8.data := Array.toList_inj.mp h
  exact String.toByteArray_inj.mp (ByteArray.ext hd)

lemma bytes_ofList (l : List Char) : bytes (String.ofList l) = l.flatMap String.utf8EncodeChar := by
  simp only [bytes, String.toUTF8_eq_toByteArray, String.toByteArray_ofList, List.utf8Encode]
  simp

@[simp] lemma bytes_append (a b : String) : bytes (a ++ b) = bytes a ++ bytes b := by
  simp only [bytes, String.toUTF8_eq_toByteArray, String.toByteArray_append]
  simp

lemma length_le_length_bytes (s : String) : s.toList.length ≤ (bytes s).length := by
  have hchar : ∀ l : List Char, l.length ≤ (l.flatMap String.utf8EncodeChar).length := by
    intro l
    induction l with
    | nil => exact le_refl _
    | cons c l ih =>
      have hc : 0 < (String.utf8EncodeChar c).length := by
        rw [String.length_utf8EncodeChar]
        exact c.utf8Size_pos
      rw [flatMap_cons, length_append, length_cons]
      omega
  have h := hchar s.toList
  rwa [← bytes_ofList, String.ofList_toList] at h

/-- A number printed with `d` decimals has at least one digit, the point and `d` digits. -/
lemma lt_length_bytes_fixed : d + 1 < (bytes (fixed d q)).length := by
  refine lt_of_lt_of_le ?_ (length_le_length_bytes _)
  have hint : 0 < (roundHalfEven (|q| * 10 ^ d) / 10 ^ d).repr.length := Nat.length_repr_pos
  simp only [fixed, String.toList_append, length_append, String.toList_ofList,
    length_replicate, String.length_toList]
  have hpoint : ".".length = 1 := rfl
  omega

lemma exists_getLast_fixed : ∃ c, (fixed d q).toList.getLast? = some c ∧ c.isDigit := by
  have hne : (roundHalfEven (|q| * 10 ^ d) % 10 ^ d).repr.toList ≠ [] := by
    rw [← length_pos_iff, String.length_toList]
    exact Nat.length_repr_pos
  refine ⟨_, ?_, isDigit_of_mem_repr (getLast_mem hne)⟩
  rw [fixed, String.toList_append, List.getLast?_append_of_ne_nil _ hne,
    List.getLast?_eq_some_getLast hne]

lemma bytes_hex : bytes (hex bs) = (bs.flatMap hexByte).map fun c => UInt8.ofNat c.toNat := by
  have hdigit : ∀ n < 16,
      String.utf8EncodeChar (hexDigit n) = [UInt8.ofNat (hexDigit n).toNat] := by
    decide
  rw [hex, bytes_ofList]
  induction bs with
  | nil => rfl
  | cons b bs ih =>
    have hb := b.toNat_lt
    rw [flatMap_cons, flatMap_append, map_append, ih]
    simp [hexByte, hdigit (b.toNat / 16) (by omega), hdigit (b.toNat % 16) (by omega)]

@[simp] lemma length_bytes_hex : (bytes (hex bs)).length = 2 * bs.length := by
  rw [bytes_hex, length_map, length_flatMap]
  simp [hexByte, mul_comm]

lemma not_mem_bytes_hex {x : UInt8} (hx : ∀ n < 16, UInt8.ofNat (hexDigit n).toNat ≠ x)
    (bs : List UInt8) : x ∉ bytes (hex bs) := by
  rw [bytes_hex]
  intro h
  obtain ⟨c, hc, hcx⟩ := mem_map.mp h
  obtain ⟨b, -, hc⟩ := mem_flatMap.mp hc
  have hb := b.toNat_lt
  simp only [hexByte, mem_cons, not_mem_nil, or_false] at hc
  rcases hc with rfl | rfl
  · exact hx _ (by omega) hcx
  · exact hx _ (by omega) hcx

lemma dash_not_mem_bytes_hex : 45 ∉ bytes (hex bs) := not_mem_bytes_hex (by decide) bs

lemma dash_not_mem_bytes_repr (n : ℕ) : 45 ∉ bytes n.repr := by
  have hdigit : ∀ k < 10, 45 ∉ String.utf8EncodeChar (Char.ofNat (48 + k)) := by decide
  rw [← String.ofList_toList (s := n.repr), bytes_ofList]
  intro hmem
  obtain ⟨c, hc, hdash⟩ := mem_flatMap.mp hmem
  have hrange : 48 ≤ c.toNat ∧ c.toNat ≤ 57 := Char.isDigit_iff_toNat.mp (isDigit_of_mem_repr hc)
  refine hdigit (c.toNat - 48) (by omega) ?_
  rwa [Nat.add_sub_cancel' hrange.1, Char.ofNat_toNat]

/-- Reading hexadecimal text back gives the bytes it was made from. -/
theorem unhexChars_hex : unhexChars (bs.flatMap hexByte) = some bs := by
  have hdigit : ∀ n < 16, digitValue (hexDigit n) = some n := by decide
  induction bs with
  | nil => rfl
  | cons b bs ih =>
    have hb := b.toNat_lt
    have hsplit : 16 * (b.toNat / 16) + b.toNat % 16 = b.toNat := Nat.div_add_mod _ _
    rw [flatMap_cons, hexByte, cons_append, singleton_append, unhexChars, ih,
      hdigit _ (by omega), hdigit _ (by omega)]
    change some (UInt8.ofNat (16 * (b.toNat / 16) + b.toNat % 16) :: bs) = some (b :: bs)
    rw [hsplit, UInt8.ofNat_toNat]

lemma unhex_hex : unhex (hex bs) = some bs := by
  rw [unhex, hex, String.toList_ofList, unhexChars_hex]

/-! ## Texts joined in any order -/

/-- **The order does not matter** exactly if any two of the texts commute. -/
theorem flatMap_perm_iff {α β : Type} {f : β → List α} {l : List β} :
    (∀ l₁ l₂ : List β, l₁.Perm l → l₂.Perm l → l₁.flatMap f = l₂.flatMap f) ↔
      l.Pairwise fun a b => f a ++ f b = f b ++ f a := by
  constructor
  · intro h
    refine pairwise_iff_forall_sublist.mpr fun {a b} hab => ?_
    obtain ⟨rest, hrest⟩ := hab.exists_perm_append
    have heq := h _ _ hrest.symm ((List.Perm.swap a b rest).trans hrest.symm)
    simp only [cons_append, nil_append, flatMap_cons, ← append_assoc] at heq
    exact append_cancel_right heq
  · intro h l₁ l₂ h₁ h₂
    have hcomm : (l₁.map fun b => FreeMonoid.ofList (f b)).Pairwise Commute :=
      pairwise_map.mpr ((h₁.pairwise_iff Commute.symm).mpr h)
    have hprod := ((h₁.trans h₂.symm).map fun b => FreeMonoid.ofList (f b)).prod_eq' hcomm
    have hlist := congrArg FreeMonoid.toList hprod
    rwa [FreeMonoid.toList_prod, FreeMonoid.toList_prod, map_map, map_map] at hlist

end Text
