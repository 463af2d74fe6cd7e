import Mathlib.Data.List.Nodup
import Mathlib.Tactic

/-!
# JSON values and codecs

JSON values as trees, the way a decoder finds the fields of a record, and codecs that carry the
proof that decoding undoes encoding.

A value stands for any text that parses to it. `null` leaves the zero value of the field it is read
into.

## Main definitions

* `Json`, `foldCase`, `get`
* `Codec`, `Record`

## Main results

* `Base64.decode_encode`: the round trip of byte strings
-/

inductive Json where
  | null
  | bool (b : Bool)
  | num (q : ℚ)
  | str (s : String)
  | arr (elems : List Json)
  | obj (fields : List (String × Json))

namespace Json

open List

/-- Keys that differ only in the case of letters name the same field. -/
def foldCase (name : String) : List Char := name.toList.map Char.toLower

def get (fields : List (String × Json)) (name : String) : Option Json :=
  (fields.filter fun e => foldCase e.1 = foldCase name).getLast?.map Prod.snd

/-- The fields of a value that is read as a record. -/
def fields : Json → Option (List (String × Json))
  | null => some []
  | obj fs => some fs
  | _ => none

variable (fs : List (String × Json))

lemma fields_obj_bind {α : Type}
    (read : List (String × Json) → Option α) : (obj fs).fields.bind read = read fs := rfl

lemma get_congr {a b : String} (h : foldCase a = foldCase b) :
    get fs a = get fs b := by
  rw [get, get, h]

lemma get_eq_none {fs : List (String × Json)} {name : String}
    (h : foldCase name ∉ fs.map fun e => foldCase e.1) : get fs name = none := by
  have hfilter : (fs.filter fun e => foldCase e.1 = foldCase name) = [] := by
    simp only [filter_eq_nil_iff, decide_eq_true_eq]
    exact fun e he heq => h (mem_map.mpr ⟨e, he, heq⟩)
  rw [get, hfilter]
  rfl

/-- **An object with distinct keys is read as it was written.** -/
lemma get_of_mem {fs : List (String × Json)} (hnd : (fs.map fun e => foldCase e.1).Nodup)
    {name : String} {j : Json} (h : (name, j) ∈ fs) : get fs name = some j := by
  induction fs with
  | nil => simp at h
  | cons e fs ih =>
    rw [map_cons, nodup_cons] at hnd
    by_cases hmem : (name, j) ∈ fs
    · -- the first key is another one
      have hne : foldCase e.1 ≠ foldCase name := fun heq =>
        hnd.1 (mem_map.mpr ⟨_, hmem, heq.symm⟩)
      have hrest := ih hnd.2 hmem
      rwa [get, filter_cons_of_neg (by simpa using hne)]
    · obtain rfl : (name, j) = e := (mem_cons.mp h).resolve_right hmem
      have hfilter : (fs.filter fun e => foldCase e.1 = foldCase name) = [] := by
        simp only [filter_eq_nil_iff, decide_eq_true_eq]
        exact fun e he heq => hnd.1 (mem_map.mpr ⟨e, he, heq⟩)
      rw [get, filter_cons_of_pos (by simp), hfilter]
      rfl

end Json

/-! ## Base64 -/

namespace Base64

def digit (n : ℕ) : Char :=
  if n < 26 then Char.ofNat (n + 65)
  else if n < 52 then Char.ofNat (n + 71)
  else if n < 62 then Char.ofNat (n - 4)
  else if n = 62 then '+' else '/'

def value (c : Char) : Option ℕ :=
  if 65 ≤ c.toNat ∧ c.toNat ≤ 90 then some (c.toNat - 65)
  else if 97 ≤ c.toNat ∧ c.toNat ≤ 122 then some (c.toNat - 71)
  else if 48 ≤ c.toNat ∧ c.toNat ≤ 57 then some (c.toNat + 4)
  else if c = '+' then some 62
  else if c = '/' then some 63
  else none

/-- Three bytes give four digits; a shorter last group is filled up with `=`. -/
def encode : List UInt8 → List Char
  | [] => []
  | [a] => [digit (a.toNat / 4), digit (a.toNat % 4 * 16), '=', '=']
  | [a, b] =>
    [digit (a.toNat / 4), digit (a.toNat % 4 * 16 + b.toNat / 16), digit (b.toNat % 16 * 4), '=']
  | a :: b :: c :: bs =>
    digit (a.toNat / 4) :: digit (a.toNat % 4 * 16 + b.toNat / 16) ::
      digit (b.toNat % 16 * 4 + c.toNat / 64) :: digit (c.toNat % 64) :: encode bs

/-- Four characters give up to three bytes; spare bits of the last digit are ignored. -/
def decode : List Char → Option (List UInt8)
  | [] => some []
  | w :: x :: y :: z :: cs => do
    let w ← value w
    let x ← value x
    let first := UInt8.ofNat (w * 4 + x / 16)
    if cs = [] ∧ z = '=' ∧ y = '=' then return [first]
    let y ← value y
    let second := UInt8.ofNat (x % 16 * 16 + y / 4)
    if cs = [] ∧ z = '=' then return [first, second]
    let z ← value z
    let third := UInt8.ofNat (y % 4 * 64 + z)
    return first :: second :: third :: (← decode cs)
  | _ => none

lemma value_digit : ∀ n < 64, value (digit n) = some n := by decide

lemma digit_ne_pad : ∀ n < 64, digit n ≠ '=' := by decide

lemma ofNat_eq {a : UInt8} {n : ℕ} (h : n = a.toNat) : UInt8.ofNat n = a := by
  rw [h, UInt8.ofNat_toNat]

/-- **Base64 round trip.** -/
theorem decode_encode : ∀ bs : List UInt8, decode (encode bs) = some bs
  | [] => rfl
  | [a] => by
    have ha := a.toNat_lt
    rw [encode, decode, value_digit _ (by omega), value_digit _ (by omega)]
    simp only [Option.bind_eq_bind, Option.bind_some, and_self, if_true,
      ofNat_eq (a := a) (n := a.toNat / 4 * 4 + a.toNat % 4 * 16 / 16) (by omega)]
    rfl
  | [a, b] => by
    have ha := a.toNat_lt
    have hb := b.toNat_lt
    have hpad := digit_ne_pad (b.toNat % 16 * 4) (by omega)
    rw [encode, decode, value_digit _ (by omega), value_digit _ (by omega)]
    simp only [Option.bind_eq_bind, Option.bind_some, hpad, and_false, if_false, and_self, if_true]
    rw [value_digit _ (by omega)]
    simp only [Option.bind_some, ofNat_eq (a := a) (n := a.toNat / 4 * 4 +
      (a.toNat % 4 * 16 + b.toNat / 16) / 16) (by omega), ofNat_eq (a := b)
      (n := (a.toNat % 4 * 16 + b.toNat / 16) % 16 * 16 + b.toNat % 16 * 4 / 4) (by omega)]
    rfl
  | a :: b :: c :: bs => by
    have ha := a.toNat_lt
    have hb := b.toNat_lt
    have hc := c.toNat_lt
    have hpad := digit_ne_pad (c.toNat % 64) (by omega)
    rw [encode, decode, value_digit _ (by omega), value_digit _ (by omega)]
    simp only [Option.bind_eq_bind, Option.bind_some, hpad, and_false, false_and, if_false]
    rw [value_digit _ (by omega), value_digit _ (by omega), decode_encode bs]
    simp only [Option.bind_some, ofNat_eq (a := a) (n := a.toNat / 4 * 4 +
      (a.toNat % 4 * 16 + b.toNat / 16) / 16) (by omega), ofNat_eq (a := b)
      (n := (a.toNat % 4 * 16 + b.toNat / 16) % 16 * 16 +
        (b.toNat % 16 * 4 + c.toNat / 64) / 4) (by omega), ofNat_eq (a := c)
      (n := (b.toNat % 16 * 4 + c.toNat / 64) % 4 * 64 + c.toNat % 64) (by omega)]
    rfl

end Base64

/-! ## Codecs -/

/-- An encoder and a decoder that undoes it, with the value of an absent field. -/
structure Codec (α : Type) where
  encode : α → Json
  decode : Json → Option α
  /-- The value of a field that is absent. -/
  zero : α
  decode_encode : ∀ a, decode (encode a) = some a

namespace Codec

variable {α β : Type}

def field (c : Codec α) (fs : List (String × Json)) (name : String) : Option α :=
  match Json.get fs name with
  | none => some c.zero
  | some j => c.decode j

variable {fs : List (String × Json)} (c : Codec α)

lemma field_eq_decode
    (hnd : (fs.map fun e => Json.foldCase e.1).Nodup) {name : String} (key : String) (j : Json)
    (h : (key, j) ∈ fs) (hcase : Json.foldCase key = Json.foldCase name) :
    c.field fs name = c.decode j := by
  rw [field, ← Json.get_congr fs hcase, Json.get_of_mem hnd h]

lemma field_of_mem (hnd : (fs.map fun e => Json.foldCase e.1).Nodup) (name : String) (a : α)
    (h : (name, c.encode a) ∈ fs) : c.field fs name = some a :=
  (c.field_eq_decode hnd name (c.encode a) h rfl).trans (c.decode_encode a)

lemma field_absent {name : String} (h : Json.foldCase name ∉ fs.map fun e => Json.foldCase e.1) :
    c.field fs name = some c.zero := by
  rw [field, Json.get_eq_none h]

def str : Codec String where
  encode := .str
  decode
    | .str s => some s
    | .null => some ""
    | _ => none
  zero := ""
  decode_encode _ := rfl

def bool : Codec Bool where
  encode := .bool
  decode
    | .bool b => some b
    | .null => some false
    | _ => none
  zero := false
  decode_encode _ := rfl

def rat : Codec ℚ where
  encode := .num
  decode
    | .num q => some q
    | .null => some 0
    | _ => none
  zero := 0
  decode_encode _ := rfl

def int : Codec ℤ where
  encode i := .num i
  decode
    | .num q => if q.den = 1 then some q.num else none
    | .null => some 0
    | _ => none
  zero := 0
  decode_encode _ := by simp

/-- Natural numbers below a bound, through a type that represents them. -/
def bounded (bound : ℕ) (toNat : α → ℕ) (ofNat : ℕ → α) (hlt : ∀ a, toNat a < bound)
    (hof : ∀ a, ofNat (toNat a) = a) : Codec α where
  encode a := .num (toNat a)
  decode
    | .num q => if q.den = 1 ∧ 0 ≤ q.num ∧ q.num < bound then some (ofNat q.num.toNat) else none
    | .null => some (ofNat 0)
    | _ => none
  zero := ofNat 0
  decode_encode a := by simp [hlt, hof]

def uint32 : Codec UInt32 :=
  bounded (2 ^ 32) UInt32.toNat UInt32.ofNat UInt32.toNat_lt fun _ => UInt32.ofNat_toNat

def uint64 : Codec UInt64 :=
  bounded (2 ^ 64) UInt64.toNat UInt64.ofNat UInt64.toNat_lt fun _ => UInt64.ofNat_toNat

def bytes : Codec (List UInt8) where
  encode bs := .str (String.ofList (Base64.encode bs))
  decode
    | .str s => Base64.decode s.toList
    | .null => some []
    | _ => none
  zero := []
  decode_encode bs := by simp [Base64.decode_encode]

def list (c : Codec α) : Codec (List α) where
  encode as := .arr (as.map c.encode)
  decode
    | .arr js => js.mapM c.decode
    | .null => some []
    | _ => none
  zero := []
  decode_encode as := by
    change (as.map c.encode).mapM c.decode = some as
    induction as with
    | nil => rfl
    | cons a as ih => simp [c.decode_encode, ih]

/-- Values that may be missing, encoded as `null`. -/
def pointer (c : Codec α) (hnull : ∀ a, c.encode a ≠ .null) : Codec (Option α) where
  encode
    | none => .null
    | some a => c.encode a
  decode
    | .null => some none
    | j => (c.decode j).map some
  zero := none
  decode_encode
    | none => rfl
    | some a => by
      have h := c.decode_encode a
      have hne := hnull a
      cases he : c.encode a <;> simp_all

end Codec

/-! ## Records -/

/-- How some fields of a record `ρ` are written, and how a value `α` is read from them. A record
is described field by field, starting from its constructor. -/
structure Record (ρ α : Type) where
  names : List String
  write : ρ → List (String × Json)
  read : List (String × Json) → Option α
  value : ρ → α
  map_write : ∀ r, (write r).map Prod.fst = names
  read_write : ∀ r fs, write r ⊆ fs → (fs.map fun e => Json.foldCase e.1).Nodup →
    read fs = some (value r)

namespace Record

variable {ρ α β : Type}

def start (a : α) : Record ρ α where
  names := []
  write _ := []
  read _ := some a
  value _ := a
  map_write _ := rfl
  read_write _ _ _ _ := rfl

def field (r : Record ρ (α → β)) (name : String) (c : Codec α) (get : ρ → α) : Record ρ β where
  names := r.names ++ [name]
  write x := r.write x ++ [(name, c.encode (get x))]
  read fs := do
    let f ← r.read fs
    let a ← c.field fs name
    return f a
  value x := r.value x (get x)
  map_write x := by rw [List.map_append, r.map_write]; rfl
  read_write x fs hsub hnd := by
    rw [r.read_write x fs (fun e he => hsub (by simp [he])) hnd,
      c.field_of_mem hnd name (get x) (hsub (by simp))]
    rfl

/-- **The codec of a record** whose field names are distinct and whose fields determine it. -/
def toCodec (r : Record ρ ρ) (hvalue : ∀ x, r.value x = x)
    (hnd : (r.names.map Json.foldCase).Nodup) (zero : ρ) : Codec ρ where
  encode x := .obj (r.write x)
  decode j := j.fields.bind r.read
  zero := zero
  decode_encode x := by
    have hkeys : ((r.write x).map fun e => Json.foldCase e.1).Nodup := by
      rw [← r.map_write x, List.map_map] at hnd
      exact hnd
    rw [Json.fields_obj_bind, r.read_write x _ (List.Subset.refl _) hkeys, hvalue]

lemma decode_obj (r : Record ρ ρ) (hvalue : ∀ x, r.value x = x)
    (hnd : (r.names.map Json.foldCase).Nodup) (zero : ρ) (fs : List (String × Json)) :
    (r.toCodec hvalue hnd zero).decode (.obj fs) = r.read fs := rfl

lemma read_field {r : Record ρ (α → β)} {name : String} {c : Codec α} {get : ρ → α}
    {fs : List (String × Json)} {f : α → β} {a : α} (hr : r.read fs = some f)
    (ha : c.field fs name = some a) : (r.field name c get).read fs = some (f a) := by
  simp only [field, hr, ha, Option.bind_eq_bind, Option.bind_some]
  rfl

end Record
