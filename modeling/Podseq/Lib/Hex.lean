import Mathlib

/-! # Hexadecimal strings

Two lowercase digits a byte on the way out; digits of either case, and any number of leading
`0x`, on the way in.
-/
namespace Podseq.Lib.Hex

def digit (n : Nat) : Char := if n < 10 then Char.ofNat (48 + n) else Char.ofNat (87 + n)

def value (c : Char) : Option Nat :=
  if '0' ≤ c ∧ c ≤ '9' then some (c.toNat - 48)
  else if 'a' ≤ c ∧ c ≤ 'f' then some (c.toNat - 87)
  else if 'A' ≤ c ∧ c ≤ 'F' then some (c.toNat - 55)
  else none

def encodeByte (b : UInt8) : List Char := [digit (b.toNat / 16), digit (b.toNat % 16)]

def encodeChars (bs : List UInt8) : List Char := bs.flatMap encodeByte

def decodeChars : List Char → Option (List UInt8)
  | [] => some []
  | [_] => none
  | hi :: lo :: rest => do
    let h ← value hi
    let l ← value lo
    let bs ← decodeChars rest
    return UInt8.ofNat (16 * h + l) :: bs

/-- Drops every leading `0x`. -/
def trimPrefix : List Char → List Char
  | '0' :: 'x' :: rest => trimPrefix rest
  | cs => cs

def encode (bs : List UInt8) : String := String.ofList (encodeChars bs)

def encodePrefixed (bs : List UInt8) : String := String.ofList ('0' :: 'x' :: encodeChars bs)

def decode (s : String) : Option (List UInt8) := decodeChars (trimPrefix s.toList)

/-- Decodes digits only: no prefix is allowed. -/
def decodeBare (s : String) : Option (List UInt8) := decodeChars s.toList

/-- Drops one leading `0x` or `0X`. -/
def dropPrefix : List Char → List Char
  | '0' :: 'x' :: rest | '0' :: 'X' :: rest => rest
  | cs => cs

def decodePrefixed (s : String) : Option (List UInt8) := decodeChars (dropPrefix s.toList)

theorem value_digit {n : Nat} (h : n < 16) : value (digit n) = some n := by
  have hall : ∀ n : Fin 16, value (digit n) = some n.val := by decide
  exact hall ⟨n, h⟩

theorem digit_ne_x {n : Nat} (h : n < 16) : digit n ≠ 'x' := by
  have hall : ∀ n : Fin 16, digit n ≠ 'x' := by decide
  exact hall ⟨n, h⟩

theorem decodeChars_encodeChars (bs : List UInt8) : decodeChars (encodeChars bs) = some bs := by
  induction bs with
  | nil => rfl
  | cons b bs ih =>
    have hb : b.toNat < 256 := b.toNat_lt
    have hlow : b.toNat % 16 < 16 := Nat.mod_lt _ (by decide)
    have hbyte : UInt8.ofNat (16 * (b.toNat / 16) + b.toNat % 16) = b := by
      rw [Nat.div_add_mod]; exact UInt8.ofNat_toNat
    change decodeChars (digit (b.toNat / 16) :: digit (b.toNat % 16) :: encodeChars bs) = _
    simp only [decodeChars, value_digit (show b.toNat / 16 < 16 by omega), value_digit hlow, ih,
      Option.bind_eq_bind, Option.bind_some, Option.pure_def, hbyte]

/-- An encoding does not start with `0x`: its second character is a digit. -/
theorem trimPrefix_encodeChars (bs : List UInt8) :
    trimPrefix (encodeChars bs) = encodeChars bs := by
  cases bs with
  | nil => rfl
  | cons b bs =>
    change trimPrefix (digit (b.toNat / 16) :: digit (b.toNat % 16) :: encodeChars bs) = _
    unfold trimPrefix
    split
    · rename_i heq
      rw [List.cons.injEq, List.cons.injEq] at heq
      exact absurd heq.2.1 (digit_ne_x (Nat.mod_lt _ (by decide)))
    · rfl

theorem decode_encode (bs : List UInt8) : decode (encode bs) = some bs := by
  rw [decode, encode, String.toList_ofList, trimPrefix_encodeChars, decodeChars_encodeChars]

theorem decode_encodePrefixed (bs : List UInt8) : decode (encodePrefixed bs) = some bs := by
  rw [decode, encodePrefixed, String.toList_ofList, trimPrefix, trimPrefix_encodeChars,
    decodeChars_encodeChars]

theorem decodeBare_encode (bs : List UInt8) : decodeBare (encode bs) = some bs := by
  rw [decodeBare, encode, String.toList_ofList, decodeChars_encodeChars]

theorem decodePrefixed_encodePrefixed (bs : List UInt8) :
    decodePrefixed (encodePrefixed bs) = some bs := by
  rw [decodePrefixed, encodePrefixed, String.toList_ofList, dropPrefix, decodeChars_encodeChars]

end Podseq.Lib.Hex
