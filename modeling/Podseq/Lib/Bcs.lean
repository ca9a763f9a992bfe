import Podseq.Lib.LittleEndian

/-! # Binary canonical serialization

A codec is a writer with a reader that takes back what was written, whatever follows it. Pairs
are written one after the other, lists behind their length; the length is a base-128 number whose
last digit is not a superfluous zero.
-/
namespace Podseq.Lib

variable {α β : Type}

/-- A writer and a reader; the reader returns what is left of its input. -/
structure Bcs (α : Type) where
  write : α → Bytes
  read : Bytes → Option (α × Bytes)
  /-- The values that have an encoding. -/
  Fits : α → Prop
  read_write : ∀ a rest, Fits a → read (write a ++ rest) = some (a, rest)

namespace Bcs

/-- `bcs::from_bytes`: no byte may be left. -/
def ofBytes (c : Bcs α) (bytes : Bytes) : Option α :=
  match c.read bytes with
  | some (a, []) => some a
  | _ => none

theorem ofBytes_write (c : Bcs α) {a : α} (h : c.Fits a) : c.ofBytes (c.write a) = some a := by
  have hread := c.read_write a [] h
  rw [List.append_nil] at hread
  rw [ofBytes, hread]

theorem read_of_ofBytes {c : Bcs α} {a : α} {bytes : Bytes} (h : c.ofBytes bytes = some a) :
    c.read bytes = some (a, []) := by
  rw [ofBytes] at h
  split at h
  · rename_i a' hread
    cases h
    exact hread
  · cases h

/-! ## Bytes and numbers -/

def readBytes (n : Nat) (bytes : Bytes) : Option (Bytes × Bytes) :=
  if n ≤ bytes.length then some (bytes.take n, bytes.drop n) else none

theorem readBytes_append {n : Nat} {xs rest : Bytes} (h : xs.length = n) :
    readBytes n (xs ++ rest) = some (xs, rest) := by
  rw [readBytes, if_pos (by rw [List.length_append, h]; exact Nat.le_add_right _ _),
    List.take_left' h, List.drop_left' h]

/-- A byte string of fixed length, as it is. -/
def fixed (n : Nat) : Bcs (FixedBytes n) where
  write x := x.val
  read bytes := do
    let (xs, rest) ← readBytes n bytes
    let x ← FixedBytes.ofBytes? n xs
    return (x, rest)
  Fits _ := True
  read_write x rest _ := by
    simp [readBytes_append x.property]

def u64 : Bcs Nat where
  write := leBytes 8
  read bytes := (readBytes 8 bytes).map fun (xs, rest) => (ofLeBytes xs, rest)
  Fits n := n < 256 ^ 8
  read_write n rest h := by
    simp only [readBytes_append length_leBytes, Option.map_some, ofLeBytes_leBytes h]

/-- A number is read from the next eight bytes, whatever wrote them. -/
theorem u64_read {xs rest : Bytes} (h : xs.length = 8) :
    u64.read (xs ++ rest) = some (ofLeBytes xs, rest) := by
  simp only [u64, readBytes_append h, Option.map_some]

/-! ## Lengths -/

/-- The base-128 digits of a number, at most `fuel` of them; all but the last carry the high
bit. -/
def uleb : Nat → Nat → Bytes
  | 0, _ => []
  | fuel + 1, n =>
    if n < 128 then [n.toUInt8] else (n % 128 + 128).toUInt8 :: uleb fuel (n / 128)

/-- Reads at most `fuel` digits; a zero behind other digits is not canonical. -/
def readUleb : Nat → Bytes → Option (Nat × Bytes)
  | 0, _ => none
  | _, [] => none
  | fuel + 1, b :: bytes =>
    if b.toNat < 128 then some (b.toNat, bytes)
    else do
      let (high, rest) ← readUleb fuel bytes
      if high = 0 then none else return (b.toNat - 128 + 128 * high, rest)

theorem readUleb_uleb {fuel n : Nat} {rest : Bytes} (h : n < 128 ^ (fuel + 1)) :
    readUleb (fuel + 1) (uleb (fuel + 1) n ++ rest) = some (n, rest) := by
  induction fuel generalizing n with
  | zero =>
    have hlast : n < 128 := h
    have hdigit : n.toUInt8.toNat = n := by
      rw [UInt8.toNat_ofNat']
      omega
    simp [uleb, readUleb, hlast, hdigit]
  | succ fuel ih =>
    rw [uleb]
    split_ifs with hlast
    · have hdigit : n.toUInt8.toNat = n := by
        rw [UInt8.toNat_ofNat']
        omega
      simp [readUleb, hlast, hdigit]
    · have hdigit : (n % 128 + 128).toUInt8.toNat = n % 128 + 128 := by
        rw [UInt8.toNat_ofNat']
        omega
      have hhigh := ih (n := n / 128) (by rw [pow_succ] at h; omega)
      have hpos : n / 128 ≠ 0 := by omega
      rw [List.cons_append, readUleb, hdigit, if_neg (by omega), hhigh]
      simp only [Option.bind_eq_bind, Option.bind_some, if_neg hpos, Option.pure_def,
        Option.some.injEq, Prod.mk.injEq, and_true]
      omega

/-- The longest sequence that can be written. -/
def maxSequenceLength : Nat := 2 ^ 31 - 1

/-- The length of a sequence: a 32-bit number of at most five digits. -/
def length : Bcs Nat where
  write := uleb 5
  read bytes := (readUleb 5 bytes).filter fun (n, _) => n ≤ maxSequenceLength
  Fits n := n ≤ maxSequenceLength
  read_write n rest h := by
    have hdigits : n < 128 ^ 5 := h.trans_lt (by decide)
    rw [readUleb_uleb hdigits]
    simp [h]

/-! ## Pairs, sequences, strings -/

def pair (c : Bcs α) (d : Bcs β) : Bcs (α × β) where
  write p := c.write p.1 ++ d.write p.2
  read bytes := do
    let (a, rest) ← c.read bytes
    let (b, rest) ← d.read rest
    return ((a, b), rest)
  Fits p := c.Fits p.1 ∧ d.Fits p.2
  read_write p rest h := by
    simp [List.append_assoc, c.read_write p.1 _ h.1, d.read_write p.2 rest h.2]

/-- A pair was read as its first part and then its second. -/
theorem pair_read {c : Bcs α} {d : Bcs β} {p : α × β} {bytes rest : Bytes}
    (h : (pair c d).read bytes = some (p, rest)) :
    ∃ mid, c.read bytes = some (p.1, mid) ∧ d.read mid = some (p.2, rest) := by
  simp only [pair, Option.bind_eq_bind, Option.bind_eq_some_iff, Option.pure_def,
    Option.some.injEq, Prod.mk.injEq] at h
  obtain ⟨⟨a, mid⟩, ha, ⟨b, rest'⟩, hb, rfl, rfl⟩ := h
  exact ⟨mid, ha, hb⟩

def readMany (c : Bcs α) : Nat → Bytes → Option (List α × Bytes)
  | 0, bytes => some ([], bytes)
  | n + 1, bytes => do
    let (a, rest) ← c.read bytes
    let (as, rest) ← readMany c n rest
    return (a :: as, rest)

theorem readMany_write (c : Bcs α) {as : List α} {rest : Bytes} (h : ∀ a ∈ as, c.Fits a) :
    c.readMany as.length (as.flatMap c.write ++ rest) = some (as, rest) := by
  induction as with
  | nil => rfl
  | cons a as ih =>
    have htail := ih fun b hb => h b (List.mem_cons_of_mem _ hb)
    rw [List.flatMap_cons, List.append_assoc, List.length_cons, readMany,
      c.read_write a _ (h a List.mem_cons_self)]
    simp [htail]

/-- A list behind its length. -/
def seq (c : Bcs α) : Bcs (List α) where
  write as := length.write as.length ++ as.flatMap c.write
  read bytes := do
    let (n, rest) ← length.read bytes
    c.readMany n rest
  Fits as := length.Fits as.length ∧ ∀ a ∈ as, c.Fits a
  read_write as rest h := by
    simp [List.append_assoc, length.read_write as.length _ h.1, c.readMany_write h.2]

def byte : Bcs UInt8 where
  write b := [b]
  read
    | [] => none
    | b :: rest => some (b, rest)
  Fits _ := True
  read_write _ _ _ := rfl

/-- `vector<u8>`. -/
def bytes : Bcs Bytes := seq byte

def utf8 (s : String) : Bytes := s.toByteArray.data.toList

theorem fromUTF8?_utf8 (s : String) : String.fromUTF8? ⟨(utf8 s).toArray⟩ = some s := by
  have harray : (⟨(utf8 s).toArray⟩ : ByteArray) = s.toByteArray := by
    rw [utf8, Array.toArray_toList]
  rw [harray, String.fromUTF8?, dif_pos s.isValidUTF8]
  rfl

/-- A string behind the length of its UTF-8 bytes. -/
def string : Bcs String where
  write s := bytes.write (utf8 s)
  read input := do
    let (xs, rest) ← bytes.read input
    let s ← String.fromUTF8? ⟨xs.toArray⟩
    return (s, rest)
  Fits s := bytes.Fits (utf8 s)
  read_write s rest h := by
    simp [bytes.read_write (utf8 s) rest h, fromUTF8?_utf8]

end Bcs

end Podseq.Lib
