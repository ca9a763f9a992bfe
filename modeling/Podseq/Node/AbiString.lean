import Podseq.Lib.Bcs
import Podseq.Node.RpcLog

/-! # The first string of an ABI tuple

The relayer follows the offset word of the first string to its length word, checking that both
stay inside the buffer. The checks are on the low halves of the words, and keep every slice in
bounds; what they cannot see is a word whose high half is not zero.
-/
namespace Podseq.Node
open Podseq.Lib

/-- `a + b` on `usize`: `checked_add`, and the plain sum, for which `none` is a panic. -/
def addUsize (a b : Nat) : Option Nat := if a + b ≤ u64Max then some (a + b) else none

/-- `bytes[start..stop]`; `none` is the panic on an index out of bounds. -/
def slice (bytes : Bytes) (start stop : Nat) : Option Bytes :=
  if start ≤ stop ∧ stop ≤ bytes.length then some ((bytes.drop start).take (stop - start))
  else none

/-- `word_u64(bytes[start..stop].try_into().unwrap())`. -/
def wordFrom (bytes : Bytes) (start stop : Nat) : Option Nat := do
  let xs ← slice bytes start stop
  let word ← FixedBytes.ofBytes? 32 xs
  return wordU64 word

def fromUtf8 (bytes : Bytes) : Except String String :=
  match String.fromUTF8? ⟨bytes.toArray⟩ with
  | some s => .ok s
  | none => .error "string not utf-8"

/-- `decode_first_abi_string`; `none` is a panic. -/
def decodeFirstAbiString (data : String) : Option (Except String String) :=
  match Hex.decode data with
  | none => some (.error "log data not hex")
  | some bytes =>
    if bytes.length < 32 then some (.error "log data shorter than one word")
    else do
      let off ← wordFrom bytes 0 32
      if (addUsize off 32).any fun stop => stop ≤ bytes.length then
        let stop ← addUsize off 32
        let len ← wordFrom bytes off stop
        if ((addUsize off 32).bind fun start => addUsize start len).any fun stop =>
            stop ≤ bytes.length then
          let start ← addUsize off 32
          let stop ← addUsize start len
          let text ← slice bytes start stop
          return fromUtf8 text
        else return .error "string length overruns"
      else return .error "string offset overruns"

/-! ## Reading in bounds -/

variable {bytes : Bytes} {data s t : String} {off len : Nat}

/-- The text of the string that a length word stands before. -/
def textAt (bytes : Bytes) (off len : Nat) : Bytes := (bytes.drop (off + 32)).take len

theorem addUsize_of_le {a b : Nat} (h : a + b ≤ u64Max) : addUsize a b = some (a + b) := if_pos h

theorem addUsize_any {a b bound : Nat} :
    ((addUsize a b).any fun stop => stop ≤ bound) = true ↔ a + b ≤ u64Max ∧ a + b ≤ bound := by
  unfold addUsize
  split_ifs with h
  · simp [h]
  · simp [h]

theorem slice_of_le {start stop : Nat} (hle : start ≤ stop) (h : stop ≤ bytes.length) :
    slice bytes start stop = some ((bytes.drop start).take (stop - start)) := if_pos ⟨hle, h⟩

/-- A word inside the buffer is read by its low half. -/
theorem wordFrom_of_le {stop : Nat} (hstop : stop = off + 32) (h : stop ≤ bytes.length) :
    wordFrom bytes off stop = some (wordAt bytes off % 2 ^ 64) := by
  subst hstop
  have hlength : ((bytes.drop off).take 32).length = 32 := by
    rw [List.length_take, List.length_drop]
    omega
  have hword : FixedBytes.ofBytes? 32 ((bytes.drop off).take 32) =
      some ⟨(bytes.drop off).take 32, hlength⟩ := FixedBytes.ofBytes?_eq_some.2 rfl
  simp only [wordFrom, slice_of_le (Nat.le_add_right off 32) h, Nat.add_sub_cancel_left,
    Option.bind_eq_bind, Option.bind_some, hword, Option.pure_def, wordU64_eq]
  rfl

/-- What the function returns on a buffer of a word or more. -/
theorem decodeFirstAbiString_eq (hd : Hex.decode data = some bytes) (hlen : 32 ≤ bytes.length)
    (hoff : off = wordAt bytes 0 % 2 ^ 64) (hlow : len = wordAt bytes off % 2 ^ 64) :
    decodeFirstAbiString data = some (
      if off + 32 ≤ u64Max ∧ off + 32 ≤ bytes.length then
        if off + 32 + len ≤ u64Max ∧ off + 32 + len ≤ bytes.length then
          fromUtf8 (textAt bytes off len)
        else .error "string length overruns"
      else .error "string offset overruns") := by
  have hhead : wordFrom bytes 0 32 = some off := by
    rw [hoff]
    exact wordFrom_of_le rfl hlen
  simp only [decodeFirstAbiString, hd, if_neg (Nat.not_lt_of_le hlen), hhead, Option.bind_eq_bind,
    Option.bind_some, addUsize_any]
  by_cases hin : off + 32 ≤ u64Max ∧ off + 32 ≤ bytes.length
  · have hstart : addUsize off 32 = some (off + 32) := addUsize_of_le hin.1
    have hword : wordFrom bytes off (off + 32) = some len := by
      rw [hlow]
      exact wordFrom_of_le rfl hin.2
    simp only [if_pos hin, hstart, Option.bind_some, hword, addUsize_any]
    by_cases hend : off + 32 + len ≤ u64Max ∧ off + 32 + len ≤ bytes.length
    · have htext : slice bytes (off + 32) (off + 32 + len) = some (textAt bytes off len) := by
        rw [slice_of_le (Nat.le_add_right _ _) hend.2, Nat.add_sub_cancel_left]
        rfl
      simp only [if_pos hend, addUsize_of_le hend.1, Option.bind_some, htext, Option.pure_def]
    · simp only [if_neg hend, Option.pure_def]
  · simp only [if_neg hin, Option.pure_def]

/-! ## The claims about a buffer -/

def Addressable (data : String) : Prop :=
  ∀ bytes, Hex.decode data = some bytes → bytes.length ≤ u64Max

/-- The full offset word and the full length word at that offset designate a range inside the
buffer. -/
def Designates (bytes : Bytes) : Prop :=
  32 ≤ bytes.length ∧ wordAt bytes 0 + 32 ≤ bytes.length ∧
    wordAt bytes 0 + 32 + wordAt bytes (wordAt bytes 0) ≤ bytes.length

/-- Whatever string the low halves of the two words lead to, the words have no high half. -/
def WordsFit (bytes : Bytes) : Prop :=
  ∀ off len, off = wordAt bytes 0 % 2 ^ 64 → len = wordAt bytes off % 2 ^ 64 →
    32 ≤ bytes.length → off + 32 + len ≤ bytes.length →
    (String.fromUTF8? ⟨(textAt bytes off len).toArray⟩).isSome →
    wordAt bytes 0 = off ∧ wordAt bytes off = len

/-- Every call returns. -/
theorem decodeFirstAbiString_isSome (data : String) : (decodeFirstAbiString data).isSome := by
  cases hd : Hex.decode data with
  | none => simp [decodeFirstAbiString, hd]
  | some bytes =>
    by_cases hlen : 32 ≤ bytes.length
    · rw [decodeFirstAbiString_eq hd hlen rfl rfl]
      rfl
    · simp [decodeFirstAbiString, hd, Nat.lt_of_not_le hlen]

@[simp] theorem fromUtf8_eq_ok : fromUtf8 bytes = .ok s ↔
    String.fromUTF8? ⟨bytes.toArray⟩ = some s := by
  unfold fromUtf8
  cases String.fromUTF8? ⟨bytes.toArray⟩ <;> simp

/-- A buffer is accepted exactly when the low halves of its words lead to a string. -/
theorem decodeFirstAbiString_eq_ok (hd : Hex.decode data = some bytes)
    (hbound : bytes.length ≤ u64Max) :
    decodeFirstAbiString data = some (.ok s) ↔
      ∃ off len, off = wordAt bytes 0 % 2 ^ 64 ∧ len = wordAt bytes off % 2 ^ 64 ∧
        32 ≤ bytes.length ∧ off + 32 + len ≤ bytes.length ∧
        String.fromUTF8? ⟨(textAt bytes off len).toArray⟩ = some s := by
  by_cases hlen : 32 ≤ bytes.length
  · rw [decodeFirstAbiString_eq hd hlen rfl rfl, Option.some.injEq]
    constructor
    · intro h
      split_ifs at h with hin hend
      exact ⟨_, _, rfl, rfl, hlen, hend.2, fromUtf8_eq_ok.1 h⟩
    · intro h
      obtain ⟨_, _, rfl, rfl, -, hend, htext⟩ := h
      rw [if_pos (by omega), if_pos ⟨hend.trans hbound, hend⟩]
      exact fromUtf8_eq_ok.2 htext
  · constructor
    · intro h
      simp [decodeFirstAbiString, hd, Nat.lt_of_not_le hlen] at h
    · intro h
      obtain ⟨_, _, -, -, hlen', -⟩ := h
      exact absurd hlen' hlen

/-- Acceptance implies that the words designate a range exactly when they fit. -/
theorem designates_iff (hd : Hex.decode data = some bytes) (hbound : bytes.length ≤ u64Max) :
    (∀ s, decodeFirstAbiString data = some (.ok s) → Designates bytes) ↔ WordsFit bytes := by
  have hlow : ∀ {n : Nat}, n ≤ u64Max → n % 2 ^ 64 = n := fun hn =>
    Nat.mod_eq_of_lt (Nat.lt_of_le_of_lt hn (by decide))
  constructor
  · intro h off len hoff hlen hlong hend htext
    obtain ⟨s, htext⟩ := Option.isSome_iff_exists.1 htext
    obtain ⟨-, hfull, hfull'⟩ := h s ((decodeFirstAbiString_eq_ok hd hbound).2
      ⟨off, len, hoff, hlen, hlong, hend, htext⟩)
    have hoff' : wordAt bytes 0 = off := by
      rw [hoff, hlow]
      omega
    rw [hoff'] at hfull'
    refine ⟨hoff', ?_⟩
    rw [hlen, hlow]
    omega
  · intro h s hok
    obtain ⟨off, len, hoff, hlen, hlong, hend, htext⟩ :=
      (decodeFirstAbiString_eq_ok hd hbound).1 hok
    obtain ⟨hoff', hlen'⟩ := h off len hoff hlen hlong hend (Option.isSome_of_mem htext)
    refine ⟨hlong, ?_, ?_⟩
    · rw [hoff']
      omega
    · rw [hoff', hlen']
      exact hend

/-! ## The Solidity encoding of three strings -/

/-- A length-prefixed string, padded to whole words. -/
def abiTail (s : String) : Bytes :=
  beBytes 32 (Bcs.utf8 s).length ++ Bcs.utf8 s ++
    List.replicate ((32 - (Bcs.utf8 s).length % 32) % 32) 0

/-- The offsets of the three strings. -/
def abiHead (s n : String) : Bytes :=
  beBytes 32 96 ++ beBytes 32 (96 + (abiTail s).length) ++
    beBytes 32 (96 + (abiTail s).length + (abiTail n).length)

/-- `abi.encode(s, n, y)`: the offsets, and the strings they point at. -/
def abiEncode (s n y : String) : Bytes := abiHead s n ++ abiTail s ++ abiTail n ++ abiTail y

theorem length_abiHead {s n : String} : (abiHead s n).length = 96 := by
  simp only [abiHead, List.length_append, length_beBytes]

/-- A word that was written is the word at its offset. -/
theorem wordAt_append {pre rest : Bytes} {n : Nat} (h : n < 256 ^ 32) :
    wordAt (pre ++ (beBytes 32 n ++ rest)) pre.length = n := by
  rw [wordAt, List.drop_left, List.take_left' length_beBytes, ofBeBytes_beBytes h]

/-- The encoding around the first string. -/
theorem abiEncode_eq (s n y : String) : ∃ padding, abiEncode s n y =
    abiHead s n ++ (beBytes 32 (Bcs.utf8 s).length ++ (Bcs.utf8 s ++ padding)) := by
  refine ⟨List.replicate ((32 - (Bcs.utf8 s).length % 32) % 32) 0 ++ (abiTail n ++ abiTail y), ?_⟩
  simp only [abiEncode, abiTail, List.append_assoc]

/-- The words and the text of an encoding. -/
theorem abiEncode_words {s n y : String} (hbound : (abiEncode s n y).length ≤ u64Max) :
    (Bcs.utf8 s).length < 2 ^ 64 ∧ 96 + 32 + (Bcs.utf8 s).length ≤ (abiEncode s n y).length ∧
      wordAt (abiEncode s n y) 0 = 96 ∧ wordAt (abiEncode s n y) 96 = (Bcs.utf8 s).length ∧
      textAt (abiEncode s n y) 96 (Bcs.utf8 s).length = Bcs.utf8 s := by
  obtain ⟨padding, heq⟩ := abiEncode_eq s n y
  have hlength : (abiEncode s n y).length =
      96 + (32 + ((Bcs.utf8 s).length + padding.length)) := by
    rw [heq]
    simp only [List.length_append, length_abiHead, length_beBytes]
  have hsmall : (Bcs.utf8 s).length < 2 ^ 64 := by
    have hmax : u64Max = 2 ^ 64 - 1 := rfl
    omega
  refine ⟨hsmall, by omega, ?_, ?_, ?_⟩
  · have hword : wordAt ([] ++ (beBytes 32 96 ++ (beBytes 32 (96 + (abiTail s).length) ++
        (beBytes 32 (96 + (abiTail s).length + (abiTail n).length) ++
          (abiTail s ++ (abiTail n ++ abiTail y)))))) ([] : Bytes).length = 96 :=
      wordAt_append (by decide)
    simpa only [abiEncode, abiHead, List.append_assoc, List.nil_append, List.length_nil] using hword
  · rw [heq, ← length_abiHead (s := s) (n := n)]
    exact wordAt_append (hsmall.trans (by decide))
  · have hpre : (abiHead s n ++ beBytes 32 (Bcs.utf8 s).length).length = 96 + 32 := by
      rw [List.length_append, length_abiHead, length_beBytes]
    rw [textAt, heq, ← List.append_assoc, ← hpre, List.drop_left, List.take_left]

/-- Decoding takes back the first string. -/
theorem decodeFirstAbiString_abiEncode {s n y : String}
    (hbound : (abiEncode s n y).length ≤ u64Max) :
    decodeFirstAbiString (Hex.encodePrefixed (abiEncode s n y)) = some (.ok s) := by
  obtain ⟨hsmall, hend, hoff, hlen, htext⟩ := abiEncode_words hbound
  refine (decodeFirstAbiString_eq_ok (Hex.decode_encodePrefixed _) hbound).2
    ⟨96, (Bcs.utf8 s).length, ?_, ?_, ?_, hend, ?_⟩
  · rw [hoff]
    rfl
  · rw [hlen, Nat.mod_eq_of_lt hsmall]
  · omega
  · rw [htext]
    exact Bcs.fromUTF8?_utf8 s

theorem wordsFit_abiEncode {s n y : String} (hbound : (abiEncode s n y).length ≤ u64Max) :
    WordsFit (abiEncode s n y) := by
  obtain ⟨hsmall, -, hoff, hlen, -⟩ := abiEncode_words hbound
  intro off len hoff' hlen' _ _ _
  rw [hoff] at hoff'
  obtain rfl : off = 96 := hoff'
  rw [hlen, Nat.mod_eq_of_lt hsmall] at hlen'
  exact ⟨hoff, hlen.trans hlen'.symm⟩

/-- **Decoding the first string of an ABI tuple.** Every call returns, the encoding of three strings
is decoded to the first of them, and an accepted buffer has an offset and a length word that
designate a range inside it: the last of these exactly if the words have no high half. -/
theorem abi_string_decoded_iff (hdata : Addressable data) :
    ((decodeFirstAbiString data).isSome ∧
      (∀ s n y, (abiEncode s n y).length ≤ u64Max →
        decodeFirstAbiString (Hex.encodePrefixed (abiEncode s n y)) = some (.ok s)) ∧
      ∀ bytes s, Hex.decode data = some bytes → decodeFirstAbiString data = some (.ok s) →
        Designates bytes) ↔
    ∀ bytes, Hex.decode data = some bytes → WordsFit bytes := by
  constructor
  · intro h bytes hd
    exact (designates_iff hd (hdata bytes hd)).1 fun s hok => h.2.2 bytes s hd hok
  · intro h
    refine ⟨decodeFirstAbiString_isSome data, fun s n y hbound =>
      decodeFirstAbiString_abiEncode hbound, fun bytes s hd hok => ?_⟩
    exact (designates_iff hd (hdata bytes hd)).2 (h bytes hd) s hok

/-- An empty string behind an offset of `2 ^ 64 + 32`: the low half of the offset leads to it. -/
def farOffset : Bytes := beBytes 32 (2 ^ 64 + 32) ++ (beBytes 32 0 ++ [])

theorem length_farOffset : farOffset.length = 64 := by
  simp only [farOffset, List.length_append, length_beBytes, List.length_nil]

theorem far_offset_accepted :
    Addressable (Hex.encodePrefixed farOffset) ∧
    decodeFirstAbiString (Hex.encodePrefixed farOffset) = some (.ok "") ∧
    ¬Designates farOffset := by
  have hfirst : wordAt ([] ++ farOffset) ([] : Bytes).length = 2 ^ 64 + 32 :=
    wordAt_append (by decide)
  have hword : wordAt farOffset 0 = 2 ^ 64 + 32 := hfirst
  have hlen : wordAt farOffset 32 = 0 := by
    have hzero : wordAt farOffset (beBytes 32 (2 ^ 64 + 32)).length = 0 :=
      wordAt_append (by decide)
    rwa [length_beBytes] at hzero
  have hlong := length_farOffset
  have hdata : Addressable (Hex.encodePrefixed farOffset) := by
    intro bytes hd
    rw [Hex.decode_encodePrefixed] at hd
    cases hd
    rw [hlong]
    decide
  refine ⟨hdata, ?_, fun h => ?_⟩
  · refine (decodeFirstAbiString_eq_ok (Hex.decode_encodePrefixed _) (hdata _
      (Hex.decode_encodePrefixed _))).2 ⟨32, 0, ?_, ?_, ?_, ?_, rfl⟩
    · rw [hword]
      rfl
    · rw [hlen]
      rfl
    · omega
    · omega
  · obtain ⟨-, hfull, -⟩ := h
    rw [hword, hlong] at hfull
    revert hfull
    decide

/-- The event of a token of the coin type `a::b::C`: its first string is taken back, and its words
lead to a range inside it. -/
theorem abi_string_decoded_short :
    decodeFirstAbiString (Hex.encodePrefixed (abiEncode "a::b::C" "C" "")) =
        some (.ok "a::b::C") ∧
      Designates (abiEncode "a::b::C" "C" "") := by
  have hbound : (abiEncode "a::b::C" "C" "").length ≤ u64Max := by
    simp only [abiEncode, List.length_append, length_abiHead, abiTail, length_beBytes]
    decide
  obtain ⟨-, hback, hinside⟩ := (abi_string_decoded_iff fun bytes hd => by
    rw [Hex.decode_encodePrefixed] at hd
    cases hd
    exact hbound).2 fun bytes hd => by
    rw [Hex.decode_encodePrefixed] at hd
    cases hd
    exact wordsFit_abiEncode hbound
  have hdecoded := hback "a::b::C" "C" "" hbound
  exact ⟨hdecoded, hinside _ _ (Hex.decode_encodePrefixed _) hdecoded⟩

end Podseq.Node
