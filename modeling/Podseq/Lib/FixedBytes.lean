import Mathlib

/-! # Byte strings of a fixed length

`FixedBytes n` carries the proof of its length, so a value of the wrong length cannot be
built; `ofBytes?` is the only way in from a byte string of unknown length. The order is that
of the bytes, so that ordered maps can be keyed by it.
-/
namespace Podseq.Lib

abbrev Bytes := List UInt8

/-- Byte strings of length `n`. -/
abbrev FixedBytes (n : Nat) := { bytes : Bytes // bytes.length = n }

namespace FixedBytes

variable {n : Nat}

def zero (n : Nat) : FixedBytes n := ⟨List.replicate n 0, List.length_replicate⟩

/-- The byte string, when it has the right length. -/
def ofBytes? (n : Nat) (bytes : Bytes) : Option (FixedBytes n) :=
  if h : bytes.length = n then some ⟨bytes, h⟩ else none

theorem ofBytes?_eq_some {bytes : Bytes} {x : FixedBytes n} :
    ofBytes? n bytes = some x ↔ bytes = x.val := by
  obtain ⟨v, hv⟩ := x
  unfold ofBytes?
  split
  · simp
  · rename_i h
    simp only [reduceCtorEq, false_iff]
    exact fun he => h (he ▸ hv)

@[simp] theorem ofBytes?_val (x : FixedBytes n) : ofBytes? n x.val = some x :=
  ofBytes?_eq_some.2 rfl

instance : Std.TransOrd (FixedBytes n) :=
  inferInstanceAs (Std.TransCmp (compareOn (Subtype.val : FixedBytes n → Bytes)))

instance : Std.LawfulEqOrd (FixedBytes n) where
  eq_of_compare h := Subtype.ext (Std.LawfulEqCmp.eq_of_compare h)

end FixedBytes

end Podseq.Lib
