import Podseq.Lib.LittleEndian

/-! # Big-endian integers

Numbers with their most significant byte first. What a reader of the last bytes of a word finds is
the number modulo a power of 256.
-/
namespace Podseq.Lib

variable {k n : Nat} {high low bytes : Bytes}

/-- The number that bytes stand for, most significant first. -/
def ofBeBytes (bytes : Bytes) : Nat := ofLeBytes bytes.reverse

/-- The `k` low bytes of `n`, most significant first. -/
def beBytes (k n : Nat) : Bytes := (leBytes k n).reverse

@[simp] theorem length_beBytes : (beBytes k n).length = k := by
  rw [beBytes, List.length_reverse, length_leBytes]

theorem ofBeBytes_beBytes (h : n < 256 ^ k) : ofBeBytes (beBytes k n) = n := by
  rw [ofBeBytes, beBytes, List.reverse_reverse, ofLeBytes_leBytes h]

theorem ofBeBytes_append : ofBeBytes (high ++ low) =
    ofBeBytes low + 256 ^ low.length * ofBeBytes high := by
  rw [ofBeBytes, List.reverse_append, ofLeBytes_append, List.length_reverse]
  rfl

theorem ofBeBytes_lt : ofBeBytes bytes < 256 ^ bytes.length := by
  have hlt : ofLeBytes bytes.reverse < 256 ^ bytes.reverse.length := ofLeBytes_lt
  rwa [List.length_reverse] at hlt

/-- The last bytes of a number are the number modulo what they have room for. -/
theorem ofBeBytes_drop (h : k ≤ bytes.length) :
    ofBeBytes (bytes.drop (bytes.length - k)) = ofBeBytes bytes % 256 ^ k := by
  have hlength : (bytes.drop (bytes.length - k)).length = k := by
    rw [List.length_drop]
    omega
  have hlow : ofBeBytes (bytes.drop (bytes.length - k)) <
      256 ^ (bytes.drop (bytes.length - k)).length := ofBeBytes_lt
  rw [hlength] at hlow
  calc ofBeBytes (bytes.drop (bytes.length - k))
      = ofBeBytes (bytes.drop (bytes.length - k)) % 256 ^ k := (Nat.mod_eq_of_lt hlow).symm
    _ = (ofBeBytes (bytes.drop (bytes.length - k)) +
          256 ^ k * ofBeBytes (bytes.take (bytes.length - k))) % 256 ^ k :=
        (Nat.add_mul_mod_self_left _ _ _).symm
    _ = ofBeBytes (bytes.take (bytes.length - k) ++ bytes.drop (bytes.length - k)) % 256 ^ k := by
        rw [ofBeBytes_append, hlength]
    _ = ofBeBytes bytes % 256 ^ k := by rw [List.take_append_drop]

end Podseq.Lib
