import Podseq.Lib.FixedBytes

/-! # Little-endian integers

The `k` low bytes of a number, least significant first. Numbers below `256 ^ k` are determined
by them.
-/
namespace Podseq.Lib

/-- The `k` low bytes of `n`. -/
def leBytes (k n : Nat) : Bytes := (List.range k).map fun i => (n / 256 ^ i).toUInt8

@[simp] theorem length_leBytes {k n : Nat} : (leBytes k n).length = k := by
  simp [leBytes]

theorem leBytes_succ {k n : Nat} : leBytes (k + 1) n = n.toUInt8 :: leBytes k (n / 256) := by
  simp only [leBytes, List.range_succ_eq_map, List.map_cons, List.map_map, pow_zero, Nat.div_one]
  refine congrArg _ (List.map_congr_left fun i _ => ?_)
  rw [Function.comp_apply, Nat.div_div_eq_div_mul, Nat.pow_succ']

theorem leBytes_concat {k n : Nat} :
    leBytes (k + 1) n = leBytes k n ++ [(n / 256 ^ k).toUInt8] := by
  simp only [leBytes, List.range_succ, List.map_append, List.map_cons, List.map_nil]

theorem leBytes_injective {k n m : Nat} (hn : n < 256 ^ k) (hm : m < 256 ^ k)
    (h : leBytes k n = leBytes k m) : n = m := by
  induction k generalizing n m with
  | zero => omega
  | succ k ih =>
    rw [leBytes_succ, leBytes_succ, List.cons.injEq] at h
    obtain ⟨hlow, hhigh⟩ := h
    have hlow' : n % 256 = m % 256 := by
      simpa using congrArg UInt8.toNat hlow
    have hhigh' := ih (by rw [Nat.pow_succ'] at hn; omega) (by rw [Nat.pow_succ'] at hm; omega)
      hhigh
    omega

/-- The number that bytes stand for, least significant first. -/
def ofLeBytes : Bytes → Nat
  | [] => 0
  | b :: bs => b.toNat + 256 * ofLeBytes bs

/-- Reading back keeps what the bytes have room for. -/
theorem ofLeBytes_leBytes_mod {k n : Nat} : ofLeBytes (leBytes k n) = n % 256 ^ k := by
  induction k generalizing n with
  | zero => rw [Nat.pow_zero, Nat.mod_one]; rfl
  | succ k ih =>
    have hlow : n.toUInt8.toNat = n % 256 := by simp
    rw [leBytes_succ, ofLeBytes, ih, hlow, Nat.pow_succ', Nat.mod_mul]

theorem ofLeBytes_leBytes {k n : Nat} (hn : n < 256 ^ k) : ofLeBytes (leBytes k n) = n := by
  rw [ofLeBytes_leBytes_mod, Nat.mod_eq_of_lt hn]

theorem ofLeBytes_append {low high : Bytes} : ofLeBytes (low ++ high) =
    ofLeBytes low + 256 ^ low.length * ofLeBytes high := by
  induction low with
  | nil => simp [ofLeBytes]
  | cons b low ih =>
    rw [List.cons_append, ofLeBytes, ofLeBytes, ih, List.length_cons, pow_succ']
    ring

theorem ofLeBytes_lt {bytes : Bytes} : ofLeBytes bytes < 256 ^ bytes.length := by
  induction bytes with
  | nil => exact Nat.one_pos
  | cons b bytes ih =>
    have hb : b.toNat < 256 := b.toNat_lt
    rw [ofLeBytes, List.length_cons, pow_succ']
    omega

/-- Writing what was read gives the bytes back. -/
theorem leBytes_ofLeBytes {bytes : Bytes} : leBytes bytes.length (ofLeBytes bytes) = bytes := by
  induction bytes with
  | nil => rfl
  | cons b bytes ih =>
    have hb : b.toNat < 256 := b.toNat_lt
    have hlow : (b.toNat + 256 * ofLeBytes bytes).toUInt8 = b := by
      rw [← UInt8.toNat_inj]
      simp
    have hhigh : (b.toNat + 256 * ofLeBytes bytes) / 256 = ofLeBytes bytes := by omega
    rw [List.length_cons, ofLeBytes, leBytes_succ, hlow, hhigh, ih]

end Podseq.Lib
