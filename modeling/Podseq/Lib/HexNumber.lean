import Podseq.Lib.Hex

/-! # Numbers in hexadecimal

Written without leading zeros behind a `0x`, and read back with a bound: the digits are taken one
after the other, and a number that grows past the bound is refused.
-/
namespace Podseq.Lib.Hex

variable {bound n : Nat}

/-- `format!("0x{n:x}")`. -/
def quantity (n : Nat) : String := String.ofList ('0' :: 'x' :: Nat.toDigits 16 n)

/-- One more digit; `none` is one that is not hexadecimal, or an overflow. -/
def pushDigit (bound n : Nat) (c : Char) : Option Nat := do
  let d ← value c
  if 16 * n + d ≤ bound then some (16 * n + d) else none

/-- `from_str_radix(_, 16)`: one plus sign may lead, and there has to be a digit. -/
def radix16 (bound : Nat) : List Char → Option Nat
  | [] | ['+'] => none
  | '+' :: cs => cs.foldlM (pushDigit bound) 0
  | cs => cs.foldlM (pushDigit bound) 0

theorem value_digitChar {n : Nat} (h : n < 16) : value n.digitChar = some n := by
  have hall : ∀ n : Fin 16, value (Nat.digitChar n.val) = some n.val := by decide
  exact hall ⟨n, h⟩

theorem digitChar_ne {n : Nat} (h : n < 16) : n.digitChar ≠ '+' ∧ n.digitChar ≠ 'x' := by
  have hall : ∀ n : Fin 16, Nat.digitChar n.val ≠ '+' ∧ Nat.digitChar n.val ≠ 'x' := by decide
  exact hall ⟨n, h⟩

/-- A number is read digit by digit; what was read on the way is no larger. -/
theorem foldlM_toDigits (h : n ≤ bound) :
    (Nat.toDigits 16 n).foldlM (pushDigit bound) 0 = some n := by
  induction n using Nat.strongRecOn with
  | ind n ih =>
    by_cases hlt : n < 16
    · rw [Nat.toDigits_of_lt_base hlt, List.foldlM_cons, pushDigit, value_digitChar hlt]
      simp [h]
    · have hmod : n % 16 < 16 := Nat.mod_lt _ (by decide)
      have hhigh := ih (n / 16) (by omega) (by omega)
      have hsplit : 16 * (n / 16) + n % 16 = n := Nat.div_add_mod n 16
      rw [Nat.toDigits_of_base_le (by decide) (by omega), List.foldlM_append, hhigh]
      simp [pushDigit, value_digitChar hmod, hsplit, h]

/-- A number is written in digits, at least one. -/
theorem toDigits_digits (n : Nat) : Nat.toDigits 16 n ≠ [] ∧
    ∀ c ∈ Nat.toDigits 16 n, c ≠ '+' ∧ c ≠ 'x' := by
  induction n using Nat.strongRecOn with
  | ind n ih =>
    by_cases hlt : n < 16
    · rw [Nat.toDigits_of_lt_base hlt]
      refine ⟨List.cons_ne_nil _ _, fun c hc => ?_⟩
      rw [List.mem_singleton.1 hc]
      exact digitChar_ne hlt
    · obtain ⟨-, hall⟩ := ih (n / 16) (by omega)
      rw [Nat.toDigits_of_base_le (by decide) (by omega)]
      refine ⟨List.append_ne_nil_of_right_ne_nil _ (List.cons_ne_nil _ _), fun c hc => ?_⟩
      rcases List.mem_append.1 hc with hc | hc
      · exact hall c hc
      · rw [List.mem_singleton.1 hc]
        exact digitChar_ne (Nat.mod_lt _ (by decide))

theorem radix16_toDigits (h : n ≤ bound) : radix16 bound (Nat.toDigits 16 n) = some n := by
  have hread := foldlM_toDigits h
  obtain ⟨hne, hall⟩ := toDigits_digits n
  unfold radix16
  split
  · exact absurd ‹_› hne
  · rename_i heq
    exact absurd rfl (hall '+' (heq ▸ List.mem_cons_self)).1
  · rename_i heq
    exact absurd rfl (hall '+' (heq ▸ List.mem_cons_self)).1
  · exact hread

/-- What is left of a written number once every leading `0x` is dropped. -/
theorem trimPrefix_quantity (n : Nat) :
    trimPrefix (quantity n).toList = Nat.toDigits 16 n := by
  obtain ⟨-, hall⟩ := toDigits_digits n
  rw [quantity, String.toList_ofList, trimPrefix]
  unfold trimPrefix
  split
  · rename_i heq
    exact absurd rfl (hall 'x' (heq ▸ List.mem_cons_of_mem _ List.mem_cons_self)).2
  · rfl

end Podseq.Lib.Hex
