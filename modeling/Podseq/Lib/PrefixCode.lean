import Mathlib

/-! # Codes that can be read from the front

A code is prefix-free when a value can be told from the front of any list that starts with its
encoding. Such codes compose: pairs, options and lists of encoded values are encoded again.
-/
namespace Podseq.Lib

variable {α γ : Type*} {β : Type}

/-- The value and the rest are determined by the encoding followed by the rest. -/
def PrefixFree (encode : α → List β) : Prop :=
  ∀ a a' rest rest', encode a ++ rest = encode a' ++ rest' → a = a' ∧ rest = rest'

/-- A number as that many `one`s and a `zero`. -/
def unary (zero one : β) (n : Nat) : List β := List.replicate n one ++ [zero]

/-- A tag, then the value if there is one. -/
def encodeOption (tag : Bool → β) (encode : α → List β) : Option α → List β
  | none => [tag false]
  | some a => tag true :: encode a

/-- A length, then the encodings of the elements. -/
def encodeList (encodeLength : Nat → List β) (encode : α → List β) (xs : List α) : List β :=
  encodeLength xs.length ++ xs.flatMap encode

namespace PrefixFree

variable {encode : α → List β} {encode' : γ → List β}

theorem injective (h : PrefixFree encode) : Function.Injective encode := fun a a' heq =>
  (h a a' [] [] (by rw [heq])).1

theorem comp {f : γ → α} (h : PrefixFree encode) (hf : Function.Injective f) :
    PrefixFree (encode ∘ f) := by
  intro a a' rest rest' heq
  obtain ⟨hfa, hrest⟩ := h _ _ _ _ heq
  exact ⟨hf hfa, hrest⟩

theorem of_length {n : Nat} (hlength : ∀ a, (encode a).length = n)
    (hinj : Function.Injective encode) : PrefixFree encode := by
  intro a a' rest rest' heq
  obtain ⟨ha, hrest⟩ := List.append_inj heq (by rw [hlength, hlength])
  exact ⟨hinj ha, hrest⟩

theorem pair (h : PrefixFree encode) (h' : PrefixFree encode') :
    PrefixFree fun e : α × γ => encode e.1 ++ encode' e.2 := by
  rintro ⟨a, c⟩ ⟨a', c'⟩ rest rest' heq
  simp only [List.append_assoc] at heq
  obtain ⟨rfl, htail⟩ := h _ _ _ _ heq
  obtain ⟨rfl, hrest⟩ := h' _ _ _ _ htail
  exact ⟨rfl, hrest⟩

theorem unary {zero one : β} (hne : zero ≠ one) : PrefixFree (unary zero one) := by
  intro n
  induction n with
  | zero =>
    intro n' rest rest' heq
    cases n' with
    | zero => exact ⟨rfl, List.cons.inj heq |>.2⟩
    | succ n' => exact absurd (List.cons.inj heq).1 hne
  | succ n ih =>
    intro n' rest rest' heq
    cases n' with
    | zero => exact absurd (List.cons.inj heq).1.symm hne
    | succ n' =>
      obtain ⟨rfl, hrest⟩ := ih n' rest rest' (List.cons.inj heq).2
      exact ⟨rfl, hrest⟩

/-- Lists of one length are read element by element. -/
theorem flatMap (h : PrefixFree encode) {rest rest' : List β} : ∀ {xs ys : List α},
    xs.length = ys.length → xs.flatMap encode ++ rest = ys.flatMap encode ++ rest' →
      xs = ys ∧ rest = rest'
  | [], [], _, heq => ⟨rfl, heq⟩
  | x :: xs, y :: ys, hlength, heq => by
    simp only [List.flatMap_cons, List.append_assoc] at heq
    obtain ⟨rfl, htail⟩ := h _ _ _ _ heq
    obtain ⟨rfl, hrest⟩ := flatMap h (Nat.succ.inj hlength) htail
    exact ⟨rfl, hrest⟩

theorem option {tag : Bool → β} (htag : tag false ≠ tag true) (h : PrefixFree encode) :
    PrefixFree (encodeOption tag encode) := by
  rintro (- | a) (- | a') rest rest' heq
  · exact ⟨rfl, (List.cons.inj heq).2⟩
  · exact absurd (List.cons.inj heq).1 htag
  · exact absurd (List.cons.inj heq).1.symm htag
  · obtain ⟨rfl, hrest⟩ := h _ _ _ _ (List.cons.inj heq).2
    exact ⟨rfl, hrest⟩

theorem list {encodeLength : Nat → List β} (hlength : PrefixFree encodeLength)
    (h : PrefixFree encode) : PrefixFree (encodeList encodeLength encode) := by
  intro xs ys rest rest' heq
  simp only [encodeList, List.append_assoc] at heq
  obtain ⟨hl, htail⟩ := hlength _ _ _ _ heq
  exact h.flatMap hl htail

end PrefixFree

end Podseq.Lib
