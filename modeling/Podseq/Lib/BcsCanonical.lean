import Podseq.Lib.Bcs

/-! # Canonical serialization

A codec is canonical when whatever it reads is what it writes: then the bytes of a value are
determined by the value, and reading and writing are inverse both ways.
-/
namespace Podseq.Lib.Bcs

variable {α β : Type} {c : Bcs α} {d : Bcs β} {a : α} {input rest : Bytes}

/-- Only what is written is read. -/
def Canonical (c : Bcs α) : Prop :=
  ∀ input a rest, c.read input = some (a, rest) → c.Fits a ∧ input = c.write a ++ rest

/-- A canonical codec accepts exactly the encodings. -/
theorem Canonical.ofBytes_eq_some (hc : Canonical c) :
    c.ofBytes input = some a ↔ c.Fits a ∧ input = c.write a := by
  constructor
  · intro h
    obtain ⟨hfit, heq⟩ := hc _ _ _ (read_of_ofBytes h)
    rw [List.append_nil] at heq
    exact ⟨hfit, heq⟩
  · intro h
    rw [h.2]
    exact c.ofBytes_write h.1

/-! ## Bytes and numbers -/

theorem readBytes_eq_some {n : Nat} {xs : Bytes} :
    readBytes n input = some (xs, rest) ↔ xs.length = n ∧ input = xs ++ rest := by
  constructor
  · intro h
    rw [readBytes, Option.ite_none_right_eq_some] at h
    obtain ⟨hle, heq⟩ := h
    cases heq
    exact ⟨List.length_take_of_le hle, (List.take_append_drop _ _).symm⟩
  · intro h
    rw [h.2]
    exact readBytes_append h.1

theorem canonical_fixed (n : Nat) : Canonical (fixed n) := by
  intro input x rest h
  simp only [fixed, Option.bind_eq_bind, Option.bind_eq_some_iff, Option.pure_def,
    Option.some.injEq, Prod.mk.injEq] at h
  obtain ⟨⟨xs, rest'⟩, hread, x', hx, rfl, rfl⟩ := h
  obtain ⟨-, rfl⟩ := readBytes_eq_some.1 hread
  obtain rfl : xs = x'.val := FixedBytes.ofBytes?_eq_some.1 hx
  exact ⟨trivial, rfl⟩

theorem canonical_u64 : Canonical u64 := by
  intro input n rest h
  simp only [u64, Option.map_eq_some_iff, Prod.mk.injEq] at h
  obtain ⟨⟨xs, rest'⟩, hread, rfl, rfl⟩ := h
  obtain ⟨hlength, rfl⟩ := readBytes_eq_some.1 hread
  have hlt : ofLeBytes xs < 256 ^ xs.length := ofLeBytes_lt
  rw [hlength] at hlt
  refine ⟨hlt, ?_⟩
  show xs ++ rest' = leBytes 8 (ofLeBytes xs) ++ rest'
  rw [← hlength, leBytes_ofLeBytes]

theorem canonical_byte : Canonical byte := by
  intro input b rest h
  cases input with
  | nil => cases h
  | cons b' input =>
    cases h
    exact ⟨trivial, rfl⟩

/-! ## Lengths -/

/-- A number has one base-128 form: a superfluous zero is not read. -/
theorem uleb_of_readUleb {fuel n : Nat} (h : readUleb fuel input = some (n, rest)) :
    input = uleb fuel n ++ rest := by
  induction fuel generalizing input n with
  | zero =>
    rw [readUleb] at h
    cases h
  | succ fuel ih =>
    cases input with
    | nil =>
      rw [readUleb] at h
      · cases h
      · exact Nat.succ_ne_zero fuel
    | cons b input =>
      have hb : b.toNat < 256 := b.toNat_lt
      rw [readUleb] at h
      split_ifs at h with hlast
      · cases h
        rw [uleb, if_pos hlast]
        simp
      · simp only [Option.bind_eq_bind, Option.bind_eq_some_iff] at h
        obtain ⟨⟨high, rest'⟩, hread, h⟩ := h
        split_ifs at h with hzero
        cases h
        have hn : ¬(b.toNat - 128 + 128 * high < 128) := by omega
        have hdigit : (b.toNat - 128 + 128 * high) % 128 + 128 = b.toNat := by omega
        have hhigh : (b.toNat - 128 + 128 * high) / 128 = high := by omega
        rw [uleb, if_neg hn, hdigit, hhigh, ih hread]
        simp

theorem canonical_length : Canonical length := by
  intro input n rest h
  simp only [length, Option.filter_eq_some_iff, decide_eq_true_eq] at h
  exact ⟨h.2, uleb_of_readUleb h.1⟩

/-! ## Pairs, sequences, options -/

theorem Canonical.pair (hc : Canonical c) (hd : Canonical d) : Canonical (pair c d) := by
  intro input p rest h
  obtain ⟨mid, hfirst, hsecond⟩ := pair_read h
  obtain ⟨hfit, rfl⟩ := hc _ _ _ hfirst
  obtain ⟨hfit', rfl⟩ := hd _ _ _ hsecond
  exact ⟨⟨hfit, hfit'⟩, (List.append_assoc _ _ _).symm⟩

theorem Canonical.readMany (hc : Canonical c) {n : Nat} {as : List α}
    (h : c.readMany n input = some (as, rest)) :
    as.length = n ∧ (∀ a ∈ as, c.Fits a) ∧ input = as.flatMap c.write ++ rest := by
  induction n generalizing input as with
  | zero =>
    cases h
    exact ⟨rfl, fun a ha => (List.not_mem_nil ha).elim, rfl⟩
  | succ n ih =>
    simp only [Bcs.readMany, Option.bind_eq_bind, Option.bind_eq_some_iff, Option.pure_def,
      Option.some.injEq, Prod.mk.injEq] at h
    obtain ⟨⟨a, mid⟩, hread, ⟨as', rest'⟩, hmany, rfl, rfl⟩ := h
    obtain ⟨hfit, rfl⟩ := hc _ _ _ hread
    obtain ⟨rfl, hfits, rfl⟩ := ih hmany
    refine ⟨rfl, fun b hb => ?_, ?_⟩
    · rcases List.mem_cons.1 hb with rfl | hb
      · exact hfit
      · exact hfits b hb
    · rw [List.flatMap_cons, List.append_assoc]

theorem Canonical.seq (hc : Canonical c) : Canonical (seq c) := by
  intro input as rest h
  simp only [Bcs.seq, Option.bind_eq_bind, Option.bind_eq_some_iff] at h
  obtain ⟨⟨n, mid⟩, hlength, hmany⟩ := h
  obtain ⟨hfit, rfl⟩ := canonical_length _ _ _ hlength
  obtain ⟨rfl, hfits, rfl⟩ := hc.readMany hmany
  exact ⟨⟨hfit, hfits⟩, (List.append_assoc _ _ _).symm⟩

theorem canonical_bytes : Canonical bytes := canonical_byte.seq

/-- An optional value behind a byte that tells whether it is there. -/
def option (c : Bcs α) : Bcs (Option α) where
  write
    | none => [0]
    | some a => 1 :: c.write a
  read
    | 0 :: rest => some (none, rest)
    | 1 :: rest => (c.read rest).map fun (a, rest) => (some a, rest)
    | _ => none
  Fits o := ∀ a ∈ o, c.Fits a
  read_write o rest h := by
    cases o with
    | none => rfl
    | some a =>
      have hread := c.read_write a rest (h a rfl)
      simp [hread]

theorem Canonical.option (hc : Canonical c) : Canonical (option c) := by
  intro input o rest h
  unfold Bcs.option at h
  dsimp only at h
  split at h
  · cases h
    refine ⟨fun a ha => ?_, rfl⟩
    cases ha
  · simp only [Option.map_eq_some_iff, Prod.mk.injEq] at h
    obtain ⟨⟨a, rest'⟩, hread, rfl, rfl⟩ := h
    obtain ⟨hfit, rfl⟩ := hc _ _ _ hread
    refine ⟨fun a' ha' => ?_, rfl⟩
    cases ha'
    exact hfit
  · cases h

/-- A record, serialized as the tuple of its fields. -/
def record (c : Bcs α) (make : α → β) (fields : β → α) (h : ∀ b, make (fields b) = b) :
    Bcs β where
  write b := c.write (fields b)
  read input := (c.read input).map fun (a, rest) => (make a, rest)
  Fits b := c.Fits (fields b)
  read_write b rest hb := by
    simp only [c.read_write _ rest hb, Option.map_some, h]

theorem Canonical.record (hc : Canonical c) {make : α → β} {fields : β → α}
    (h : ∀ b, make (fields b) = b) (h' : ∀ a, fields (make a) = a) :
    Canonical (record c make fields h) := by
  intro input b rest hread
  simp only [Bcs.record, Option.map_eq_some_iff, Prod.mk.injEq] at hread
  obtain ⟨⟨a, rest'⟩, hread, rfl, rfl⟩ := hread
  obtain ⟨hfit, heq⟩ := hc _ _ _ hread
  simp only [Bcs.record, h']
  exact ⟨hfit, heq⟩

end Podseq.Lib.Bcs
