import Mathlib

/-! # Calls that return or fail

A call that may fail is a function into `Except ε`. The lemmas invert a successful call one
statement at a time: a `do` block that returned went through each of its parts.
-/
namespace Podseq.Lib

universe u

variable {ε : Type*} {α β : Type u}

def require (c : Prop) [Decidable c] (e : ε) : Except ε Unit :=
  if c then .ok () else .error e

/-- The largest 64-bit unsigned integer. -/
def u64Max : Nat := 2 ^ 64 - 1

/-- `a.saturating_add(b)` on `u64`. -/
def saturatingAdd (a b : Nat) : Nat := min (a + b) u64Max

/-- `a + b`, which fails with `e` when it exceeds `bound`. -/
def addUpTo (bound : Nat) (e : ε) (a b : Nat) : Except ε Nat :=
  if a + b ≤ bound then .ok (a + b) else .error e

@[simp] theorem bind_eq_ok {x : Except ε α} {f : α → Except ε β} {b : β} :
    (x >>= f) = .ok b ↔ ∃ a, x = .ok a ∧ f a = .ok b := by
  cases x <;> simp [bind, Except.bind]

theorem ok_bind (a : α) (f : α → Except ε β) : (Except.ok a >>= f) = f a := rfl

@[simp] theorem pure_eq_ok {a b : α} : (pure a : Except ε α) = .ok b ↔ a = b := by
  simp [pure, Except.pure]

@[simp] theorem require_eq_ok {c : Prop} [Decidable c] {e : ε} {u : Unit} :
    require c e = .ok u ↔ c := by
  unfold require; split <;> simp_all

@[simp] theorem error_ne_ok {e : ε} {b : α} : (throw e : Except ε α) = .ok b ↔ False := by
  simp [throw, throwThe, MonadExceptOf.throw]

@[simp] theorem addUpTo_eq_ok {bound a b c : Nat} {e : ε} :
    addUpTo bound e a b = .ok c ↔ a + b ≤ bound ∧ c = a + b := by
  unfold addUpTo
  split
  · simp_all [eq_comm]
  · simp only [reduceCtorEq, false_iff, not_and]; omega

theorem addUpTo_of_le {bound a b : Nat} {e : ε} (h : a + b ≤ bound) :
    addUpTo bound e a b = .ok (a + b) := if_pos h

theorem error_or_ok (x : Except ε α) : (∃ e, x = .error e) ∨ ∃ a, x = .ok a := by
  cases x with
  | error e => exact .inl ⟨e, rfl⟩
  | ok a => exact .inr ⟨a, rfl⟩

/-- Whatever the call fails with is one of `E`. -/
def FailsWithin (E : ε → Prop) (x : Except ε α) : Prop := ∀ e, x = .error e → E e

namespace FailsWithin

variable {E : ε → Prop} {x : Except ε α} {f : α → Except ε β} {e : ε}

theorem ok (a : α) : FailsWithin E (.ok a : Except ε α) := fun _ h => nomatch h

theorem error (h : E e) : FailsWithin E (.error e : Except ε α) := by
  rintro _ ⟨⟩
  exact h

theorem bind (hx : FailsWithin E x) (hf : ∀ a, x = .ok a → FailsWithin E (f a)) :
    FailsWithin E (x >>= f) := by
  cases x with
  | error e => exact error (hx e rfl)
  | ok a => exact hf a rfl

theorem require {c : Prop} [Decidable c] (h : E e) : FailsWithin E (Lib.require c e) := by
  unfold Lib.require
  split
  · exact ok ()
  · exact error h

theorem addUpTo {bound a b : Nat} (h : E e) : FailsWithin E (Lib.addUpTo bound e a b) := by
  unfold Lib.addUpTo
  split
  · exact ok _
  · exact error h

end FailsWithin

/-- The effect of a call on the state: a failed call is no step. -/
@[simp] theorem toOption_eq_some {x : Except ε α} {a : α} :
    x.toOption = some a ↔ x = .ok a := by
  cases x <;> simp [Except.toOption]

/-- A traversal of calls that all return, with what relates each result to its argument. -/
theorem mapM_eq_ok {f : α → Except ε β} {R : α → β → Prop} {as : List α}
    (h : ∀ a ∈ as, ∃ b, f a = .ok b ∧ R a b) :
    ∃ bs, as.mapM f = .ok bs ∧ List.Forall₂ R as bs := by
  induction as with
  | nil => exact ⟨[], rfl, .nil⟩
  | cons a as ih =>
    obtain ⟨b, hb, hab⟩ := h a List.mem_cons_self
    obtain ⟨bs, hbs, hall⟩ := ih fun a' ha' => h a' (List.mem_cons_of_mem _ ha')
    refine ⟨b :: bs, ?_, .cons hab hall⟩
    rw [List.mapM_cons, hb, hbs]
    rfl

/-- What a traversal that returned did to each argument. -/
theorem forall₂_of_mapM_eq_ok {f : α → Except ε β} {as : List α} {bs : List β}
    (h : as.mapM f = .ok bs) : List.Forall₂ (fun a b => f a = .ok b) as bs := by
  induction as generalizing bs with
  | nil =>
    cases h
    exact .nil
  | cons a as ih =>
    simp only [List.mapM_cons, bind_eq_ok, pure_eq_ok] at h
    obtain ⟨b, hb, bs', hbs, rfl⟩ := h
    exact .cons hb (ih hbs)

/-- What related lists have in common, element by element, they have in common as lists. -/
theorem map_eq_map_of_forall₂ {γ : Type*} {R : α → β → Prop} {f : α → γ} {g : β → γ} {as : List α}
    {bs : List β} (hR : ∀ a b, R a b → f a = g b) (h : List.Forall₂ R as bs) :
    as.map f = bs.map g := by
  rw [← List.forall₂_eq_eq_eq, List.forall₂_map_left_iff, List.forall₂_map_right_iff]
  exact h.imp hR

theorem exists_of_forall₂ {R : α → β → Prop} {as : List α} {bs : List β} {b : β}
    (h : List.Forall₂ R as bs) (hb : b ∈ bs) : ∃ a ∈ as, R a b := by
  induction h with
  | nil => cases hb
  | cons hab _ ih =>
    rcases List.mem_cons.1 hb with rfl | hb
    · exact ⟨_, List.mem_cons_self, hab⟩
    · obtain ⟨a, ha, hr⟩ := ih hb
      exact ⟨a, List.mem_cons_of_mem _ ha, hr⟩

end Podseq.Lib
