import Mathlib

/-! # Loops by rounds

A loop goes from round to round until one of them ends it. Its rounds are numbered, since what a
round is answered may differ from one to the next. An invariant may speak of the rounds made so
far; a measure that every round makes smaller bounds their number.
-/
namespace Podseq.Lib

variable {σ β : Type*}

/-- How a round ends: in another round, or in the result of the loop. -/
inductive Round (σ β : Type*)
  | next (s : σ)
  | done (b : β)

/-- The loop from round `n` on, if it ends within `fuel` rounds. -/
def loop (round : Nat → σ → Round σ β) : Nat → Nat → σ → Option β
  | 0, _, _ => none
  | fuel + 1, n, s =>
    match round n s with
    | .next t => loop round fuel (n + 1) t
    | .done b => some b

/-- The rounds that led to another one, each with the state it began in. -/
def rounds (round : Nat → σ → Round σ β) : Nat → Nat → σ → List (Nat × σ)
  | 0, _, _ => []
  | fuel + 1, n, s =>
    match round n s with
    | .next t => (n, s) :: rounds round fuel (n + 1) t
    | .done _ => []

variable {round : Nat → σ → Round σ β} {fuel more n : Nat} {s t : σ} {b : β}
  {made : List (Nat × σ)} {I : List (Nat × σ) → σ → Prop}

theorem loop_of_next (h : round n s = .next t) :
    loop round (fuel + 1) n s = loop round fuel (n + 1) t := by
  rw [loop, h]

theorem loop_of_done (h : round n s = .done b) : loop round (fuel + 1) n s = some b := by
  rw [loop, h]

theorem rounds_of_next (h : round n s = .next t) :
    rounds round (fuel + 1) n s = (n, s) :: rounds round fuel (n + 1) t := by
  rw [rounds, h]

theorem rounds_of_done (h : round n s = .done b) : rounds round (fuel + 1) n s = [] := by
  rw [rounds, h]

/-- A loop that ends does so with any larger number of rounds allowed. -/
theorem loop_mono (h : loop round fuel n s = some b) : loop round (fuel + more) n s = some b := by
  induction fuel generalizing n s with
  | zero => cases h
  | succ fuel ih =>
    rw [Nat.add_right_comm]
    cases hr : round n s with
    | next t =>
      rw [loop_of_next hr] at h ⊢
      exact ih h
    | done b' =>
      rw [loop_of_done hr] at h ⊢
      exact h

/-- The invariant rule: the loop ends in a round that began with the invariant of all the rounds
before it. -/
theorem loop_inv (hI : I made s)
    (hnext : ∀ made n s t, I made s → round n s = .next t → I (made ++ [(n, s)]) t)
    (h : loop round fuel n s = some b) :
    ∃ m t, I (made ++ rounds round fuel n s) t ∧ round m t = .done b := by
  induction fuel generalizing made n s with
  | zero => cases h
  | succ fuel ih =>
    cases hr : round n s with
    | next t =>
      rw [loop_of_next hr] at h
      obtain ⟨m, u, hu, hdone⟩ := ih (hnext _ _ _ _ hI hr) h
      rw [rounds_of_next hr, List.append_cons]
      exact ⟨m, u, hu, hdone⟩
    | done b' =>
      rw [loop_of_done hr] at h
      obtain rfl := Option.some.inj h
      rw [rounds_of_done hr, List.append_nil]
      exact ⟨n, s, hI, hr⟩

/-- The variant rule: a measure that every round makes smaller bounds the number of rounds. -/
theorem loop_terminates {J : σ → Prop} {μ : σ → Nat} (hJ : J s)
    (hnext : ∀ n s t, J s → round n s = .next t → J t ∧ μ t < μ s) (hfuel : μ s < fuel) :
    (loop round fuel n s).isSome = true := by
  induction fuel generalizing n s with
  | zero => cases hfuel
  | succ fuel ih =>
    cases hr : round n s with
    | next t =>
      obtain ⟨ht, hlt⟩ := hnext n s t hJ hr
      rw [loop_of_next hr]
      exact ih ht (by omega)
    | done b =>
      rw [loop_of_done hr]
      rfl

/-- With the measure of its start as fuel, or more, the loop has one and the same result. -/
theorem loop_result {J : σ → Prop} {μ : σ → Nat} (hJ : J s)
    (hnext : ∀ n s t, J s → round n s = .next t → J t ∧ μ t < μ s) :
    ∃ b, ∀ fuel, μ s < fuel → loop round fuel n s = some b := by
  obtain ⟨b, hb⟩ := Option.isSome_iff_exists.1
    (loop_terminates (n := n) hJ hnext (Nat.lt_succ_self (μ s)))
  refine ⟨b, fun fuel hfuel => ?_⟩
  obtain ⟨more, rfl⟩ := Nat.exists_eq_add_of_le hfuel
  exact loop_mono hb

end Podseq.Lib
