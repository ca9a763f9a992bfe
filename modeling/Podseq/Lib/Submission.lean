import Podseq.Lib.Runs

/-! # Transactions that may not be heard of again

A client sends a transaction and waits for its receipt. Without one it has learned nothing: the
transaction may execute at any later time, or never. What the transactions of a client preserve is
therefore preserved whenever one of them executes, not only when it is sent.
-/
namespace Podseq.Lib

/-- Whether the receipt of a transaction comes in time. -/
inductive Confirmation
  | confirmed
  | lost
deriving DecidableEq, Repr

/-- A ledger, and the transactions sent to it that nothing was heard of. -/
structure Submissions (σ τ : Type*) where
  state : σ
  inFlight : List τ

namespace Submissions

variable {σ τ ρ ε : Type*} {exec : τ → σ → Except ε (σ × ρ)} {s s' : Submissions σ τ} {tx : τ}
  {receipt : Confirmation} {r : ρ} {I : σ → Prop} {T : τ → Prop}

/-- What the client is told of a transaction it sends. -/
def submit (exec : τ → σ → Except ε (σ × ρ)) (s : Submissions σ τ) (tx : τ) :
    Confirmation → Submissions σ τ × Option ρ
  | .lost => ({ s with inFlight := tx :: s.inFlight }, none)
  | .confirmed =>
    match exec tx s.state with
    | .ok (state, r) => ({ s with state }, some r)
    | .error _ => (s, none)

/-- The `i`-th transaction in flight executes, or fails, once. -/
def land (exec : τ → σ → Except ε (σ × ρ)) (s : Submissions σ τ) (i : Nat) :
    Option (Submissions σ τ) :=
  match s.inFlight[i]? with
  | none => none
  | some tx =>
    match exec tx s.state with
    | .ok (state, _) => some ⟨state, s.inFlight.eraseIdx i⟩
    | .error _ => some { s with inFlight := s.inFlight.eraseIdx i }

theorem submit_eq_some (h : submit exec s tx receipt = (s', some r)) :
    receipt = .confirmed ∧ ∃ state, exec tx s.state = .ok (state, r) ∧ s' = { s with state } := by
  cases receipt with
  | lost => cases h
  | confirmed =>
    rw [submit] at h
    split at h
    · rename_i state r' hexec
      cases h
      exact ⟨rfl, state, hexec, rfl⟩
    · cases h

/-- Without a receipt that says so, the ledger has not changed yet. -/
theorem submit_eq_none (h : submit exec s tx receipt = (s', none)) : s'.state = s.state ∧
    (receipt = .confirmed → s'.inFlight = s.inFlight ∧ ∃ e, exec tx s.state = .error e) := by
  cases receipt with
  | lost =>
    cases h
    exact ⟨rfl, nofun⟩
  | confirmed =>
    rw [submit] at h
    split at h
    · cases h
    · rename_i e hexec
      cases h
      exact ⟨rfl, fun _ => ⟨rfl, e, hexec⟩⟩

/-- An invariant of the ledger, and what is known of the transactions in flight. -/
structure Keeps (I : σ → Prop) (T : τ → Prop) (s : Submissions σ τ) : Prop where
  state : I s.state
  inFlight : ∀ tx ∈ s.inFlight, T tx

theorem Keeps.submit (h : Keeps I T s) (htx : T tx)
    (hkeep : ∀ tx st st' r, T tx → I st → exec tx st = .ok (st', r) → I st') :
    Keeps I T (submit exec s tx receipt).1 := by
  cases receipt with
  | lost =>
    refine ⟨h.state, fun tx' htx' => ?_⟩
    rcases List.mem_cons.1 htx' with rfl | hold
    · exact htx
    · exact h.inFlight tx' hold
  | confirmed =>
    rw [Submissions.submit]
    split
    · rename_i state r hexec
      exact ⟨hkeep tx _ _ r htx h.state hexec, h.inFlight⟩
    · exact h

theorem Keeps.land {i : Nat} (h : Keeps I T s)
    (hkeep : ∀ tx st st' r, T tx → I st → exec tx st = .ok (st', r) → I st')
    (hs : land exec s i = some s') : Keeps I T s' := by
  rw [Submissions.land] at hs
  split at hs
  · cases hs
  · rename_i tx hi
    have hrest : ∀ tx' ∈ s.inFlight.eraseIdx i, T tx' := fun tx' htx' =>
      h.inFlight tx' (List.mem_of_mem_eraseIdx htx')
    split at hs
    · rename_i state r hexec
      cases hs
      exact ⟨hkeep tx _ _ r (h.inFlight tx (List.mem_of_getElem? hi)) h.state hexec, hrest⟩
    · cases hs
      exact ⟨h.state, hrest⟩

end Submissions

end Podseq.Lib
