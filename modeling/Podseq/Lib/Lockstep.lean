import Podseq.Lib.Runs

/-! # Systems that answer each other step for step

Two systems over the same actions, related state by state. Where each step of the first has one of
the second that leads to related states, its runs are runs of the second; where the steps are given
by functions, one comparison of their results serves both ways.
-/
namespace Podseq.Lib

variable {σ τ α : Type*} {step : σ → α → σ → Prop} {step' : τ → α → τ → Prop}
  {R : σ → τ → Prop} {s s' : σ} {t t' : τ} {as : List α}

/-- A run is answered step for step. -/
theorem Run.answered
    (hstep : ∀ s t a s', R s t → step s a s' → ∃ t', step' t a t' ∧ R s' t')
    (h : Run step s as s') (hR : R s t) : ∃ t', Run step' t as t' ∧ R s' t' := by
  induction h generalizing t with
  | nil => exact ⟨t, .nil, hR⟩
  | cons hs _ ih =>
    obtain ⟨u, hu, hRu⟩ := hstep _ _ _ _ hR hs
    obtain ⟨t', hrun, hR'⟩ := ih hRu
    exact ⟨t', .cons hu hrun, hR'⟩

section
variable {exec : σ → α → Option σ} {exec' : τ → α → Option τ} {a : α}

theorem enabled_left (h : Option.Rel R (exec s a) (exec' t a)) (hs : enabled exec s a s') :
    ∃ t', enabled exec' t a t' ∧ R s' t' := by
  rw [show exec s a = some s' from hs] at h
  cases ht : exec' t a with
  | none =>
    rw [ht] at h
    cases h
  | some t' =>
    rw [ht] at h
    cases h with
    | some hR => exact ⟨t', ht, hR⟩

theorem enabled_right (h : Option.Rel R (exec s a) (exec' t a)) (ht : enabled exec' t a t') :
    ∃ s', enabled exec s a s' ∧ R s' t' := by
  rw [show exec' t a = some t' from ht] at h
  cases hs : exec s a with
  | none =>
    rw [hs] at h
    cases h
  | some s' =>
    rw [hs] at h
    cases h with
    | some hR => exact ⟨s', hs, hR⟩

end

end Podseq.Lib
