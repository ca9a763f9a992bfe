import Mathlib

/-! # Runs of labelled transition systems

A system is a relation `step s a t`: from `s`, the labelled step `a` may lead to
`t`. `Run` chains steps and `Reachable` closes a set of initial states under
them. Invariants, histories and the restriction of a system to the steps that
meet a condition are each packaged once here, so that a property of a concrete
system reduces to what a single step of it preserves.
-/
namespace Podseq.Lib

variable {σ α : Type*}

/-- Finite runs of `step`, with their labels in order. -/
inductive Run (step : σ → α → σ → Prop) : σ → List α → σ → Prop
  | nil {s} : Run step s [] s
  | cons {s a t as u} : step s a t → Run step t as u → Run step s (a :: as) u

namespace Run

variable {step step' : σ → α → σ → Prop} {s t u : σ} {a : α} {as bs : List α}

theorem single (h : step s a t) : Run step s [a] t := .cons h .nil

theorem append (h : Run step s as t) (k : Run step t bs u) : Run step s (as ++ bs) u := by
  induction h with
  | nil => exact k
  | cons hs _ ih => exact .cons hs (ih k)

theorem mono (hm : ∀ s a t, step s a t → step' s a t) (h : Run step s as t) :
    Run step' s as t := by
  induction h with
  | nil => exact .nil
  | cons hs _ ih => exact .cons (hm _ _ _ hs) ih

/-- The invariant rule: what every step keeps, every run keeps. -/
theorem inv {I : σ → Prop} (hk : ∀ s a t, I s → step s a t → I t) (h : Run step s as t) :
    I s → I t := by
  induction h with
  | nil => exact id
  | cons hs _ ih => exact fun hi => ih (hk _ _ _ hi hs)

/-- A reflexive and transitive relation that every step respects relates the two
ends of every run. -/
theorem rel {R : σ → σ → Prop} (hr : ∀ s, R s s) (ht : ∀ s t u, R s t → R t u → R s u)
    (hs : ∀ s a t, step s a t → R s t) (h : Run step s as t) : R s t := by
  induction h with
  | nil => exact hr _
  | cons h₁ _ ih => exact ht _ _ _ (hs _ _ _ h₁) ih

/-- The history rule: an invariant may speak of the labels of the run so far. -/
theorem history {I : List α → σ → Prop} (h₀ : I [] s)
    (hk : ∀ as s a t, I as s → step s a t → I (as ++ [a]) t) (h : Run step s as t) : I as t := by
  suffices hpre : ∀ pre, I pre s → I (pre ++ as) t from hpre [] h₀
  clear h₀
  induction h with
  | nil =>
    intro pre hpre
    rwa [List.append_nil]
  | cons hs _ ih =>
    intro pre hpre
    have htail := ih _ (hk _ _ _ _ hpre hs)
    rwa [List.append_assoc] at htail

end Run

/-- The states a system reaches from its initial ones. -/
def Reachable (init : σ → Prop) (step : σ → α → σ → Prop) (s : σ) : Prop :=
  ∃ s₀ as, init s₀ ∧ Run step s₀ as s

namespace Reachable

variable {init : σ → Prop} {step step' : σ → α → σ → Prop} {s t : σ} {a : α} {as : List α}

theorem start (h : init s) : Reachable init step s := ⟨s, [], h, .nil⟩

theorem extend (h : Reachable init step s) (k : Run step s as t) : Reachable init step t := by
  obtain ⟨s₀, bs, h₀, hr⟩ := h
  exact ⟨s₀, bs ++ as, h₀, hr.append k⟩

theorem next (h : Reachable init step s) (k : step s a t) : Reachable init step t :=
  h.extend (.single k)

/-- The invariant rule: true at the start and kept by every step. -/
theorem inv {I : σ → Prop} (hi : ∀ s, init s → I s) (hk : ∀ s a t, I s → step s a t → I t)
    (h : Reachable init step s) : I s := by
  obtain ⟨s₀, as, h₀, hr⟩ := h
  exact hr.inv hk (hi s₀ h₀)

/-- The invariant rule with an invariant `J` already established. -/
theorem inv_of {I J : σ → Prop} (hj : ∀ s, Reachable init step s → J s)
    (hi : ∀ s, init s → I s) (hk : ∀ s a t, J s → J t → I s → step s a t → I t)
    (h : Reachable init step s) : I s := by
  suffices hs : Reachable init step s ∧ I s from hs.2
  refine inv (I := fun s => Reachable init step s ∧ I s)
    (fun s h₀ => ⟨start h₀, hi s h₀⟩) (fun s a t hI hst => ?_) h
  have ht := hI.1.next hst
  exact ⟨ht, hk s a t (hj s hI.1) (hj t ht) hI.2 hst⟩

theorem mono (hm : ∀ s a t, step s a t → step' s a t) (h : Reachable init step s) :
    Reachable init step' s := by
  obtain ⟨s₀, as, h₀, hr⟩ := h
  exact ⟨s₀, as, h₀, hr.mono hm⟩

end Reachable

/-- The steps of a system that meet the condition `ok`. -/
def guarded (ok : σ → α → Prop) (step : σ → α → σ → Prop) : σ → α → σ → Prop :=
  fun s a t => ok s a ∧ step s a t

theorem Reachable.of_guarded {ok : σ → α → Prop} {init : σ → Prop} {step : σ → α → σ → Prop}
    {s : σ} (h : Reachable init (guarded ok step) s) : Reachable init step s :=
  h.mono fun _ _ _ hs => hs.2

/-- Where `ok` decides, under the invariant `I` that it keeps, whether a step ends in `P`, the runs
that stay in `P` are those whose steps meet it. -/
theorem run_guarded_iff {ok : σ → α → Prop} {I P : σ → Prop} {step : σ → α → σ → Prop} {s t : σ}
    {as : List α} (hok : ∀ s a t, I s → step s a t → (ok s a ↔ P t))
    (hkeep : ∀ s a t, I s → step s a t → ok s a → I t) (hs : I s) :
    Run (guarded ok step) s as t ↔ Run (fun s a t => step s a t ∧ P t) s as t := by
  constructor
  · intro h
    induction h with
    | nil => exact .nil
    | cons hst _ ih =>
      have ht := (hok _ _ _ hs hst.2).1 hst.1
      exact .cons ⟨hst.2, ht⟩ (ih (hkeep _ _ _ hs hst.2 hst.1))
  · intro h
    induction h with
    | nil => exact .nil
    | cons hst _ ih =>
      have hmet := (hok _ _ _ hs hst.1).2 hst.2
      exact .cons ⟨hmet, hst.1⟩ (ih (hkeep _ _ _ hs hst.1 hmet))

/-! ## Systems given by a function -/

/-- The system of a partial step function: a step that returns `none` is not enabled. -/
def enabled (exec : σ → α → Option σ) : σ → α → σ → Prop := fun s a t => exec s a = some t

def execAll (exec : σ → α → Option σ) : σ → List α → Option σ
  | s, [] => some s
  | s, a :: as => (exec s a).bind fun t => execAll exec t as

theorem run_of_execAll {exec : σ → α → Option σ} {s t : σ} {as : List α}
    (h : execAll exec s as = some t) : Run (enabled exec) s as t := by
  induction as generalizing s with
  | nil => cases h; exact .nil
  | cons a as ih =>
    simp only [execAll, Option.bind_eq_some_iff] at h
    obtain ⟨u, hu, hr⟩ := h
    exact .cons hu (ih hr)

/-- Executes the labels that meet the condition. -/
def execOk (ok : σ → α → Bool) (exec : σ → α → Option σ) (s : σ) (a : α) : Option σ :=
  if ok s a then exec s a else none

theorem run_of_execOk {ok : σ → α → Bool} {exec : σ → α → Option σ} {s t : σ} {as : List α}
    (h : execAll (execOk ok exec) s as = some t) :
    Run (guarded (fun s a => ok s a) (enabled exec)) s as t :=
  (run_of_execAll h).mono fun _ _ _ hs => by
    simpa only [guarded, enabled, execOk, Option.ite_none_right_eq_some] using hs

/-- A run whose labels pass a check meets the condition the check is sound for. -/
theorem run_of_check {ok : σ → α → Prop} {check : σ → α → Bool} {exec : σ → α → Option σ}
    {s t : σ} {as : List α} (hcheck : ∀ s a, check s a → ok s a)
    (h : execAll (execOk check exec) s as = some t) : Run (guarded ok (enabled exec)) s as t :=
  (run_of_execOk h).mono fun _ _ _ hs => ⟨hcheck _ _ hs.1, hs.2⟩

/-- The same for a decidable condition. -/
theorem run_of_execDecide {ok : σ → α → Prop} [∀ s a, Decidable (ok s a)]
    {exec : σ → α → Option σ} {s t : σ} {as : List α}
    (h : execAll (execOk (fun s a => decide (ok s a)) exec) s as = some t) :
    Run (guarded ok (enabled exec)) s as t :=
  run_of_check (fun _ _ => of_decide_eq_true) h

end Podseq.Lib
