import Mathlib

/-! # Loops that end at their first failure

A loop whose iterations may fail keeps what the iterations before the failure did. Where it can
be told from an item alone whether its iteration fails, given an invariant of the state and the
items done, the loop runs up to the first item that does.
-/
namespace Podseq.Lib

variable {σ α ε : Type*}

/-- Runs the iterations in order; the first that fails ends the loop, in the state it leaves. -/
def stoppingLoop (step : σ → α → σ × Except ε Unit) : σ → List α → σ × Except ε Unit
  | s, [] => (s, .ok ())
  | s, a :: as =>
    match step s a with
    | (t, .ok ()) => stoppingLoop step t as
    | (t, .error e) => (t, .error e)

variable {step : σ → α → σ × Except ε Unit} {s t : σ} {a : α} {as done rest : List α} {e : ε}

theorem stoppingLoop_of_ok (h : step s a = (t, .ok ())) :
    stoppingLoop step s (a :: as) = stoppingLoop step t as := by
  rw [stoppingLoop, h]

theorem stoppingLoop_of_error (h : step s a = (t, .error e)) :
    stoppingLoop step s (a :: as) = (t, .error e) := by
  rw [stoppingLoop, h]

/-- The loop over `as` after the items `done`: it does all of them or ends at the first that
stops it. `I` holds of the items done and the state, `J` of the two where an item stopped it. -/
theorem stoppingLoop_rule_after {I : List α → σ → Prop} {J : List α → α → σ → Prop}
    {stops : α → Bool} (hs : I done s)
    (hgo : ∀ before a u, before ++ [a] <+: done ++ as → I before u → stops a = false →
      ∃ t, step u a = (t, .ok ()) ∧ I (before ++ [a]) t)
    (hstop : ∀ before a u, before ++ [a] <+: done ++ as → I before u → stops a = true →
      ∃ t e, step u a = (t, .error e) ∧ J before a t) :
    ((∀ a ∈ as, stops a = false) ∧ ∃ t, stoppingLoop step s as = (t, .ok ()) ∧ I (done ++ as) t) ∨
      ∃ before a rest t e, as = before ++ a :: rest ∧ (∀ b ∈ before, stops b = false) ∧
        stops a = true ∧ stoppingLoop step s as = (t, .error e) ∧
        J (done ++ before) a t := by
  induction as generalizing done s with
  | nil =>
    refine .inl ⟨List.forall_mem_nil _, s, rfl, ?_⟩
    rwa [List.append_nil]
  | cons a as ih =>
    have hpre : done ++ [a] <+: done ++ a :: as :=
      (List.prefix_append_right_inj done).2 (List.cons_prefix_cons.2 ⟨rfl, List.nil_prefix⟩)
    cases hsa : stops a with
    | true =>
      obtain ⟨t, e, hstep, hJ⟩ := hstop done a s hpre hs hsa
      refine .inr ⟨[], a, as, t, e, rfl, List.forall_mem_nil _, hsa, ?_, ?_⟩
      · exact stoppingLoop_of_error hstep
      · rwa [List.append_nil]
    | false =>
      obtain ⟨t, hstep, hI⟩ := hgo done a s hpre hs hsa
      have hassoc : done ++ [a] ++ as = done ++ a :: as := by simp
      rw [stoppingLoop_of_ok hstep]
      rw [← hassoc] at hgo hstop
      obtain ⟨hall, u, hloop, hu⟩ | ⟨before, b, rest, u, e, has, hall, hb, hloop, hu⟩ :=
        ih hI hgo hstop
      · refine .inl ⟨?_, u, hloop, hassoc ▸ hu⟩
        intro c hc
        rcases List.mem_cons.1 hc with rfl | hc
        · exact hsa
        · exact hall c hc
      · refine .inr ⟨a :: before, b, rest, u, e, by rw [has, List.cons_append], ?_, hb, hloop, ?_⟩
        · intro c hc
          rcases List.mem_cons.1 hc with rfl | hc
          · exact hsa
          · exact hall c hc
        · have hmove : done ++ [a] ++ before = done ++ a :: before := by simp
          exact hmove ▸ hu

/-- The loop over all the items. -/
theorem stoppingLoop_rule {I : List α → σ → Prop} {J : List α → α → σ → Prop}
    {stops : α → Bool} (hs : I [] s)
    (hgo : ∀ before a u, before ++ [a] <+: as → I before u → stops a = false →
      ∃ t, step u a = (t, .ok ()) ∧ I (before ++ [a]) t)
    (hstop : ∀ before a u, before ++ [a] <+: as → I before u → stops a = true →
      ∃ t e, step u a = (t, .error e) ∧ J before a t) :
    ((∀ a ∈ as, stops a = false) ∧ ∃ t, stoppingLoop step s as = (t, .ok ()) ∧ I as t) ∨
      ∃ before a rest t e, as = before ++ a :: rest ∧ (∀ b ∈ before, stops b = false) ∧
        stops a = true ∧ stoppingLoop step s as = (t, .error e) ∧ J before a t :=
  stoppingLoop_rule_after hs hgo hstop

/-! ## The first item that stops the loop -/

variable {stops : α → Bool}

theorem takeWhile_of_first (hdone : ∀ b ∈ done, stops b = false) (ha : stops a = true) :
    (done ++ a :: rest).takeWhile (fun b => !stops b) = done := by
  rw [List.takeWhile_append_of_pos (fun b hb => by simp [hdone b hb]),
    List.takeWhile_cons_of_neg (by simp [ha]), List.append_nil]

theorem dropWhile_of_first (hdone : ∀ b ∈ done, stops b = false) (ha : stops a = true) :
    (done ++ a :: rest).dropWhile (fun b => !stops b) = a :: rest := by
  rw [List.dropWhile_append_of_pos (fun b hb => by simp [hdone b hb]),
    List.dropWhile_cons_of_neg (by simp [ha])]

end Podseq.Lib
