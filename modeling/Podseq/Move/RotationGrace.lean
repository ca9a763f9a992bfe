import Podseq.Move.RotationHistory

/-! # The grace of a replaced authority

One previous authority is stored, and every claim overwrites it. A claim drops the pending
request, so the next claim answers a request made after it, and no timelock is shorter than the
grace: while the grace of a claim lasts, nothing but `retirePrevious` takes its authority away.
-/
namespace Podseq.Move
open Podseq.Lib Rotation

namespace RotationChain

variable {κ : Type} {c c' : RotationChain κ} {sender : Address} {a : RotationCall κ}
  {id : ObjectId} {g : Guarded κ}

/-- The clock is monotone. -/
theorem call_now (h : c.call sender a = .ok c') : c.now ≤ c'.now := by
  cases a <;> simp only [call, bind_eq_ok, require_eq_ok, pure_eq_ok] at h <;>
    grind [put, putMinted]

end RotationChain

namespace RotationHistory

variable {κ : Type} {s t u : RotationHistory κ} {a : Address × RotationCall κ} {id : ObjectId}
  {old : Address} {claimedAt : Nat}

/-- The authority `old` was replaced at `claimedAt`: while its grace lasts the record keeps it,
and what is pending cannot be claimed. -/
structure Graced (s : RotationHistory κ) (id : ObjectId) (old : Address) (claimedAt : Nat) :
    Prop where
  claimed : claimedAt ≤ s.chain.now
  kept : s.chain.now < claimedAt + prevGraceMs → ∃ g st, s.chain.objects id = some g ∧
    g.record = some st ∧ st.prev = some ⟨old, claimedAt + prevGraceMs⟩ ∧
    ∀ p, st.pending = some p → claimedAt + minDelayMs ≤ p.eligibleAtMs

/-- A claim starts the grace of the authority it replaces. -/
theorem graced_of_claim {g : Guarded κ} {st : RotationState} {claimant : Address}
    (hg : s.chain.objects id = some g) (hst : g.record = some st)
    (hclaim : enabled step s (claimant, .claimRotation id) t) :
    Graced t id st.authority s.chain.now := by
  obtain ⟨hcall, -, -⟩ := step_cases hclaim
  obtain ⟨g₀, g', hg₀, hm, hobjects⟩ := RotationChain.call_target hcall rfl
  rw [hg] at hg₀; cases hg₀
  cases hm with
  | claim hst₀ _ _ _ _ heq =>
    rw [hst] at hst₀; cases hst₀
    refine ⟨RotationChain.call_now hcall, fun _ => ?_⟩
    refine ⟨g', ⟨claimant, some ⟨st.authority, s.chain.now + prevGraceMs⟩, none⟩, ?_, ?_, rfl, ?_⟩
    · rw [hobjects, Function.update_self]
    · rw [heq]
    · intro p hpending
      cases hpending

/-- Until the grace is over only `retirePrevious` ends it: a claim would need a request that is
as old as the grace. -/
theorem Graced.step (hp : s.chain.Placed) (h : Graced s id old claimedAt)
    (hretire : a.2 ≠ .retirePrevious id) (hst : enabled step s a t) :
    Graced t id old claimedAt := by
  obtain ⟨sender, call⟩ := a
  obtain ⟨hcall, -, -⟩ := step_cases hst
  have hnow := RotationChain.call_now hcall
  refine ⟨h.claimed.trans hnow, fun hlt => ?_⟩
  obtain ⟨g, st, hg, hrec, hprev, hpend⟩ := h.kept (hnow.trans_lt hlt)
  obtain ⟨g', hg', hsame | hm⟩ := RotationChain.object_next hcall hp hg
  · exact ⟨g', st, hg', hsame ▸ hrec, hprev, hpend⟩
  · cases hm with
    | entomb hnone _ _ => rw [hrec] at hnone; cases hnone
    | mint _ _ _ heq =>
      subst heq
      exact ⟨_, st, hg', hrec, hprev, hpend⟩
    | request _ _ hdelay hst₀ heq =>
      rw [hrec] at hst₀; cases hst₀
      subst heq
      refine ⟨_, _, hg', rfl, hprev, fun p hpending => ?_⟩
      cases hpending
      exact Nat.add_le_add h.claimed hdelay
    | cancel hst₀ _ heq =>
      rw [hrec] at hst₀; cases hst₀
      subst heq
      exact ⟨_, _, hg', rfl, hprev, nofun⟩
    | claim hst₀ hp₀ _ helig _ _ =>
      rw [hrec] at hst₀; cases hst₀
      have hdelay := hpend _ hp₀
      have hequal : minDelayMs = prevGraceMs := rfl
      omega
    | retire => exact absurd rfl hretire

theorem Graced.run {as : List (Address × RotationCall κ)}
    (hs : Reachable Legacy (enabled RotationHistory.step) s) (h : Graced s id old claimedAt)
    (hrun : Run (enabled RotationHistory.step) s as t)
    (hretire : ∀ sender, (sender, .retirePrevious id) ∉ as) : Graced t id old claimedAt := by
  induction hrun with
  | nil => exact h
  | @cons s a u as t hst _ ih =>
    have hfirst : a.2 ≠ .retirePrevious id := by
      intro heq
      exact hretire a.1 (heq ▸ List.mem_cons_self)
    exact ih (hs.next hst) (h.step (reachable_placed hs) hfirst hst)
      fun sender hmem => hretire sender (List.mem_cons_of_mem _ hmem)

/-- **The grace is never cut short.** An address that a claim replaces passes `assertCanAct` at
every clock before the end of its grace, whatever is requested, cancelled and claimed after the
claim, unless the previous authority is retired after it. -/
theorem grace_kept {as : List (Address × RotationCall κ)} {g : Guarded κ} {st : RotationState}
    {claimant : Address} {now : Nat} (hs : Reachable Legacy (enabled step) s)
    (hg : s.chain.objects id = some g) (hst : g.record = some st)
    (hclaim : enabled step s (claimant, .claimRotation id) t)
    (hrun : Run (enabled step) t as u) (hretire : ∀ sender, (sender, .retirePrevious id) ∉ as)
    (hnow : u.chain.now ≤ now) (hgrace : now < s.chain.now + prevGraceMs) :
    ∃ g', u.chain.objects id = some g' ∧ assertCanAct g' now st.authority = .ok () := by
  have hgraced := (graced_of_claim hg hst hclaim).run (hs.next hclaim) hrun hretire
  obtain ⟨g', st', hg', hrec, hprev, -⟩ := hgraced.kept (hnow.trans_lt hgrace)
  refine ⟨g', hg', assertCanAct_eq_ok.2 ⟨st', hrec, .inr ?_⟩⟩
  simp [prevInGrace, hprev, hgrace.le]

/-- The operator (1) rotates to a staged key (2), which claims and at once asks for the next
rotation; a millisecond before the end of its grace the operator can still act. -/
theorem grace_kept_rotating :
    ∃ (u : RotationHistory Unit) (g : Guarded Unit), u.chain.objects 0 = some g ∧
      assertCanAct g 1299999 1 = .ok () := by
  have hstart : Legacy (κ := Unit) ⟨⟨5, 0, Table.empty, Table.empty⟩, fun _ => .none, []⟩ :=
    ⟨nofun, nofun, rfl, rfl⟩
  have hreach : Reachable Legacy (enabled step) _ :=
    ⟨_, [(1, .create), (1, .entombOps 0 ()), (1, .requestRotationOps 0 2 600000 1),
      (3, .tick 700000)], hstart, run_of_execAll rfl⟩
  exact ⟨_, @grace_kept Unit _ _ _ 0 [(1, .requestRotationOps 0 3 600000 1), (3, .tick 1299999)]
    _ _ 2 1299999 hreach rfl rfl rfl (run_of_execAll rfl) (by simp) (Nat.le_refl _) (by decide)⟩

end RotationHistory

end Podseq.Move
