import Podseq.Move.InboxHistory

/-! # Widening the inclusion window needs notice

A narrowing applies at once, a widening waits behind its timelock. An elapsed widening is never
written back: it shadows the override until the next change replaces it, and that change can
only lower the window, because a staged widening always lies above the override it shadows.
-/
namespace Podseq.Move
open Podseq.Lib

namespace Inbox

variable {inbox inbox' : Inbox} {now newWindowMs delayMs : Nat}

/-- The window without a staged widening: the override, else the default. -/
def baseWindowMs (inbox : Inbox) : Nat := inbox.window.getD inclusionWindowMs

theorem effectiveWindowMs_cases (inbox : Inbox) (now : Nat) :
    inbox.effectiveWindowMs now = inbox.baseWindowMs ∨
      ∃ p, inbox.pendingWindow = some p ∧ p.effectiveAtMs ≤ now ∧
        inbox.effectiveWindowMs now = p.newWindowMs := by
  unfold effectiveWindowMs baseWindowMs
  split
  · rename_i p hp
    split_ifs with hle
    · exact .inr ⟨p, hp, hle, rfl⟩
    · exact .inl rfl
  · exact .inl rfl

theorem effectiveWindowMs_of_pending {p : PendingWindow} (h : inbox.pendingWindow = some p)
    (hnot : now < p.effectiveAtMs) : inbox.effectiveWindowMs now = inbox.baseWindowMs := by
  rw [effectiveWindowMs, h]
  exact if_neg (Nat.not_le_of_lt hnot)

/-- What a window change does: a narrowing is written at once and drops what was staged, a
widening is staged with its delay. -/
theorem stageWindowChange_cases
    (h : stageWindowChange inbox newWindowMs delayMs now = .ok inbox') :
    (minWindowMs ≤ newWindowMs ∧ newWindowMs ≤ maxWindowMs) ∧
    ((newWindowMs ≤ inbox.effectiveWindowMs now ∧
        inbox' = { inbox with window := some newWindowMs, pendingWindow := none }) ∨
      (inbox.effectiveWindowMs now < newWindowMs ∧ minWidenDelayMs ≤ delayMs ∧
        inbox' = { inbox with pendingWindow := some ⟨newWindowMs, now + delayMs⟩ })) := by
  simp only [stageWindowChange, bind_eq_ok, require_eq_ok, exists_const] at h
  obtain ⟨hbounds, h⟩ := h
  refine ⟨hbounds, ?_⟩
  split at h
  · rename_i hle
    cases h
    exact .inl ⟨hle, rfl⟩
  · rename_i hgt
    simp only [bind_eq_ok, require_eq_ok, exists_const, addU64_eq_ok, pure_eq_ok] at h
    obtain ⟨hdelay, at', ⟨-, rfl⟩, rfl⟩ := h
    exact .inr ⟨Nat.lt_of_not_le hgt, hdelay.1, rfl⟩

/-- A staged widening that the clock has reached. -/
def WideningElapsed (inbox : Inbox) (now : Nat) : Prop :=
  ∃ p, inbox.pendingWindow = some p ∧ p.effectiveAtMs ≤ now

theorem effectiveWindowMs_of_not_elapsed (h : ¬inbox.WideningElapsed now) :
    inbox.effectiveWindowMs now = inbox.baseWindowMs := by
  obtain heq | ⟨p, hp, hle, -⟩ := inbox.effectiveWindowMs_cases now
  · exact heq
  · exact absurd ⟨p, hp, hle⟩ h

theorem effectiveWindowMs_of_elapsed {p : PendingWindow} (h : inbox.pendingWindow = some p)
    (hle : p.effectiveAtMs ≤ now) : inbox.effectiveWindowMs now = p.newWindowMs := by
  rw [effectiveWindowMs, h]
  exact if_pos hle

/-- A widening is staged in the slot of the one before it: until its own timelock is over the
window is what the slot shadowed. -/
theorem effectiveWindowMs_of_staged
    (h : stageWindowChange inbox newWindowMs delayMs now = .ok inbox')
    (hwider : inbox.effectiveWindowMs now < newWindowMs) :
    inbox'.effectiveWindowMs now = inbox.baseWindowMs := by
  obtain ⟨-, ⟨hle, -⟩ | ⟨-, hdelay, rfl⟩⟩ := stageWindowChange_cases h
  · exact absurd hwider (Nat.not_lt_of_le hle)
  · have hpos : 0 < minWidenDelayMs := by decide
    exact effectiveWindowMs_of_pending rfl (Nat.lt_add_of_pos_right (hpos.trans_le hdelay))

theorem effectiveWindowMs_of_cancelled (h : cancelWindowChange inbox = .ok inbox') :
    inbox'.effectiveWindowMs now = inbox.baseWindowMs := by
  obtain ⟨-, rfl⟩ := cancelWindowChange_eq_ok.1 h
  rfl

end Inbox

namespace InboxHistory

variable {s t : InboxHistory} {c : InboxChain.Call}

/-- The window a submission is charged now. -/
def windowMs (s : InboxHistory) : Nat := s.chain.inbox.effectiveWindowMs s.chain.now

/-- A widening to `windowMs` or more was staged at least the minimum delay ago. -/
def Noticed (s : InboxHistory) (windowMs : Nat) : Prop :=
  ∃ g ∈ s.stagings, windowMs ≤ g.windowMs ∧ g.atMs + Inbox.minWidenDelayMs ≤ s.chain.now

/-- The override lies within its bounds, and a staged widening above it, with a staging on
record that gives the notice its timelock asks for. -/
structure WindowInv (s : InboxHistory) : Prop where
  base : Inbox.minWindowMs ≤ s.chain.inbox.baseWindowMs ∧
    s.chain.inbox.baseWindowMs ≤ Inbox.maxWindowMs
  staged : ∀ p, s.chain.inbox.pendingWindow = some p →
    s.chain.inbox.baseWindowMs < p.newWindowMs ∧ p.newWindowMs ≤ Inbox.maxWindowMs ∧
      ∃ g ∈ s.stagings, g.windowMs = p.newWindowMs ∧
        g.atMs + Inbox.minWidenDelayMs ≤ p.effectiveAtMs

/-- An elapsed widening only ever raises the window. -/
theorem WindowInv.base_le (h : WindowInv s) (now : Nat) :
    s.chain.inbox.baseWindowMs ≤ s.chain.inbox.effectiveWindowMs now := by
  obtain heq | ⟨p, hp, -, heq⟩ := s.chain.inbox.effectiveWindowMs_cases now
  · exact heq.ge
  · rw [heq]; exact (h.staged p hp).1.le

theorem WindowInv.bounds (h : WindowInv s) :
    Inbox.minWindowMs ≤ s.windowMs ∧ s.windowMs ≤ Inbox.maxWindowMs := by
  refine ⟨h.base.1.trans (h.base_le _), ?_⟩
  obtain heq | ⟨p, hp, -, heq⟩ := s.chain.inbox.effectiveWindowMs_cases s.chain.now
  · rw [windowMs, heq]; exact h.base.2
  · rw [windowMs, heq]; exact (h.staged p hp).2.1

/-- A call that touches neither the window fields nor the stagings keeps the invariant. -/
theorem WindowInv.same (h : WindowInv s) (hw : t.chain.inbox.window = s.chain.inbox.window)
    (hp : t.chain.inbox.pendingWindow = s.chain.inbox.pendingWindow)
    (hg : t.stagings = s.stagings) : WindowInv t := by
  have hbase : t.chain.inbox.baseWindowMs = s.chain.inbox.baseWindowMs := by
    rw [Inbox.baseWindowMs, hw]; rfl
  refine ⟨hbase ▸ h.base, fun p hpend => ?_⟩
  rw [hbase, hg]
  exact h.staged p (hp ▸ hpend)

theorem windowMs_same (hw : t.chain.inbox.window = s.chain.inbox.window)
    (hp : t.chain.inbox.pendingWindow = s.chain.inbox.pendingWindow)
    (hnow : t.chain.now = s.chain.now) : t.windowMs = s.windowMs := by
  simp only [windowMs, Inbox.effectiveWindowMs, hw, hp, hnow]

/-- When the clock alone moves, the window grows only by a widening that has elapsed. -/
theorem WindowInv.tick (h : WindowInv s) (hinbox : t.chain.inbox = s.chain.inbox)
    (hg : t.stagings = s.stagings) :
    t.windowMs ≤ s.windowMs ∨ t.Noticed t.windowMs := by
  obtain heq | ⟨p, hp, hle, heq⟩ := t.chain.inbox.effectiveWindowMs_cases t.chain.now
  · left
    rw [windowMs, heq, hinbox]
    exact h.base_le _
  · right
    rw [hinbox] at hp
    obtain ⟨-, -, g, hmem, hwin, hat⟩ := h.staged p hp
    refine ⟨g, hg ▸ hmem, ?_, hat.trans hle⟩
    rw [windowMs, heq, hwin]

/-- What one step does to the window: it keeps or lowers it, or the widening had its notice. -/
theorem WindowInv.step (h : WindowInv s) (hst : enabled step s c t) :
    WindowInv t ∧ (t.windowMs ≤ s.windowMs ∨ t.Noticed t.windowMs) := by
  obtain ⟨hexec, -, hg⟩ := step_cases hst
  cases c with
  | tick now =>
    simp only [InboxChain.exec, Option.ite_none_right_eq_some, Option.some.injEq] at hexec
    obtain ⟨-, hchain⟩ := hexec
    have hinbox : t.chain.inbox = s.chain.inbox := by rw [← hchain]
    exact ⟨h.same (by rw [hinbox]) (by rw [hinbox]) hg, h.tick hinbox hg⟩
  | submit txBytes =>
    simp only [InboxChain.exec, Option.map_eq_some_iff, toOption_eq_some] at hexec
    obtain ⟨inbox', hs, hchain⟩ := hexec
    obtain ⟨-, -, -, -, rfl⟩ := Inbox.submit_eq_ok.1 hs
    have hw : t.chain.inbox.window = s.chain.inbox.window := by rw [← hchain]
    have hp : t.chain.inbox.pendingWindow = s.chain.inbox.pendingWindow := by rw [← hchain]
    exact ⟨h.same hw hp hg, .inl (windowMs_same hw hp (by rw [← hchain])).le⟩
  | stageWindowChange newWindowMs delayMs =>
    simp only [InboxChain.exec, Option.map_eq_some_iff, toOption_eq_some] at hexec
    obtain ⟨inbox', hs, hchain⟩ := hexec
    obtain ⟨hbounds, ⟨hle, rfl⟩ | ⟨hgt, hdelay, rfl⟩⟩ := Inbox.stageWindowChange_cases hs
    · refine ⟨⟨?_, fun p hp => ?_⟩, .inl ?_⟩
      · rw [← hchain]; exact hbounds
      · rw [← hchain] at hp; cases hp
      · rw [windowMs, ← hchain]; exact hle
    · -- the staged widening has not elapsed, and replaces one that perhaps had
      simp only [recordStaging, if_neg (Nat.not_le_of_lt hgt)] at hg
      have hbase : t.chain.inbox.baseWindowMs = s.chain.inbox.baseWindowMs := by
        rw [← hchain]; rfl
      have hpend : t.chain.inbox.pendingWindow = some ⟨newWindowMs, s.chain.now + delayMs⟩ := by
        rw [← hchain]
      refine ⟨⟨hbase ▸ h.base, fun p hp => ?_⟩, .inl ?_⟩
      · rw [hpend, Option.some.injEq] at hp
        subst hp
        refine ⟨hbase ▸ (h.base_le _).trans_lt hgt, hbounds.2, ⟨s.chain.now, newWindowMs⟩, ?_, rfl,
          Nat.add_le_add_left hdelay _⟩
        rw [hg]; exact List.mem_cons_self
      · have hlater : t.chain.now < s.chain.now + delayMs := by
          rw [← hchain]
          have hpos : 0 < Inbox.minWidenDelayMs := by decide
          show s.chain.now < s.chain.now + delayMs
          omega
        rw [windowMs, Inbox.effectiveWindowMs_of_pending hpend hlater, hbase]
        exact h.base_le _
  -- without the staged widening the window falls back to the base
  | cancelWindowChange =>
    simp only [InboxChain.exec, Option.map_eq_some_iff, toOption_eq_some] at hexec
    obtain ⟨inbox', hs, hchain⟩ := hexec
    obtain ⟨-, rfl⟩ := Inbox.cancelWindowChange_eq_ok.1 hs
    refine ⟨⟨?_, fun p hp => ?_⟩, .inl ?_⟩
    · rw [← hchain]; exact h.base
    · rw [← hchain] at hp; cases hp
    · rw [windowMs, ← hchain]; exact h.base_le _
  | enforceSettle blockTs cursor =>
    simp only [InboxChain.exec, Option.map_eq_some_iff, toOption_eq_some] at hexec
    obtain ⟨inbox', hs, hchain⟩ := hexec
    obtain ⟨-, -, -, -, -, rfl⟩ := Inbox.enforceSettle_eq_ok.1 hs
    have hw : t.chain.inbox.window = s.chain.inbox.window := by rw [← hchain]
    have hp : t.chain.inbox.pendingWindow = s.chain.inbox.pendingWindow := by rw [← hchain]
    exact ⟨h.same hw hp hg, .inl (windowMs_same hw hp (by rw [← hchain])).le⟩

theorem reachable_windowInv (h : Reachable Start (enabled step) s) : WindowInv s := by
  refine h.inv (fun s hs => ?_) (fun s c t hi hst => (hi.step hst).1)
  obtain ⟨⟨id, hinbox⟩, -, -⟩ := hs
  refine ⟨?_, fun p hp => ?_⟩
  · rw [hinbox]
    exact (by decide : 60000 ≤ 600000 ∧ 600000 ≤ 3600000)
  · rw [hinbox] at hp; cases hp

/-- Stagings stay on record. -/
theorem recordStaging_subset (hst : enabled step s c t) {g : Staging} (h : g ∈ s.stagings) :
    g ∈ t.stagings := by
  rw [(step_cases hst).2.2]
  cases c with
  | stageWindowChange newWindowMs delayMs =>
    simp only [recordStaging]
    split_ifs
    · exact h
    · exact List.mem_cons_of_mem _ h
  | _ => exact h

/-- Notice once given stays given. -/
theorem Noticed.step {windowMs : Nat} (h : s.Noticed windowMs) (hst : enabled step s c t) :
    t.Noticed windowMs := by
  obtain ⟨g, hmem, hwin, hat⟩ := h
  have hnow := (InboxChain.exec_advances (step_cases hst).1).now
  exact ⟨g, recordStaging_subset hst hmem, hwin, hat.trans hnow⟩

theorem run_noticed {as : List InboxChain.Call} {s t : InboxHistory}
    (hrun : Run (enabled step) s as t) (h : WindowInv s) (bound : Nat)
    (hb : s.windowMs ≤ bound ∨ s.Noticed s.windowMs) :
    t.windowMs ≤ bound ∨ t.Noticed t.windowMs := by
  induction hrun with
  | nil => exact hb
  | cons hst _ ih =>
    obtain ⟨ht, hstep⟩ := h.step hst
    refine ih ht ?_
    obtain hle | hnoticed := hstep
    · obtain hb | ⟨g, hmem, hwin, hat⟩ := hb
      · exact .inl (hle.trans hb)
      · exact .inr (Noticed.step ⟨g, hmem, hle.trans hwin, hat⟩ hst)
    · exact .inr hnoticed

/-- **Widening the inclusion window needs notice.** In every run, if the effective window at its
end exceeds the one at any state before, a widening to at least the window at the end was staged
at least the minimum delay before the end; and the window always lies within its bounds. -/
theorem widening_noticed (hs : Reachable Start (enabled step) s) :
    (Inbox.minWindowMs ≤ s.windowMs ∧ s.windowMs ≤ Inbox.maxWindowMs) ∧
    ∀ as t, Run (enabled step) s as t → s.windowMs < t.windowMs →
      ∃ g ∈ t.stagings, t.windowMs ≤ g.windowMs ∧
        g.atMs + Inbox.minWidenDelayMs ≤ t.chain.now := by
  have hinv := reachable_windowInv hs
  refine ⟨hinv.bounds, fun as t hrun hlt => ?_⟩
  obtain hle | hnoticed := run_noticed hrun hinv s.windowMs (.inl (Nat.le_refl _))
  · exact absurd hlt (Nat.not_lt_of_le hle)
  · exact hnoticed

/-- A widening to a quarter of an hour, staged with ten minutes notice and elapsed. -/
theorem widening_noticed_elapsed :
    ∃ s t : InboxHistory, Reachable Start (enabled step) s ∧ s.windowMs < t.windowMs ∧
      ∃ g ∈ t.stagings, t.windowMs ≤ g.windowMs ∧
        g.atMs + Inbox.minWidenDelayMs ≤ t.chain.now := by
  have hreach : Reachable Start (enabled step) ⟨⟨5, Inbox.initializeInbox 0⟩, [], []⟩ :=
    .start ⟨⟨0, rfl⟩, rfl, rfl⟩
  have hrun : Run (enabled step) ⟨⟨5, Inbox.initializeInbox 0⟩, [], []⟩
      [.stageWindowChange 900000 600000, .tick 600005] _ := run_of_execAll rfl
  have hlt : 600000 < 900000 := by decide
  have hnoticed := (widening_noticed hreach).2 _ _ hrun hlt
  refine ⟨_, _, hreach, ?_, hnoticed⟩
  exact hlt

/-! ## Staging over an elapsed widening -/

/-- An elapsed widening always lies above what it shadows. -/
theorem WindowInv.base_eq_iff (h : WindowInv s) (now : Nat) :
    s.chain.inbox.baseWindowMs = s.chain.inbox.effectiveWindowMs now ↔
      ¬s.chain.inbox.WideningElapsed now := by
  constructor
  · intro heq ⟨p, hp, hle⟩
    rw [Inbox.effectiveWindowMs_of_elapsed hp hle] at heq
    exact absurd heq (h.staged p hp).1.ne
  · intro hnot
    exact (Inbox.effectiveWindowMs_of_not_elapsed hnot).symm

/-- **When staging keeps the current window.** In every reachable inbox and at every clock a
widening that is staged leaves the current window as it is exactly when no earlier widening has
elapsed by then; cancelling a widening that has not elapsed always does. -/
theorem window_kept_iff (hs : Reachable Start (enabled step) s) (now : Nat) :
    (∀ newWindowMs delayMs inbox',
      Inbox.stageWindowChange s.chain.inbox newWindowMs delayMs now = .ok inbox' →
      s.chain.inbox.effectiveWindowMs now < newWindowMs →
      (inbox'.effectiveWindowMs now = s.chain.inbox.effectiveWindowMs now ↔
        ¬s.chain.inbox.WideningElapsed now)) ∧
    ∀ inbox', Inbox.cancelWindowChange s.chain.inbox = .ok inbox' →
      ¬s.chain.inbox.WideningElapsed now →
      inbox'.effectiveWindowMs now = s.chain.inbox.effectiveWindowMs now := by
  have hinv := reachable_windowInv hs
  constructor
  · intro newWindowMs delayMs inbox' hstage hwider
    rw [Inbox.effectiveWindowMs_of_staged hstage hwider]
    exact hinv.base_eq_iff now
  · intro inbox' hcancel hnot
    rw [Inbox.effectiveWindowMs_of_cancelled hcancel]
    exact (hinv.base_eq_iff now).2 hnot

/-- A widening to a quarter of an hour is staged in a new inbox at 5 ms and elapses; one to
twenty minutes is staged as it does. -/
theorem window_kept_iff_elapsed :
    ∃ (s : InboxHistory) (inbox' : Inbox),
      Inbox.stageWindowChange s.chain.inbox 1200000 600000 600005 = .ok inbox' ∧
      (inbox'.effectiveWindowMs 600005 = s.chain.inbox.effectiveWindowMs 600005 ↔
        ¬s.chain.inbox.WideningElapsed 600005) := by
  have hreach : Reachable Start (enabled step) _ :=
    ⟨⟨⟨5, Inbox.initializeInbox 0⟩, [], []⟩,
      [.stageWindowChange 900000 600000, .tick 600005], ⟨⟨0, rfl⟩, rfl, rfl⟩, run_of_execAll rfl⟩
  have hwider : 900000 < 1200000 := by decide
  exact ⟨_, _, rfl, (window_kept_iff hreach 600005).1 1200000 600000 _ rfl hwider⟩

/-- After such a staging the window is back at the default of ten minutes. -/
theorem restaged_window_drops :
    ¬∀ (s : InboxHistory) (now newWindowMs delayMs : Nat) (inbox' : Inbox),
      Reachable Start (enabled step) s →
      Inbox.stageWindowChange s.chain.inbox newWindowMs delayMs now = .ok inbox' →
      s.chain.inbox.effectiveWindowMs now < newWindowMs →
      inbox'.effectiveWindowMs now = s.chain.inbox.effectiveWindowMs now := by
  intro hclaim
  have hreach : Reachable Start (enabled step) _ :=
    ⟨⟨⟨5, Inbox.initializeInbox 0⟩, [], []⟩,
      [.stageWindowChange 900000 600000, .tick 600005], ⟨⟨0, rfl⟩, rfl, rfl⟩, run_of_execAll rfl⟩
  have hwider : 900000 < 1200000 := by decide
  have hkept : 600000 = 900000 := hclaim _ 600005 1200000 600000 _ hreach rfl hwider
  exact absurd hkept (by decide)

end InboxHistory

end Podseq.Move
