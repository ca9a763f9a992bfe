import Podseq.Move.InboxDeadlines

/-! # The history of an inbox

Beside the inbox stands what was done to it: every entry as it was submitted, and every widening
of the window that was staged. What is pending is the part of the first log that the cursor has
not passed.
-/
namespace Podseq.Move
open Podseq.Lib

namespace InboxChain

variable {s t u : InboxChain} {c : Call}

/-- A transaction of one call: an aborted call leaves the inbox as it was. -/
def transact (s : InboxChain) (c : Call) : InboxChain := (exec s c).getD s

/-- What never goes back: the clock, the inclusion cursor and the timestamp of the last settled
block. -/
structure Advances (s t : InboxChain) : Prop where
  now : s.now ≤ t.now
  includedCount : s.inbox.includedCount ≤ t.inbox.includedCount
  lastSettledTs : s.inbox.lastSettledTs ≤ t.inbox.lastSettledTs

theorem Advances.refl (s : InboxChain) : Advances s s :=
  ⟨Nat.le_refl _, Nat.le_refl _, Nat.le_refl _⟩

theorem Advances.trans (h : Advances s t) (k : Advances t u) : Advances s u :=
  ⟨h.now.trans k.now, h.includedCount.trans k.includedCount,
    h.lastSettledTs.trans k.lastSettledTs⟩

theorem Advances.of_sameQueue {inbox' : Inbox} (h : Inbox.SameQueue s.inbox inbox') :
    Advances s { s with inbox := inbox' } :=
  ⟨Nat.le_refl _, h.includedCount.ge, h.lastSettledTs.ge⟩

theorem exec_advances (h : exec s c = some t) : Advances s t := by
  cases c with
  | tick now =>
    simp only [exec, Option.ite_none_right_eq_some, Option.some.injEq] at h
    obtain ⟨hle, rfl⟩ := h
    exact ⟨hle, Nat.le_refl _, Nat.le_refl _⟩
  | submit txBytes =>
    simp only [exec, Option.map_eq_some_iff, toOption_eq_some] at h
    obtain ⟨inbox', hs, rfl⟩ := h
    obtain ⟨-, -, -, -, rfl⟩ := Inbox.submit_eq_ok.1 hs
    exact ⟨Nat.le_refl _, Nat.le_refl _, Nat.le_refl _⟩
  | stageWindowChange newWindowMs delayMs =>
    simp only [exec, Option.map_eq_some_iff, toOption_eq_some] at h
    obtain ⟨inbox', hs, rfl⟩ := h
    exact .of_sameQueue (Inbox.stageWindowChange_sameQueue hs)
  | cancelWindowChange =>
    simp only [exec, Option.map_eq_some_iff, toOption_eq_some] at h
    obtain ⟨inbox', hs, rfl⟩ := h
    exact .of_sameQueue (Inbox.cancelWindowChange_sameQueue hs)
  | enforceSettle blockTs cursor =>
    simp only [exec, Option.map_eq_some_iff, toOption_eq_some] at h
    obtain ⟨inbox', hs, rfl⟩ := h
    obtain ⟨hcursor, -, hts, -, -, rfl⟩ := Inbox.enforceSettle_eq_ok.1 hs
    exact ⟨Nat.le_refl _, hcursor, hts⟩

end InboxChain

/-- A widening of the window as it was staged. -/
structure Staging where
  atMs : Nat
  windowMs : Nat
deriving DecidableEq, Repr

/-- An inbox with the entries submitted to it, in order, and the widenings staged on it. -/
structure InboxHistory where
  chain : InboxChain
  submitted : List PendingTx
  stagings : List Staging

namespace InboxHistory

/-- The entry a submission adds. -/
def recordSubmit (s : InboxHistory) : InboxChain.Call → List PendingTx
  | .submit txBytes =>
    s.submitted ++ [⟨s.chain.now + s.chain.inbox.effectiveWindowMs s.chain.now, txBytes⟩]
  | _ => s.submitted

/-- The widening a window change stages; a narrowing stages nothing. -/
def recordStaging (s : InboxHistory) : InboxChain.Call → List Staging
  | .stageWindowChange newWindowMs _ =>
    if newWindowMs ≤ s.chain.inbox.effectiveWindowMs s.chain.now then s.stagings
    else ⟨s.chain.now, newWindowMs⟩ :: s.stagings
  | _ => s.stagings

def step (s : InboxHistory) (c : InboxChain.Call) : Option InboxHistory :=
  (s.chain.exec c).map fun chain =>
    { chain, submitted := s.recordSubmit c, stagings := s.recordStaging c }

def Start (s : InboxHistory) : Prop :=
  InboxChain.Start s.chain ∧ s.submitted = [] ∧ s.stagings = []

variable {s t : InboxHistory} {c : InboxChain.Call}

theorem step_cases (h : enabled step s c t) :
    s.chain.exec c = some t.chain ∧ t.submitted = s.recordSubmit c ∧
      t.stagings = s.recordStaging c := by
  simp only [enabled, step, Option.map_eq_some_iff] at h
  obtain ⟨chain, hexec, rfl⟩ := h
  exact ⟨hexec, rfl, rfl⟩

theorem run_advances {as : List InboxChain.Call} (h : Run (enabled step) s as t) :
    InboxChain.Advances s.chain t.chain :=
  h.rel (R := fun s t => InboxChain.Advances s.chain t.chain) (fun s => .refl s.chain)
    (fun _ _ _ => .trans) fun _ _ _ hst => InboxChain.exec_advances (step_cases hst).1

/-- Only a settle moves the cursor and the settled timestamp. -/
theorem step_keeps (hc : ∀ blockTs cursor, c ≠ .enforceSettle blockTs cursor)
    (h : enabled step s c t) : t.chain.inbox.includedCount = s.chain.inbox.includedCount ∧
      t.chain.inbox.lastSettledTs = s.chain.inbox.lastSettledTs ∧
      s.submitted <+: t.submitted := by
  obtain ⟨hexec, hsub, -⟩ := step_cases h
  cases c with
  | tick now =>
    simp only [InboxChain.exec, Option.ite_none_right_eq_some, Option.some.injEq] at hexec
    obtain ⟨-, hchain⟩ := hexec
    rw [← hchain, hsub]
    exact ⟨rfl, rfl, List.prefix_refl _⟩
  | submit txBytes =>
    simp only [InboxChain.exec, Option.map_eq_some_iff, toOption_eq_some] at hexec
    obtain ⟨inbox', hs, hchain⟩ := hexec
    obtain ⟨-, -, -, -, rfl⟩ := Inbox.submit_eq_ok.1 hs
    rw [← hchain, hsub]
    exact ⟨rfl, rfl, List.prefix_append _ _⟩
  | stageWindowChange newWindowMs delayMs =>
    simp only [InboxChain.exec, Option.map_eq_some_iff, toOption_eq_some] at hexec
    obtain ⟨inbox', hs, hchain⟩ := hexec
    have hsame := Inbox.stageWindowChange_sameQueue hs
    rw [← hchain, hsub]
    exact ⟨hsame.includedCount, hsame.lastSettledTs, List.prefix_refl _⟩
  | cancelWindowChange =>
    simp only [InboxChain.exec, Option.map_eq_some_iff, toOption_eq_some] at hexec
    obtain ⟨inbox', hs, hchain⟩ := hexec
    have hsame := Inbox.cancelWindowChange_sameQueue hs
    rw [← hchain, hsub]
    exact ⟨hsame.includedCount, hsame.lastSettledTs, List.prefix_refl _⟩
  | enforceSettle blockTs cursor => exact absurd rfl (hc blockTs cursor)

/-! ## What is pending is what was submitted and not passed -/

def queue (s : InboxHistory) : DeadlineQueue PendingTx :=
  .ofLog s.submitted s.chain.inbox.includedCount

/-- The inbox holds the submissions that its cursor has not passed. -/
structure Logged (s : InboxHistory) : Prop where
  cursor : s.chain.inbox.includedCount ≤ s.submitted.length
  refines : s.chain.inbox.Refines s.queue

theorem Logged.same (h : Logged s) {inbox' : Inbox} (hq : Inbox.SameQueue s.chain.inbox inbox')
    (hchain : t.chain.inbox = inbox') (hsub : t.submitted = s.submitted) : Logged t := by
  subst hchain
  refine ⟨by rw [hsub, hq.includedCount]; exact h.cursor, ?_⟩
  rw [queue, hsub, hq.includedCount]
  exact hq.refines h.refines

theorem Logged.step (h : Logged s) (hst : enabled step s c t) : Logged t := by
  obtain ⟨hexec, hsub, -⟩ := step_cases hst
  cases c with
  | tick now =>
    simp only [InboxChain.exec, Option.ite_none_right_eq_some, Option.some.injEq] at hexec
    obtain ⟨-, hchain⟩ := hexec
    have hsame : Inbox.SameQueue s.chain.inbox s.chain.inbox := ⟨rfl, rfl, rfl, rfl, rfl⟩
    exact h.same hsame (by rw [← hchain]) hsub
  | submit txBytes =>
    simp only [InboxChain.exec, Option.map_eq_some_iff, toOption_eq_some] at hexec
    obtain ⟨inbox', hs, hchain⟩ := hexec
    have hr := Inbox.submit_refines hs h.refines
    rw [queue, DeadlineQueue.ofLog_push h.cursor] at hr
    obtain ⟨-, -, -, -, rfl⟩ := Inbox.submit_eq_ok.1 hs
    refine ⟨?_, ?_⟩
    · rw [← hchain, hsub]
      simp only [recordSubmit, List.length_append]
      exact Nat.le_add_right_of_le h.cursor
    · rw [queue, ← hchain, hsub]
      exact hr
  | stageWindowChange newWindowMs delayMs =>
    simp only [InboxChain.exec, Option.map_eq_some_iff, toOption_eq_some] at hexec
    obtain ⟨inbox', hs, hchain⟩ := hexec
    exact h.same (Inbox.stageWindowChange_sameQueue hs) (by rw [← hchain]) hsub
  | cancelWindowChange =>
    simp only [InboxChain.exec, Option.map_eq_some_iff, toOption_eq_some] at hexec
    obtain ⟨inbox', hs, hchain⟩ := hexec
    exact h.same (Inbox.cancelWindowChange_sameQueue hs) (by rw [← hchain]) hsub
  | enforceSettle blockTs cursor =>
    simp only [InboxChain.exec, Option.map_eq_some_iff, toOption_eq_some] at hexec
    obtain ⟨inbox', hs, hchain⟩ := hexec
    have hr := Inbox.enforceSettle_refines hs h.refines
    obtain ⟨hle, hnext, -, -, -, rfl⟩ := Inbox.enforceSettle_eq_ok.1 hs
    rw [queue, DeadlineQueue.ofLog_retire, Nat.add_sub_cancel' hle] at hr
    rw [h.refines.nextNonce, queue, DeadlineQueue.ofLog_next h.cursor] at hnext
    refine ⟨?_, ?_⟩
    · rw [← hchain, hsub]; exact hnext
    · rw [queue, ← hchain, hsub]; exact hr

theorem reachable_logged (h : Reachable Start (enabled step) s) : Logged s := by
  refine h.inv (fun s hs => ?_) (fun s c t hl hst => hl.step hst)
  obtain ⟨⟨id, hinbox⟩, hsub, -⟩ := hs
  refine ⟨by rw [hinbox]; exact Nat.zero_le _, ?_⟩
  rw [queue, hinbox, hsub]
  exact Inbox.initializeInbox_refines id

/-- The nonces pending are those between the cursor and the next one. -/
theorem Logged.pending_isSome (h : Logged s) (n : Nat) :
    (s.chain.inbox.pending n).isSome ↔
      s.chain.inbox.includedCount ≤ n ∧ n < s.chain.inbox.nextNonce := by
  rw [h.refines.pending, DeadlineQueue.entry_isSome_iff, h.refines.nextNonce]
  rfl

/-- A pending entry is the one submitted under its nonce. -/
theorem Logged.pending_submitted (h : Logged s) {n : Nat} {p : PendingTx}
    (hp : s.chain.inbox.pending n = some p) : s.submitted[n]? = some p := by
  rw [h.refines.pending, queue, DeadlineQueue.ofLog_entry, Option.ite_none_right_eq_some] at hp
  exact hp.2

theorem Logged.nextNonce (h : Logged s) : s.chain.inbox.nextNonce = s.submitted.length := by
  rw [h.refines.nextNonce, queue, DeadlineQueue.ofLog_next h.cursor]

/-- **Inbox density and recoverable halt.** In every inbox that submissions, settles and window
changes can reach: the pending nonces are exactly those from the cursor to the next nonce, each
with the bytes and the deadline it was submitted with; cursor and settled timestamp never go
back; a settle removes exactly the nonces its cursor passes, and an aborted one nothing; and a
settle that covers everything succeeds at any timestamp not before the last one. -/
theorem inbox_dense (hs : Reachable Start (enabled step) s) :
    s.chain.inbox.includedCount ≤ s.chain.inbox.nextNonce ∧
    (∀ n, (s.chain.inbox.pending n).isSome ↔
      s.chain.inbox.includedCount ≤ n ∧ n < s.chain.inbox.nextNonce) ∧
    (∀ n p, s.chain.inbox.pending n = some p → s.submitted[n]? = some p) ∧
    (∀ as t, Run (enabled step) s as t →
      s.chain.inbox.includedCount ≤ t.chain.inbox.includedCount ∧
      s.chain.inbox.lastSettledTs ≤ t.chain.inbox.lastSettledTs) ∧
    (∀ blockTs cursor inbox', s.chain.inbox.enforceSettle blockTs cursor = .ok inbox' →
      ∀ n, inbox'.pending n =
        if s.chain.inbox.includedCount ≤ n ∧ n < cursor then none else s.chain.inbox.pending n) ∧
    (∀ blockTs cursor e, s.chain.inbox.enforceSettle blockTs cursor = .error e →
      s.chain.transact (.enforceSettle blockTs cursor) = s.chain) ∧
    ∀ blockTs, s.chain.inbox.lastSettledTs ≤ blockTs →
      ∃ inbox', s.chain.inbox.enforceSettle blockTs s.chain.inbox.nextNonce = .ok inbox' := by
  have hl := reachable_logged hs
  have hle : s.chain.inbox.includedCount ≤ s.chain.inbox.nextNonce := by
    rw [hl.nextNonce]
    exact hl.cursor
  refine ⟨hle, hl.pending_isSome, fun n p => hl.pending_submitted, ?_, ?_, ?_, ?_⟩
  · intro as t hrun
    have hadv := run_advances hrun
    exact ⟨hadv.includedCount, hadv.lastSettledTs⟩
  · intro blockTs cursor inbox' hok n
    obtain ⟨-, -, -, -, -, rfl⟩ := Inbox.enforceSettle_eq_ok.1 hok
    rfl
  · intro blockTs cursor e herr
    simp [InboxChain.transact, InboxChain.exec, herr, Except.toOption]
  · intro blockTs hts
    have hnone : s.chain.inbox.pending s.chain.inbox.nextNonce = none := by
      rw [← Option.not_isSome_iff_eq_none, hl.pending_isSome]; omega
    refine ⟨_, Inbox.enforceSettle_eq_ok.2 ⟨hle, Nat.le_refl _, hts, ?_, ?_, rfl⟩⟩
    · intro i hi hi'
      exact (hl.pending_isSome i).2 ⟨hi, hi'⟩
    · intro oldest ho
      rw [hnone] at ho; cases ho

/-- Two submissions, the first of them settled. -/
theorem inbox_dense_two :
    ∃ s, Reachable Start (enabled step) s ∧ s.submitted.length = 2 ∧
      ∀ n, (s.chain.inbox.pending n).isSome ↔
        s.chain.inbox.includedCount ≤ n ∧ n < s.chain.inbox.nextNonce := by
  have hreach : Reachable Start (enabled step) _ :=
    ⟨⟨⟨5, Inbox.initializeInbox 0⟩, [], []⟩, [.submit [1], .submit [2], .enforceSettle 9 1],
      ⟨⟨0, rfl⟩, rfl, rfl⟩, run_of_execAll rfl⟩
  exact ⟨_, hreach, rfl, (inbox_dense hreach).2.1⟩

end InboxHistory

end Podseq.Move
