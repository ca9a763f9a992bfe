import Podseq.Lib.Runs
import Podseq.Move.Inbox

/-! # Which forced transactions a settled block can leave overdue

`enforceSettle` reads the deadline of the oldest pending entry only. That speaks for every
entry as long as deadlines do not decrease in nonce order, and they do decrease when the
effective window shrinks between two submissions by more than the clock has advanced.
-/
namespace Podseq.Move
open Podseq.Lib

/-- An inbox under the consensus clock. -/
structure InboxChain where
  now : Nat
  inbox : Inbox

namespace InboxChain

inductive Call
  | tick (now : Nat)
  | submit (txBytes : Bytes)
  | stageWindowChange (newWindowMs delayMs : Nat)
  | cancelWindowChange
  | enforceSettle (blockTs cursor : Nat)
deriving DecidableEq, Repr

/-- One call; an aborted call has no effects and is no step. -/
def exec (s : InboxChain) : Call → Option InboxChain
  | .tick now => if s.now ≤ now then some { s with now } else none
  | .submit txBytes => (s.inbox.submit s.now txBytes).toOption.map ({ s with inbox := · })
  | .stageWindowChange newWindowMs delayMs =>
    (s.inbox.stageWindowChange newWindowMs delayMs s.now).toOption.map ({ s with inbox := · })
  | .cancelWindowChange => s.inbox.cancelWindowChange.toOption.map ({ s with inbox := · })
  | .enforceSettle blockTs cursor =>
    (s.inbox.enforceSettle blockTs cursor).toOption.map ({ s with inbox := · })

def Start (s : InboxChain) : Prop := ∃ id, s.inbox = Inbox.initializeInbox id

variable {s t : InboxChain} {c : Call}

/-- What one step does to the queue: it pushes one entry with the deadline the clock and the
window give, takes entries from the front, or leaves the queue alone. -/
theorem exec_queue (h : exec s c = some t) {q : DeadlineQueue PendingTx}
    (hr : s.inbox.Refines q) :
    (∃ txBytes, c = .submit txBytes ∧
      t.inbox.Refines (q.push ⟨s.now + s.inbox.effectiveWindowMs s.now, txBytes⟩)) ∨
    ∃ k, t.inbox.Refines (q.retire k) := by
  cases c with
  | tick now =>
    simp only [exec] at h
    split at h
    · cases h; exact .inr ⟨0, by simpa using hr⟩
    · cases h
  | submit txBytes =>
    simp only [exec, Option.map_eq_some_iff, toOption_eq_some] at h
    obtain ⟨inbox', hs, rfl⟩ := h
    exact .inl ⟨txBytes, rfl, Inbox.submit_refines hs hr⟩
  | stageWindowChange newWindowMs delayMs =>
    simp only [exec, Option.map_eq_some_iff, toOption_eq_some] at h
    obtain ⟨inbox', hs, rfl⟩ := h
    exact .inr ⟨0, (Inbox.stageWindowChange_sameQueue hs).refines (by simpa using hr)⟩
  | cancelWindowChange =>
    simp only [exec, Option.map_eq_some_iff, toOption_eq_some] at h
    obtain ⟨inbox', hs, rfl⟩ := h
    exact .inr ⟨0, (Inbox.cancelWindowChange_sameQueue hs).refines (by simpa using hr)⟩
  | enforceSettle blockTs cursor =>
    simp only [exec, Option.map_eq_some_iff, toOption_eq_some] at h
    obtain ⟨inbox', hs, rfl⟩ := h
    exact .inr ⟨_, Inbox.enforceSettle_refines hs hr⟩

/-! ## The deadlines a settle leaves behind -/

/-- No pending entry is overdue at `blockTs`. -/
def NoOverdue (inbox : Inbox) (blockTs : Nat) : Prop :=
  ∀ n p, inbox.pending n = some p → blockTs ≤ p.deadlineMs

theorem noOverdue_iff {inbox : Inbox} {q : DeadlineQueue PendingTx} {blockTs : Nat}
    (hr : inbox.Refines q) :
    NoOverdue inbox blockTs ↔ q.AllMeet PendingTx.deadlineMs blockTs := by
  simp only [NoOverdue, DeadlineQueue.AllMeet, DeadlineQueue.mem_waiting_iff, hr.pending]
  exact ⟨fun h x ⟨n, hn⟩ => h n x hn, fun h n x hn => h x ⟨n, hn⟩⟩

/-- A submission whose deadline is not before that of an entry still pending. -/
def InOrder (s : InboxChain) : Call → Prop
  | .submit _ => ∀ n p, s.inbox.pending n = some p →
      p.deadlineMs ≤ s.now + s.inbox.effectiveWindowMs s.now
  | _ => True

theorem inOrder_submit_iff {q : DeadlineQueue PendingTx} {txBytes : Bytes}
    (hr : s.inbox.Refines q) : InOrder s (.submit txBytes) ↔
      ∀ p ∈ q.waiting, p.deadlineMs ≤ s.now + s.inbox.effectiveWindowMs s.now := by
  simp only [InOrder, DeadlineQueue.mem_waiting_iff, hr.pending]
  exact ⟨fun h p ⟨n, hn⟩ => h n p hn, fun h n p hn => h p ⟨n, hn⟩⟩

theorem reachable_ordered (h : Reachable Start (guarded InOrder (enabled exec)) s) :
    ∃ q, s.inbox.Refines q ∧ q.Ordered PendingTx.deadlineMs := by
  refine h.inv (I := fun s => ∃ q, s.inbox.Refines q ∧ q.Ordered PendingTx.deadlineMs) ?_ ?_
  · rintro s ⟨id, hs⟩
    exact ⟨⟨0, []⟩, hs ▸ Inbox.initializeInbox_refines id, List.Pairwise.nil⟩
  · rintro s c t ⟨q, hq, ho⟩ ⟨hok, hst⟩
    obtain ⟨b, rfl, ht⟩ | ⟨k, ht⟩ := exec_queue hst hq
    · exact ⟨_, ht, ho.push ((inOrder_submit_iff hq).1 hok)⟩
    · exact ⟨_, ht, ho.retire k⟩

/-- **Force inclusion is enforced for every pending transaction** along the runs in which each
submission gets a deadline no earlier than those still pending. -/
theorem enforceSettle_noOverdue {blockTs cursor : Nat} {inbox' : Inbox}
    (hs : Reachable Start (guarded InOrder (enabled exec)) s)
    (h : s.inbox.enforceSettle blockTs cursor = .ok inbox') : NoOverdue inbox' blockTs := by
  obtain ⟨q, hq, ho⟩ := reachable_ordered hs
  rw [noOverdue_iff (Inbox.enforceSettle_refines h hq)]
  exact (ho.retire _).allMeet (Inbox.enforceSettle_headMeets h hq)

def widened : List Call := [.submit [1], .stageWindowChange 900000 600000, .tick 1, .submit [2],
  .tick 600000, .submit [3]]

def widenedAfter (n : Nat) : InboxChain :=
  (execAll exec ⟨0, Inbox.initializeInbox 0⟩ (widened.take n)).getD ⟨0, Inbox.initializeInbox 0⟩

/-- Each submission is in order, and a settle that includes the first transaction leaves the other
two pending, neither of them overdue. -/
theorem enforceSettle_noOverdue_widened :
    ∃ inbox', (widenedAfter 6).inbox.enforceSettle 600001 1 = .ok inbox' ∧
      NoOverdue inbox' 600001 ∧ inbox'.pending 1 = some ⟨600001, [2]⟩ ∧
      inbox'.pending 2 = some ⟨1500000, [3]⟩ := by
  have hnone : (widenedAfter 0).inbox.Refines ⟨0, []⟩ := Inbox.initializeInbox_refines 0
  have hone : (widenedAfter 3).inbox.Refines ⟨0, [⟨600000, [1]⟩]⟩ :=
    ⟨rfl, rfl, fun | 0 => rfl | _ + 1 => rfl⟩
  have htwo : (widenedAfter 5).inbox.Refines ⟨0, [⟨600000, [1]⟩, ⟨600001, [2]⟩]⟩ :=
    ⟨rfl, rfl, fun | 0 => rfl | 1 => rfl | _ + 2 => rfl⟩
  have hrun : Run (guarded InOrder (enabled exec)) (widenedAfter 0) widened (widenedAfter 6) :=
    .cons ⟨(inOrder_submit_iff hnone).2 (by decide), rfl⟩ <| .cons ⟨trivial, rfl⟩ <|
    .cons ⟨trivial, rfl⟩ <| .cons ⟨(inOrder_submit_iff hone).2 (by decide), rfl⟩ <|
    .cons ⟨trivial, rfl⟩ <| .cons ⟨(inOrder_submit_iff htwo).2 (by decide), rfl⟩ .nil
  exact ⟨_, rfl, enforceSettle_noOverdue ⟨_, _, ⟨0, rfl⟩, hrun⟩
    (rfl : Inbox.enforceSettle _ 600001 1 = _), rfl, rfl⟩

/-- **The oldest entry does not speak for the others.** A transaction is submitted under the
default window, the window is narrowed to a minute, and a second transaction is submitted a
millisecond later: a block at 100000 ms settles although the deadline of the second, 60001 ms,
has passed. -/
theorem narrowed_window_leaves_overdue :
    ¬ ∀ s, Reachable Start (enabled exec) s → ∀ blockTs cursor inbox',
      s.inbox.enforceSettle blockTs cursor = .ok inbox' → NoOverdue inbox' blockTs := by
  intro h
  have hrun : Run (enabled exec) ⟨0, Inbox.initializeInbox 0⟩
      [.submit [1], .stageWindowChange 60000 0, .tick 1, .submit [2]] _ := run_of_execAll rfl
  have hover := h _ ⟨_, _, ⟨0, rfl⟩, hrun⟩ 100000 0 _ rfl 1 ⟨60001, [2]⟩ rfl
  exact absurd hover (by decide)

/-- Exactly when a settle can leave an overdue entry: when some entry that is not yet overdue
itself has a later entry with an earlier deadline. -/
theorem enforceSettle_noOverdue_iff {inbox : Inbox} {q : DeadlineQueue PendingTx}
    (hr : inbox.Refines q) :
    (∀ blockTs cursor inbox', inbox.enforceSettle blockTs cursor = .ok inbox' →
      NoOverdue inbox' blockTs) ↔
    ∀ i j p p', i < j → inbox.pending i = some p → inbox.pending j = some p' →
      inbox.lastSettledTs ≤ p.deadlineMs → p.deadlineMs ≤ p'.deadlineMs := by
  have hdense : ∀ n, (inbox.pending n).isSome ↔ inbox.includedCount ≤ n ∧ n < inbox.nextNonce := by
    intro n
    rw [hr.pending, DeadlineQueue.entry_isSome_iff, hr.includedCount, hr.nextNonce]
  constructor
  · intro h i j p p' hij hi hj hts
    have hci := (hdense i).1 (by simp [hi])
    -- settling up to `i` at the deadline of `i` passes the check and leaves `j` pending
    have hok := Inbox.enforceSettle_eq_ok.2 ⟨hci.1, hci.2.le, hts,
      fun k h₁ h₂ => (hdense k).2 ⟨h₁, h₂.trans hci.2⟩,
      fun o ho => by rw [hi] at ho; cases ho; exact Nat.le_refl _, rfl⟩
    refine h p.deadlineMs i _ hok j p' ?_
    simp only [if_neg (show ¬ (inbox.includedCount ≤ j ∧ j < i) by omega), hj]
  · intro h blockTs cursor inbox' hok j p' hj
    obtain ⟨h₁, h₂, h₃, -, hd, rfl⟩ := Inbox.enforceSettle_eq_ok.1 hok
    simp only at hj
    split_ifs at hj with hc
    have hcj := (hdense j).1 (by simp [hj])
    obtain ⟨p, hp⟩ := Option.isSome_iff_exists.1 ((hdense cursor).2 ⟨h₁, by omega⟩)
    have hhead := hd p hp
    rcases Nat.lt_or_ge cursor j with hlt | hge
    · exact hhead.trans (h cursor j p p' hlt hp hj (by omega))
    · rw [show cursor = j by omega, hj] at hp
      cases hp; exact hhead

end InboxChain

end Podseq.Move
