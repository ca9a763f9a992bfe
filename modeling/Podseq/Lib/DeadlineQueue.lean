import Mathlib

/-! # Queues of deadlines served from the front

A queue numbers its entries consecutively: `retired` counts the entries already taken from the
front and `waiting` holds the rest in order. Checking the deadline of the front entry alone
speaks for the whole queue exactly when the deadlines are ordered.
-/
namespace Podseq.Lib

structure DeadlineQueue (τ : Type*) where
  retired : Nat
  waiting : List τ

namespace DeadlineQueue

variable {τ δ : Type*} {q : DeadlineQueue τ} {x y : τ} {k n : Nat}

def next (q : DeadlineQueue τ) : Nat := q.retired + q.waiting.length

/-- The entry numbered `n`, if it is still waiting. -/
def entry (q : DeadlineQueue τ) (n : Nat) : Option τ :=
  if q.retired ≤ n then q.waiting[n - q.retired]? else none

def push (q : DeadlineQueue τ) (x : τ) : DeadlineQueue τ := { q with waiting := q.waiting ++ [x] }

/-- Takes `k` entries from the front. -/
def retire (q : DeadlineQueue τ) (k : Nat) : DeadlineQueue τ :=
  ⟨q.retired + k, q.waiting.drop k⟩

@[simp] theorem push_retired : (q.push x).retired = q.retired := rfl

@[simp] theorem push_next : (q.push x).next = q.next + 1 := by
  simp [push, next]; omega

@[simp] theorem retire_retired : (q.retire k).retired = q.retired + k := rfl

theorem retire_next (hk : k ≤ q.waiting.length) : (q.retire k).next = q.next := by
  simp [retire, next]; omega

@[simp] theorem retire_zero : q.retire 0 = q := rfl

theorem entry_push : (q.push x).entry n = if n = q.next then some x else q.entry n := by
  unfold entry push next
  by_cases hr : q.retired ≤ n
  · simp only [hr, if_true, List.getElem?_append]
    split_ifs with h₁ h₂
    · omega
    · rfl
    · simp [show n - q.retired - q.waiting.length = 0 by omega]
    · rw [List.getElem?_eq_none (by simp; omega), List.getElem?_eq_none (by omega)]
  · simp only [hr, if_false]
    rw [if_neg (by omega)]

theorem entry_retire : (q.retire k).entry n = if q.retired + k ≤ n then q.entry n else none := by
  unfold entry retire
  by_cases hr : q.retired + k ≤ n
  · simp only [hr, if_true, if_pos (show q.retired ≤ n by omega), List.getElem?_drop]
    congr 1; omega
  · simp only [hr, if_false]

theorem entry_isSome_iff : (q.entry n).isSome ↔ q.retired ≤ n ∧ n < q.next := by
  unfold entry next
  split_ifs with h
  · rw [Option.isSome_iff_ne_none, ne_eq, List.getElem?_eq_none_iff]; omega
  · simp [h]

theorem entry_eq_none_iff : q.entry n = none ↔ n < q.retired ∨ q.next ≤ n := by
  rw [← Option.not_isSome_iff_eq_none, entry_isSome_iff]; omega

@[simp] theorem entry_retired : q.entry q.retired = q.waiting.head? := by
  simp [entry, List.head?_eq_getElem?]

theorem mem_waiting_iff : x ∈ q.waiting ↔ ∃ n, q.entry n = some x := by
  rw [List.mem_iff_getElem?]
  constructor
  · rintro ⟨i, hi⟩
    exact ⟨q.retired + i, by simp [entry, hi]⟩
  · rintro ⟨n, hn⟩
    unfold entry at hn
    split_ifs at hn
    exact ⟨_, hn⟩

/-! ## A queue as what is left of a log -/

/-- The queue of all entries ever pushed, the first `retired` of which are gone. -/
def ofLog (log : List τ) (retired : Nat) : DeadlineQueue τ := ⟨retired, log.drop retired⟩

section Log

variable {log : List τ}

theorem ofLog_next (hn : n ≤ log.length) : (ofLog log n).next = log.length := by
  simp [ofLog, next]; omega

theorem ofLog_entry : (ofLog log k).entry n = if k ≤ n then log[n]? else none := by
  unfold ofLog entry
  split_ifs with h
  · rw [List.getElem?_drop, Nat.add_sub_cancel' h]
  · rfl

theorem ofLog_push (hn : n ≤ log.length) : (ofLog log n).push x = ofLog (log ++ [x]) n := by
  simp [ofLog, push, List.drop_append_of_le_length hn]

@[simp] theorem ofLog_retire : (ofLog log n).retire k = ofLog log (n + k) := by
  simp [ofLog, retire, List.drop_drop]

end Log

/-! ## Deadlines -/

section Order

variable [LinearOrder δ] {deadline : τ → δ} {t : δ}

/-- Earlier entries have earlier deadlines. -/
def Ordered (deadline : τ → δ) (q : DeadlineQueue τ) : Prop :=
  q.waiting.Pairwise fun a b => deadline a ≤ deadline b

/-- The check of the front entry alone. -/
def HeadMeets (deadline : τ → δ) (q : DeadlineQueue τ) (t : δ) : Prop :=
  ∀ x ∈ q.waiting.head?, t ≤ deadline x

/-- No waiting entry is overdue at `t`. -/
def AllMeet (deadline : τ → δ) (q : DeadlineQueue τ) (t : δ) : Prop :=
  ∀ x ∈ q.waiting, t ≤ deadline x

theorem Ordered.push (h : q.Ordered deadline) (hx : ∀ y ∈ q.waiting, deadline y ≤ deadline x) :
    (q.push x).Ordered deadline := by
  simp only [Ordered, DeadlineQueue.push, List.pairwise_append]
  refine ⟨h, List.pairwise_singleton _ _, ?_⟩
  intro y hy z hz
  rw [List.mem_singleton.1 hz]; exact hx y hy

theorem Ordered.retire (h : q.Ordered deadline) (k : Nat) : (q.retire k).Ordered deadline :=
  h.sublist (List.drop_sublist _ _)

/-- In an ordered queue the front check covers every entry. -/
theorem Ordered.allMeet (h : q.Ordered deadline) (ht : q.HeadMeets deadline t) :
    q.AllMeet deadline t := by
  intro x hx
  unfold Ordered at h
  unfold HeadMeets at ht
  cases hw : q.waiting with
  | nil => simp [hw] at hx
  | cons a as =>
    rw [hw] at h hx ht
    have ha : t ≤ deadline a := ht a (by simp)
    rcases List.mem_cons.1 hx with rfl | hx
    · exact ha
    · exact ha.trans ((List.pairwise_cons.1 h).1 x hx)

end Order

end DeadlineQueue

end Podseq.Lib
