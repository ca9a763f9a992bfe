import Podseq.Lib.DeadlineQueue
import Podseq.Move.Basic

/-! # `podseq::inbox`: the force-inclusion inbox

`submit` is permissionless; the inclusion cursor moves only in `enforceSettle`, which settlement
calls with the timestamp of the block being settled. The inbox refines a queue of deadlines:
the loop that prunes the covered entries takes them from the front, and the deadline check
reads the front entry alone.
-/
namespace Podseq.Move
open Podseq.Lib

/-! ## Data -/

structure PendingTx where
  deadlineMs : Nat
  txBytes : Bytes
deriving DecidableEq, Repr

/-- A staged widening of the inclusion window. -/
structure PendingWindow where
  newWindowMs : Nat
  effectiveAtMs : Nat
deriving DecidableEq, Repr

/-- The shared inbox; `window` and `pendingWindow` are its dynamic fields `WindowKey` and
`PendingWindowKey`. -/
structure Inbox where
  id : ObjectId
  nextNonce : Nat
  includedCount : Nat
  lastSettledTs : Nat
  pending : Table Nat PendingTx
  window : Option Nat
  pendingWindow : Option PendingWindow

namespace Inbox

/-! ## Error codes and bounds -/

def inclusionWindowMs : Nat := 600000
def minWindowMs : Nat := 60000
def maxWindowMs : Nat := 3600000
def minWidenDelayMs : Nat := 600000
def maxWidenDelayMs : Nat := 604800000

def eEmptyTx : Abort := .code .inbox 0
def eCursorRegression : Abort := .code .inbox 1
def eCursorTooHigh : Abort := .code .inbox 2
def eTimestampRegression : Abort := .code .inbox 3
def eDeadlineExceeded : Abort := .code .inbox 4
def eWindowOutOfBounds : Abort := .code .inbox 5
def eDelayOutOfBounds : Abort := .code .inbox 6
def eNoPendingWindow : Abort := .code .inbox 7

/-! ## Entry points -/

def initializeInbox (id : ObjectId) : Inbox :=
  { id, nextNonce := 0, includedCount := 0, lastSettledTs := 0, pending := Table.empty,
    window := none, pendingWindow := none }

/-- The window `submit` charges at `now`: an elapsed staged widening, else the override, else
the default. -/
def effectiveWindowMs (inbox : Inbox) (now : Nat) : Nat :=
  match inbox.pendingWindow with
  | some pending =>
    if pending.effectiveAtMs ≤ now then pending.newWindowMs
    else inbox.window.getD inclusionWindowMs
  | none => inbox.window.getD inclusionWindowMs

def submit (inbox : Inbox) (now : Nat) (txBytes : Bytes) : Tx Inbox := do
  require (0 < txBytes.length) eEmptyTx
  let nonce := inbox.nextNonce
  let deadlineMs ← addU64 now (effectiveWindowMs inbox now)
  let pending ← inbox.pending.add nonce { deadlineMs, txBytes }
  let nextNonce ← addU64 nonce 1
  return { inbox with pending, nextNonce }

/-- Removes the staged widening when one exists; a no-op otherwise. -/
def dropStagedWideningIfPresent (inbox : Inbox) : Inbox := { inbox with pendingWindow := none }

def dropStagedWidening (inbox : Inbox) : Tx Inbox := do
  require (inbox.pendingWindow.isSome) eNoPendingWindow
  return dropStagedWideningIfPresent inbox

def setWindowOverride (inbox : Inbox) (windowMs : Nat) : Inbox :=
  { inbox with window := some windowMs }

def setPendingWidening (inbox : Inbox) (newWindowMs effectiveAtMs : Nat) : Inbox :=
  { inbox with pendingWindow := some { newWindowMs, effectiveAtMs } }

/-- A narrowing applies at once and drops a staged widening; a widening is staged behind its
timelock, replacing one that is already staged. -/
def stageWindowChange (inbox : Inbox) (newWindowMs delayMs now : Nat) : Tx Inbox := do
  require (minWindowMs ≤ newWindowMs ∧ newWindowMs ≤ maxWindowMs) eWindowOutOfBounds
  let current := effectiveWindowMs inbox now
  if newWindowMs ≤ current then
    return setWindowOverride (dropStagedWideningIfPresent inbox) newWindowMs
  else
    require (minWidenDelayMs ≤ delayMs ∧ delayMs ≤ maxWidenDelayMs) eDelayOutOfBounds
    let effectiveAtMs ← addU64 now delayMs
    return setPendingWidening inbox newWindowMs effectiveAtMs

def cancelWindowChange (inbox : Inbox) : Tx Inbox := dropStagedWidening inbox

/-- The pruning loop of `enforceSettle`: removes `steps` consecutive nonces from `nonce` on. -/
def pruneFrom (pending : Table Nat PendingTx) (nonce : Nat) : Nat → Tx (Table Nat PendingTx)
  | 0 => .ok pending
  | steps + 1 => do
    let (pending, _) ← pending.remove nonce
    pruneFrom pending (nonce + 1) steps

/-- Advances the inclusion cursor to `cursor` and enforces the deadline of the oldest entry
left. -/
def enforceSettle (inbox : Inbox) (blockTs cursor : Nat) : Tx Inbox := do
  require (inbox.includedCount ≤ cursor) eCursorRegression
  require (cursor ≤ inbox.nextNonce) eCursorTooHigh
  require (inbox.lastSettledTs ≤ blockTs) eTimestampRegression
  -- the loop runs `cursor - includedCount` times, so not at all when the cursor stands still
  let pending ← pruneFrom inbox.pending inbox.includedCount (cursor - inbox.includedCount)
  let inbox := { inbox with pending, includedCount := cursor, lastSettledTs := blockTs }
  match inbox.pending inbox.includedCount with
  | some oldest =>
    require (blockTs ≤ oldest.deadlineMs) eDeadlineExceeded
    return inbox
  | none => return inbox

def oldestPendingDeadline (inbox : Inbox) : Option Nat :=
  (inbox.pending inbox.includedCount).map (·.deadlineMs)

/-! ## What the calls do -/

variable {inbox inbox' : Inbox} {now blockTs cursor newWindowMs delayMs : Nat} {txBytes : Bytes}

theorem submit_eq_ok :
    submit inbox now txBytes = .ok inbox' ↔
      0 < txBytes.length ∧ now + effectiveWindowMs inbox now ≤ u64Max ∧
      inbox.pending inbox.nextNonce = none ∧ inbox.nextNonce + 1 ≤ u64Max ∧
      inbox' = { inbox with
        pending := Function.update inbox.pending inbox.nextNonce
          (some ⟨now + effectiveWindowMs inbox now, txBytes⟩)
        nextNonce := inbox.nextNonce + 1 } := by
  simp only [submit, bind_eq_ok, require_eq_ok, exists_const, addU64_eq_ok, Table.add_eq_ok,
    pure_eq_ok]
  constructor
  · rintro ⟨h₁, d, ⟨h₂, rfl⟩, p, ⟨h₃, rfl⟩, n, ⟨h₄, rfl⟩, rfl⟩
    exact ⟨h₁, h₂, h₃, h₄, rfl⟩
  · rintro ⟨h₁, h₂, h₃, h₄, rfl⟩
    exact ⟨h₁, _, ⟨h₂, rfl⟩, _, ⟨h₃, rfl⟩, _, ⟨h₄, rfl⟩, rfl⟩

/-- The fields a window change leaves alone. -/
structure SameQueue (inbox inbox' : Inbox) : Prop where
  id : inbox'.id = inbox.id
  nextNonce : inbox'.nextNonce = inbox.nextNonce
  includedCount : inbox'.includedCount = inbox.includedCount
  lastSettledTs : inbox'.lastSettledTs = inbox.lastSettledTs
  pending : inbox'.pending = inbox.pending

theorem stageWindowChange_sameQueue
    (h : stageWindowChange inbox newWindowMs delayMs now = .ok inbox') :
    SameQueue inbox inbox' := by
  simp only [stageWindowChange, bind_eq_ok, require_eq_ok, exists_const] at h
  obtain ⟨-, h⟩ := h
  split at h
  · cases h; exact ⟨rfl, rfl, rfl, rfl, rfl⟩
  · simp only [bind_eq_ok, pure_eq_ok] at h
    obtain ⟨-, -, -, -, rfl⟩ := h; exact ⟨rfl, rfl, rfl, rfl, rfl⟩

theorem cancelWindowChange_eq_ok :
    cancelWindowChange inbox = .ok inbox' ↔
      inbox.pendingWindow.isSome ∧ inbox' = { inbox with pendingWindow := none } := by
  simp only [cancelWindowChange, dropStagedWidening, dropStagedWideningIfPresent, bind_eq_ok,
    require_eq_ok, exists_const, pure_eq_ok, eq_comm (b := inbox')]

theorem cancelWindowChange_sameQueue (h : cancelWindowChange inbox = .ok inbox') :
    SameQueue inbox inbox' := by
  obtain ⟨-, rfl⟩ := cancelWindowChange_eq_ok.1 h; exact ⟨rfl, rfl, rfl, rfl, rfl⟩

/-- The pruning loop succeeds when every nonce it meets is pending, and then removes them. -/
theorem pruneFrom_eq_ok {pending pending' : Table Nat PendingTx} {nonce steps : Nat} :
    pruneFrom pending nonce steps = .ok pending' ↔
      (∀ i, nonce ≤ i → i < nonce + steps → (pending i).isSome) ∧
      pending' = fun i => if nonce ≤ i ∧ i < nonce + steps then none else pending i := by
  induction steps generalizing pending nonce with
  | zero =>
    simp only [pruneFrom, Except.ok.injEq]
    constructor
    · rintro rfl
      exact ⟨fun i h₁ h₂ => by omega, funext fun i => by rw [if_neg (by omega)]⟩
    · rintro ⟨-, rfl⟩
      exact funext fun i => by rw [if_neg (by omega)]
  | succ steps ih =>
    simp only [pruneFrom, bind_eq_ok, Table.remove_eq_ok, Prod.exists, ih]
    constructor
    · rintro ⟨p, v, ⟨hv, rfl⟩, hs, rfl⟩
      refine ⟨fun i h₁ h₂ => ?_, funext fun i => ?_⟩
      · by_cases hi : i = nonce
        · simp [hi, hv]
        · simpa [Function.update_of_ne hi] using hs i (by omega) (by omega)
      · by_cases hi : i = nonce
        · subst hi; rw [if_neg (by omega), if_pos (by omega)]; simp
        · simp only [Function.update_of_ne hi]
          congr 1; simp only [eq_iff_iff]; omega
    · rintro ⟨hs, rfl⟩
      obtain ⟨v, hv⟩ := Option.isSome_iff_exists.1 (hs nonce (Nat.le_refl _) (by omega))
      refine ⟨_, v, ⟨hv, rfl⟩, fun i h₁ h₂ => ?_, funext fun i => ?_⟩
      · rw [Function.update_of_ne (by omega)]; exact hs i (by omega) (by omega)
      · by_cases hi : i = nonce
        · subst hi; rw [if_pos (by omega), if_neg (by omega)]; simp
        · simp only [Function.update_of_ne hi]
          congr 1; simp only [eq_iff_iff]; omega

theorem enforceSettle_eq_ok :
    enforceSettle inbox blockTs cursor = .ok inbox' ↔
      inbox.includedCount ≤ cursor ∧ cursor ≤ inbox.nextNonce ∧ inbox.lastSettledTs ≤ blockTs ∧
      (∀ i, inbox.includedCount ≤ i → i < cursor → (inbox.pending i).isSome) ∧
      (∀ oldest, inbox.pending cursor = some oldest → blockTs ≤ oldest.deadlineMs) ∧
      inbox' = { inbox with
        pending := fun i => if inbox.includedCount ≤ i ∧ i < cursor then none else inbox.pending i
        includedCount := cursor
        lastSettledTs := blockTs } := by
  simp only [enforceSettle, bind_eq_ok, require_eq_ok, exists_const, pruneFrom_eq_ok]
  constructor
  · rintro ⟨h₁, h₂, h₃, p, ⟨hs, rfl⟩, h⟩
    rw [show inbox.includedCount + (cursor - inbox.includedCount) = cursor by omega] at hs h
    refine ⟨h₁, h₂, h₃, hs, ?_⟩
    simp only [show ¬ (inbox.includedCount ≤ cursor ∧ cursor < cursor) by omega, if_false] at h
    split at h
    · rename_i oldest ho
      simp only [bind_eq_ok, require_eq_ok, exists_const, pure_eq_ok] at h
      obtain ⟨hd, rfl⟩ := h
      refine ⟨fun o h' => ?_, rfl⟩
      rw [ho] at h'; cases h'; exact hd
    · rename_i hn
      simp only [pure_eq_ok] at h
      refine ⟨fun o h' => ?_, h.symm⟩
      rw [hn] at h'; cases h'
  · rintro ⟨h₁, h₂, h₃, hs, hd, rfl⟩
    refine ⟨h₁, h₂, h₃, _, ⟨?_, rfl⟩, ?_⟩
    · intro i hi hi'
      exact hs i hi (by omega)
    · rw [show inbox.includedCount + (cursor - inbox.includedCount) = cursor by omega]
      simp only [show ¬ (inbox.includedCount ≤ cursor ∧ cursor < cursor) by omega, if_false]
      split
      · rename_i oldest ho
        simp only [bind_eq_ok, require_eq_ok, exists_const]
        exact ⟨hd oldest ho, rfl⟩
      · rfl

/-- A settle is refused with a code of this module, or for an entry that is missing. -/
theorem enforceSettle_failsWithin :
    FailsWithin (fun e => e = .fieldMissing ∨ ∃ n, e = .code .inbox n)
      (enforceSettle inbox blockTs cursor) := by
  have hprune : ∀ steps nonce (pending : Table Nat PendingTx),
      FailsWithin (fun e => e = .fieldMissing ∨ ∃ n, e = .code .inbox n)
        (pruneFrom pending nonce steps) := by
    intro steps
    induction steps with
    | zero => exact fun _ pending => .ok pending
    | succ steps ih =>
      intro nonce pending
      refine .bind ?_ fun _ _ => ih _ _
      unfold Table.remove
      split
      · exact .ok _
      · exact .error (.inl rfl)
  refine .bind (.require (.inr ⟨_, rfl⟩)) fun _ _ => .bind (.require (.inr ⟨_, rfl⟩)) fun _ _ =>
    .bind (.require (.inr ⟨_, rfl⟩)) fun _ _ => .bind (hprune _ _ _) fun _ _ => ?_
  dsimp only
  split
  · exact .bind (.require (.inr ⟨_, rfl⟩)) fun _ _ => .ok _
  · exact .ok _

/-! ## The inbox refines a queue of deadlines -/

/-- The inbox holds exactly the entries of `q`, under consecutive nonces. -/
structure Refines (inbox : Inbox) (q : DeadlineQueue PendingTx) : Prop where
  includedCount : inbox.includedCount = q.retired
  nextNonce : inbox.nextNonce = q.next
  pending : ∀ n, inbox.pending n = q.entry n

variable {q : DeadlineQueue PendingTx}

theorem initializeInbox_refines (id : ObjectId) : Refines (initializeInbox id) ⟨0, []⟩ :=
  ⟨rfl, rfl, fun n => by simp [initializeInbox, DeadlineQueue.entry]⟩

theorem SameQueue.refines (h : SameQueue inbox inbox') (hr : Refines inbox q) :
    Refines inbox' q := by
  refine ⟨?_, ?_, ?_⟩
  · rw [h.includedCount]; exact hr.includedCount
  · rw [h.nextNonce]; exact hr.nextNonce
  · rw [h.pending]; exact hr.pending

/-- `submit` pushes an entry whose deadline is consensus time plus the effective window. -/
theorem submit_refines (h : submit inbox now txBytes = .ok inbox') (hr : Refines inbox q) :
    Refines inbox' (q.push ⟨now + effectiveWindowMs inbox now, txBytes⟩) := by
  obtain ⟨-, -, -, -, rfl⟩ := submit_eq_ok.1 h
  refine ⟨hr.includedCount, by simp [hr.nextNonce], fun n => ?_⟩
  simp only [DeadlineQueue.entry_push, ← hr.nextNonce]
  by_cases hn : n = inbox.nextNonce
  · simp [hn]
  · simp [hn, hr.pending]

/-- `enforceSettle` takes the covered entries from the front. -/
theorem enforceSettle_refines (h : enforceSettle inbox blockTs cursor = .ok inbox')
    (hr : Refines inbox q) : Refines inbox' (q.retire (cursor - inbox.includedCount)) := by
  obtain ⟨h₁, h₂, -, -, -, rfl⟩ := enforceSettle_eq_ok.1 h
  have hlen : cursor - inbox.includedCount ≤ q.waiting.length := by
    rw [hr.nextNonce] at h₂; simp only [DeadlineQueue.next, ← hr.includedCount] at h₂; omega
  refine ⟨?_, ?_, fun n => ?_⟩
  · simp only [DeadlineQueue.retire_retired, ← hr.includedCount]; omega
  · rw [DeadlineQueue.retire_next hlen]; exact hr.nextNonce
  · simp only [DeadlineQueue.entry_retire, ← hr.includedCount, ← hr.pending]
    by_cases hc : inbox.includedCount + (cursor - inbox.includedCount) ≤ n
    · rw [if_pos hc, if_neg (by omega)]
    · rw [if_neg hc]
      split_ifs with hi
      · rfl
      · rw [hr.pending, DeadlineQueue.entry_eq_none_iff, ← hr.includedCount]; omega

/-- The check of `enforceSettle` is the front check of the queue it leaves. -/
theorem enforceSettle_headMeets (h : enforceSettle inbox blockTs cursor = .ok inbox')
    (hr : Refines inbox q) :
    (q.retire (cursor - inbox.includedCount)).HeadMeets PendingTx.deadlineMs blockTs := by
  have hr' := enforceSettle_refines h hr
  obtain ⟨h₁, -, -, -, hd, rfl⟩ := enforceSettle_eq_ok.1 h
  intro x hx
  refine hd x ?_
  have he := hr'.pending cursor
  simp only [show ¬ (inbox.includedCount ≤ cursor ∧ cursor < cursor) by omega, if_false] at he
  rw [he, ← hx, ← DeadlineQueue.entry_retired]
  congr 1
  exact hr'.includedCount

end Inbox

end Podseq.Move
