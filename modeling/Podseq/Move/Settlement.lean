import Podseq.Move.Inbox
import Podseq.Move.Rotation

/-! # `podseq::settlement`: the registry of settled blocks

The gates read the rotation record or the `OpsCap` of the Registry; the Inbox is an argument of
its own, passed beside the Registry.
-/
namespace Podseq.Move
open Podseq.Lib Rotation

structure SettlerCap where
  id : ObjectId
deriving DecidableEq, Repr

/-- The shared registry; `stateRoots` are its dynamic fields `StateRootKey { height }`. -/
structure Registry where
  uid : Guarded SettlerCap
  latestHeight : Nat
  commitments : Table Nat Bytes
  stateRoots : Table Nat Bytes

namespace Settlement

/-! ## Error codes -/

def eInvalidHeight : Abort := .code .settlement 0
def eConflictingBlob : Abort := .code .settlement 1
def eRotated : Abort := .code .settlement 2
def eStateRootMalformed : Abort := .code .settlement 10
def eStateRootHeight : Abort := .code .settlement 11
def eStateRootConflict : Abort := .code .settlement 12

def stateRootLen : Nat := 32

/-! ## Entry points -/

def initializeRegistry (id : ObjectId) : Registry :=
  { uid := Guarded.new id, latestHeight := 0, commitments := Table.empty,
    stateRoots := Table.empty }

/-- Retired: every call aborts. -/
def settle (_cap : SettlerCap) (_registry : Registry) (_inbox : Inbox) (_blobId : Bytes)
    (_height _blockTs _inboxCursor : Nat) : Tx (Registry × Inbox) :=
  .error eRotated

/-- The settle body. A re-submit of the latest height is a no-op that never touches the
inbox; only the next height settles. -/
def doSettle (registry : Registry) (inbox : Inbox) (blobId : Bytes)
    (height blockTs inboxCursor : Nat) : Tx (Registry × Inbox) := do
  if height = registry.latestHeight then
    let settled ← registry.commitments.borrow height
    require (settled = blobId) eConflictingBlob
    return (registry, inbox)
  else
    let next ← addU64 registry.latestHeight 1
    require (height = next) eInvalidHeight
    let inbox ← inbox.enforceSettle blockTs inboxCursor
    let commitments ← registry.commitments.add height blobId
    return ({ registry with commitments, latestHeight := height }, inbox)

def settleAs (registry : Registry) (inbox : Inbox) (now : Nat) (blobId : Bytes)
    (height blockTs inboxCursor : Nat) (sender : Address) : Tx (Registry × Inbox) := do
  assertCanAct registry.uid now sender
  doSettle registry inbox blobId height blockTs inboxCursor

/-- Anchors the state root of the settled tip. -/
def commitStateRoot (registry : Registry) (now height : Nat) (stateRoot : Bytes)
    (sender : Address) : Tx Registry := do
  assertCanAct registry.uid now sender
  require (stateRoot.length = stateRootLen) eStateRootMalformed
  require (height = registry.latestHeight) eStateRootHeight
  match registry.stateRoots height with
  | some anchored =>
    require (anchored = stateRoot) eStateRootConflict
    return registry
  | none => return { registry with
      stateRoots := Function.update registry.stateRoots height (some stateRoot) }

def entombSettlerCap (cap : SettlerCap) (registry : Registry) : Tx Registry := do
  let uid ← entomb registry.uid cap
  return { registry with uid }

def entombSettlerCapOps (cap : SettlerCap) (registry : Registry) (sender : Address)
    (opsId : ObjectId) : Tx (Registry × OpsCap × Address) := do
  let (uid, minted) ← entombOps registry.uid cap sender opsId
  return ({ registry with uid }, minted)

def requestRotationOps (registry : Registry) (now : Nat) (toAddr : Address) (delayMs : Nat)
    (ops : OpsCap) : Tx Registry := do
  let uid ← Rotation.requestRotationOps registry.uid toAddr delayMs now ops
  return { registry with uid }

def cancelRotation (registry : Registry) (sender : Address) : Tx Registry := do
  let uid ← Rotation.cancelRotation registry.uid sender
  return { registry with uid }

def claimRotation (registry : Registry) (now : Nat) (sender : Address) : Tx Registry := do
  let uid ← Rotation.claimRotation registry.uid now sender
  return { registry with uid }

def retirePrevious (registry : Registry) (sender : Address) : Tx Registry := do
  let uid ← Rotation.retirePrevious registry.uid sender
  return { registry with uid }

/-- The `OpsCap` is checked against the Registry; nothing ties the Inbox to it. -/
def requestWindowChange (registry : Registry) (inbox : Inbox) (now newWindowMs delayMs : Nat)
    (ops : OpsCap) : Tx Inbox := do
  assertOpsCap registry.uid ops
  inbox.stageWindowChange newWindowMs delayMs now

def cancelWindowChange (registry : Registry) (inbox : Inbox) (ops : OpsCap) : Tx Inbox := do
  assertOpsCap registry.uid ops
  inbox.cancelWindowChange

/-! ## What the calls do -/

variable {registry registry' : Registry} {inbox inbox' : Inbox} {blobId : Bytes}
  {now height blockTs inboxCursor newWindowMs delayMs : Nat} {sender toAddr : Address}
  {ops : OpsCap}

/-- A settle either repeats the latest height and changes nothing, or settles the next height
and drives the inbox. -/
theorem doSettle_cases (h : doSettle registry inbox blobId height blockTs inboxCursor
      = .ok (registry', inbox')) :
    (height = registry.latestHeight ∧ registry.commitments height = some blobId ∧
        registry' = registry ∧ inbox' = inbox) ∨
      (height = registry.latestHeight + 1 ∧ inbox.enforceSettle blockTs inboxCursor = .ok inbox' ∧
        registry' = { registry with
          commitments := Function.update registry.commitments height (some blobId)
          latestHeight := height }) := by
  unfold doSettle at h
  split at h
  · rename_i heq
    simp only [bind_eq_ok, Table.borrow_eq_ok, require_eq_ok, exists_const, pure_eq_ok,
      Prod.mk.injEq] at h
    obtain ⟨_, hblob, rfl, rfl, rfl⟩ := h
    exact .inl ⟨heq, hblob, rfl, rfl⟩
  · simp only [bind_eq_ok, addU64_eq_ok, require_eq_ok, exists_const, Table.add_eq_ok, pure_eq_ok,
      Prod.mk.injEq] at h
    obtain ⟨-, ⟨-, rfl⟩, hnext, inbox₁, hs, -, ⟨-, rfl⟩, rfl, rfl⟩ := h
    exact .inr ⟨hnext, hs, rfl⟩

/-- A settle of the next height is not refused by this module. -/
theorem doSettle_next_failsWithin (hnext : height = registry.latestHeight + 1) :
    FailsWithin (fun e => ∀ n, e ≠ .code .settlement n)
      (doSettle registry inbox blobId height blockTs inboxCursor) := by
  unfold doSettle
  rw [if_neg (by omega)]
  refine .bind (.addUpTo fun n => nofun) fun next hadd => ?_
  obtain ⟨-, rfl⟩ := addU64_eq_ok.1 hadd
  refine .bind (fun e he => ?_) fun _ _ => .bind (fun e he n => ?_) fun _ _ =>
    .bind ?_ fun _ _ => .ok _
  · rw [require, if_pos hnext] at he
    cases he
  · obtain rfl | ⟨_, rfl⟩ := Inbox.enforceSettle_failsWithin e he <;> nofun
  · unfold Table.add
    split
    · exact .error fun n => nofun
    · exact .ok _

theorem settleAs_cases (h : settleAs registry inbox now blobId height blockTs inboxCursor sender
      = .ok (registry', inbox')) :
    CanAct registry.uid now sender ∧
    ((height = registry.latestHeight ∧ registry' = registry ∧ inbox' = inbox) ∨
      (height = registry.latestHeight + 1 ∧ inbox.enforceSettle blockTs inboxCursor = .ok inbox' ∧
        registry' = { registry with
          commitments := Function.update registry.commitments height (some blobId)
          latestHeight := height })) := by
  simp only [settleAs, bind_eq_ok, assertCanAct_eq_ok, exists_const] at h
  obtain ⟨hact, h⟩ := h
  refine ⟨hact, ?_⟩
  obtain ⟨heq, -, hr, hi⟩ | hnext := doSettle_cases h
  · exact .inl ⟨heq, hr, hi⟩
  · exact .inr hnext

theorem settleAs_uid (h : settleAs registry inbox now blobId height blockTs inboxCursor sender
      = .ok (registry', inbox')) : registry'.uid = registry.uid := by
  obtain ⟨-, ⟨-, rfl, -⟩ | ⟨-, -, rfl⟩⟩ := settleAs_cases h <;> rfl

theorem requestWindowChange_cases
    (h : requestWindowChange registry inbox now newWindowMs delayMs ops = .ok inbox') :
    ops.forId = registry.uid.id ∧
      inbox.stageWindowChange newWindowMs delayMs now = .ok inbox' := by
  simpa only [requestWindowChange, bind_eq_ok, assertOpsCap_eq_ok, exists_const] using h

theorem cancelWindowChange_cases (h : cancelWindowChange registry inbox ops = .ok inbox') :
    ops.forId = registry.uid.id ∧ inbox.cancelWindowChange = .ok inbox' := by
  simpa only [cancelWindowChange, bind_eq_ok, assertOpsCap_eq_ok, exists_const] using h

theorem entombSettlerCapOps_eq_ok {cap : SettlerCap} {opsId : ObjectId}
    {r : Registry × OpsCap × Address} :
    entombSettlerCapOps cap registry sender opsId = .ok r ↔
      registry.uid.record = none ∧ registry.uid.opsMinted = false ∧ registry.uid.tomb = none ∧
      r = ({ registry with uid := { registry.uid with
        tomb := some cap, record := some ⟨sender, none, none⟩, opsMinted := true } },
        ⟨opsId, registry.uid.id⟩, sender) := by
  simp only [entombSettlerCapOps, bind_eq_ok, entombOps_eq_ok, pure_eq_ok]
  constructor
  · rintro ⟨_, ⟨h₁, h₂, h₃, rfl⟩, rfl⟩; exact ⟨h₁, h₂, h₃, rfl⟩
  · rintro ⟨h₁, h₂, h₃, rfl⟩; exact ⟨_, ⟨h₁, h₂, h₃, rfl⟩, rfl⟩

end Settlement

end Podseq.Move
