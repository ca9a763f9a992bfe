import Podseq.Move.Basic

/-! # `podseq::rotation`: the authority record of a guarded object

Each guarded object (a Registry or a Vault) carries three dynamic fields of this module: the
authority record, the entombed capability and the marker of the one `OpsCap` minted for it.
-/
namespace Podseq.Move.Rotation
open Podseq.Lib

/-! ## Error codes and bounds -/

def eNotAuthorized : Abort := .code .rotation 0
def eNoPending : Abort := .code .rotation 1
def eNotClaimTarget : Abort := .code .rotation 2
def eClaimTooEarly : Abort := .code .rotation 3
def eClaimWindowExpired : Abort := .code .rotation 4
def eDelayOutOfBounds : Abort := .code .rotation 5
def eNoPrevious : Abort := .code .rotation 6
def eAlreadyEntombed : Abort := .code .rotation 7
def eOpsRequired : Abort := .code .rotation 8
def eOpsMismatch : Abort := .code .rotation 9
def eOpsMinted : Abort := .code .rotation 10

def minDelayMs : Nat := 600000
def maxDelayMs : Nat := 604800000
def claimWindowMs : Nat := 604800000
def prevGraceMs : Nat := 600000

/-! ## Data -/

structure PendingRotation where
  toAddr : Address
  eligibleAtMs : Nat
deriving DecidableEq, Repr

structure PreviousAuthority where
  addr : Address
  untilMs : Nat
deriving DecidableEq, Repr

structure RotationState where
  authority : Address
  prev : Option PreviousAuthority
  pending : Option PendingRotation
deriving DecidableEq, Repr

/-- The steering capability, bound to one guarded object. -/
structure OpsCap where
  id : ObjectId
  forId : ObjectId
deriving DecidableEq, Repr

/-- The `UID` of a guarded object with the dynamic fields of this module: `StateKey`,
`TombKey` (a capability of type `κ`) and `OpsMintedKey`. -/
structure Guarded (κ : Type) where
  id : ObjectId
  record : Option RotationState
  tomb : Option κ
  opsMinted : Bool
deriving DecidableEq, Repr

variable {κ : Type}

/-- `object::new`: an id with no dynamic fields. -/
def Guarded.new (id : ObjectId) : Guarded κ := ⟨id, none, none, false⟩

/-! ## Entry points -/

/-- Tombstoned: every call aborts. -/
def entomb (_parent : Guarded κ) (_cap : κ) : Tx (Guarded κ) := .error eOpsRequired

/-- Mints the `OpsCap` of `parent` under the fresh id `opsId` and sends it to `recipient`. -/
def mintAndTransfer (parent : Guarded κ) (recipient : Address) (opsId : ObjectId) :
    OpsCap × Address :=
  (⟨opsId, parent.id⟩, recipient)

/-- Entombs `cap` on `parent`, makes the sender the authority and mints the `OpsCap` to it.
Whether `cap` was created together with `parent` is not checked. -/
def entombOps (parent : Guarded κ) (cap : κ) (sender : Address) (opsId : ObjectId) :
    Tx (Guarded κ × OpsCap × Address) := do
  require (parent.record = none) eAlreadyEntombed
  require (parent.opsMinted = false) eOpsMinted
  require (parent.tomb.isNone) .fieldExists
  let parent := { parent with
    tomb := some cap
    record := some { authority := sender, prev := none, pending := none }
    opsMinted := true }
  return (parent, mintAndTransfer parent sender opsId)

def state (parent : Guarded κ) : Tx RotationState :=
  match parent.record with
  | some st => .ok st
  | none => .error .fieldMissing

def assertIsAuthority (parent : Guarded κ) (sender : Address) : Tx Unit := do
  let st ← state parent
  require (sender = st.authority) eNotAuthorized

/-- The one-shot custody ceremony of objects entombed before the `OpsCap` existed. -/
def mintOpsCap (parent : Guarded κ) (recipient sender : Address) (opsId : ObjectId) :
    Tx (Guarded κ × OpsCap × Address) := do
  assertIsAuthority parent sender
  require (parent.opsMinted = false) eOpsMinted
  let parent := { parent with opsMinted := true }
  return (parent, mintAndTransfer parent recipient opsId)

/-- The previous authority inside its grace window. -/
def prevInGrace (st : RotationState) (now : Nat) (sender : Address) : Bool :=
  match st.prev with
  | some prev => prev.addr = sender ∧ now ≤ prev.untilMs
  | none => false

/-- Aborts unless the sender is the authority, or the previous one in grace. -/
def assertCanAct (parent : Guarded κ) (now : Nat) (sender : Address) : Tx Unit := do
  let st ← state parent
  require (sender = st.authority ∨ prevInGrace st now sender) eNotAuthorized

/-- Tombstoned: every call aborts. -/
def requestRotation (_parent : Guarded κ) (_toAddr : Address) (_delayMs : Nat) : Tx (Guarded κ) :=
  .error eOpsRequired

/-- Aborts unless `ops` steers `parent`; the sender is never read. -/
def assertOpsCap (parent : Guarded κ) (ops : OpsCap) : Tx Unit :=
  require (ops.forId = parent.id) eOpsMismatch

def requestRotationOps (parent : Guarded κ) (toAddr : Address) (delayMs now : Nat) (ops : OpsCap) :
    Tx (Guarded κ) := do
  assertOpsCap parent ops
  require (minDelayMs ≤ delayMs ∧ delayMs ≤ maxDelayMs) eDelayOutOfBounds
  let eligibleAtMs ← addU64 now delayMs
  let st ← state parent
  return { parent with record := some { st with pending := some ⟨toAddr, eligibleAtMs⟩ } }

def cancelRotation (parent : Guarded κ) (sender : Address) : Tx (Guarded κ) := do
  assertIsAuthority parent sender
  let st ← state parent
  require (st.pending.isSome) eNoPending
  return { parent with record := some { st with pending := none } }

/-- Claims the authority: the pending target only, inside the claim window. -/
def claimRotation (parent : Guarded κ) (now : Nat) (sender : Address) : Tx (Guarded κ) := do
  let st ← state parent
  match st.pending with
  | none => .error eNoPending
  | some pending =>
    require (sender = pending.toAddr) eNotClaimTarget
    require (pending.eligibleAtMs ≤ now) eClaimTooEarly
    let expiry ← addU64 pending.eligibleAtMs claimWindowMs
    require (now ≤ expiry) eClaimWindowExpired
    let prevUntilMs ← addU64 now prevGraceMs
    let st := { authority := sender, prev := some ⟨st.authority, prevUntilMs⟩, pending := none }
    return { parent with record := some st }

def retirePrevious (parent : Guarded κ) (sender : Address) : Tx (Guarded κ) := do
  assertIsAuthority parent sender
  let st ← state parent
  require (st.prev.isSome) eNoPrevious
  return { parent with record := some { st with prev := none } }

/-! ## What the calls can do -/

variable {parent parent' : Guarded κ} {cap : κ} {sender recipient toAddr : Address}
  {now delayMs : Nat} {opsId : ObjectId} {ops : OpsCap}

@[simp] theorem state_eq_ok {st : RotationState} :
    state parent = .ok st ↔ parent.record = some st := by
  unfold state; split <;> simp_all

/-- The sender may act for the object: the authority, or the previous one in its grace. -/
def CanAct (parent : Guarded κ) (now : Nat) (sender : Address) : Prop :=
  ∃ st, parent.record = some st ∧ (sender = st.authority ∨ prevInGrace st now sender)

@[simp] theorem assertCanAct_eq_ok {u : Unit} :
    assertCanAct parent now sender = .ok u ↔ CanAct parent now sender := by
  simp [assertCanAct, CanAct]

@[simp] theorem assertOpsCap_eq_ok {u : Unit} :
    assertOpsCap parent ops = .ok u ↔ ops.forId = parent.id := by
  simp [assertOpsCap]

/-- What an entombment does: the object had no record and no marker, the sender becomes the
authority, and the minted `OpsCap` is bound to the object and sent to the sender. -/
theorem entombOps_eq_ok {r : Guarded κ × OpsCap × Address} :
    entombOps parent cap sender opsId = .ok r ↔
      parent.record = none ∧ parent.opsMinted = false ∧ parent.tomb = none ∧
      r = ({ parent with
        tomb := some cap, record := some ⟨sender, none, none⟩, opsMinted := true },
        ⟨opsId, parent.id⟩, sender) := by
  simp only [entombOps, mintAndTransfer, bind_eq_ok, require_eq_ok, pure_eq_ok, exists_const,
    Option.isNone_iff_eq_none, eq_comm (b := r)]

/-- What no operation after the entombment changes: the identity of the object, its entombed
capability, its mint marker and the presence of its record. -/
structure Kept (parent parent' : Guarded κ) : Prop where
  id : parent'.id = parent.id
  tomb : parent'.tomb = parent.tomb
  opsMinted : parent'.opsMinted = parent.opsMinted
  record : parent'.record.isSome = parent.record.isSome

theorem Kept.refl (parent : Guarded κ) : Kept parent parent := ⟨rfl, rfl, rfl, rfl⟩

/-- A mint outside the entombment: by the authority, once. -/
theorem mintOpsCap_eq_ok {r : Guarded κ × OpsCap × Address} :
    mintOpsCap parent recipient sender opsId = .ok r ↔
      (∃ st, parent.record = some st ∧ sender = st.authority) ∧ parent.opsMinted = false ∧
      r = ({ parent with opsMinted := true }, ⟨opsId, parent.id⟩, recipient) := by
  simp only [mintOpsCap, assertIsAuthority, mintAndTransfer, bind_eq_ok, state_eq_ok,
    require_eq_ok, pure_eq_ok, exists_const, eq_comm (b := r)]

/-- A request: with the object's `OpsCap`, it replaces any pending one. -/
theorem requestRotationOps_eq_ok :
    requestRotationOps parent toAddr delayMs now ops = .ok parent' ↔
      ops.forId = parent.id ∧ (minDelayMs ≤ delayMs ∧ delayMs ≤ maxDelayMs) ∧
      now + delayMs ≤ u64Max ∧ ∃ st, parent.record = some st ∧
        parent' = { parent with
          record := some { st with pending := some ⟨toAddr, now + delayMs⟩ } } := by
  simp only [requestRotationOps, bind_eq_ok, assertOpsCap_eq_ok, require_eq_ok, addU64_eq_ok,
    state_eq_ok, pure_eq_ok, exists_const, eq_comm (b := parent')]
  constructor
  · rintro ⟨hid, hdelay, _, ⟨hfit, rfl⟩, st, hst, heq⟩
    exact ⟨hid, hdelay, hfit, st, hst, heq⟩
  · rintro ⟨hid, hdelay, hfit, st, hst, heq⟩
    exact ⟨hid, hdelay, _, ⟨hfit, rfl⟩, st, hst, heq⟩

theorem cancelRotation_eq_ok :
    cancelRotation parent sender = .ok parent' ↔
      ∃ st, parent.record = some st ∧ sender = st.authority ∧ st.pending.isSome ∧
        parent' = { parent with record := some { st with pending := none } } := by
  simp only [cancelRotation, assertIsAuthority, bind_eq_ok, state_eq_ok, require_eq_ok,
    pure_eq_ok, exists_const, eq_comm (b := parent')]
  constructor
  · rintro ⟨⟨st, hst, hauth⟩, st', hst', hpend, heq⟩
    rw [hst] at hst'; cases hst'
    exact ⟨st, hst, hauth, hpend, heq⟩
  · rintro ⟨st, hst, hauth, hpend, heq⟩
    exact ⟨⟨st, hst, hauth⟩, st, hst, hpend, heq⟩

/-- A claim: by the target of the pending request inside its window; the replaced authority
starts its grace. -/
theorem claimRotation_eq_ok :
    claimRotation parent now sender = .ok parent' ↔
      ∃ st p, parent.record = some st ∧ st.pending = some p ∧ sender = p.toAddr ∧
        p.eligibleAtMs ≤ now ∧ p.eligibleAtMs + claimWindowMs ≤ u64Max ∧
        now ≤ p.eligibleAtMs + claimWindowMs ∧ now + prevGraceMs ≤ u64Max ∧
        parent' = { parent with
          record := some ⟨sender, some ⟨st.authority, now + prevGraceMs⟩, none⟩ } := by
  simp only [claimRotation, bind_eq_ok, state_eq_ok]
  constructor
  · rintro ⟨st, hst, h⟩
    cases hpend : st.pending with
    | none => rw [hpend] at h; cases h
    | some p =>
      rw [hpend] at h
      simp only [bind_eq_ok, require_eq_ok, addU64_eq_ok, pure_eq_ok, exists_const] at h
      obtain ⟨hto, helig, _, ⟨hfit, rfl⟩, hwin, _, ⟨hgrace, rfl⟩, rfl⟩ := h
      exact ⟨st, p, hst, hpend, hto, helig, hfit, hwin, hgrace, rfl⟩
  · rintro ⟨st, p, hst, hpend, hto, helig, hfit, hwin, hgrace, rfl⟩
    refine ⟨st, hst, ?_⟩
    rw [hpend]
    simp only [bind_eq_ok, require_eq_ok, addU64_eq_ok, pure_eq_ok, exists_const]
    exact ⟨hto, helig, _, ⟨hfit, rfl⟩, hwin, _, ⟨hgrace, rfl⟩, rfl⟩

theorem retirePrevious_eq_ok :
    retirePrevious parent sender = .ok parent' ↔
      ∃ st, parent.record = some st ∧ sender = st.authority ∧ st.prev.isSome ∧
        parent' = { parent with record := some { st with prev := none } } := by
  simp only [retirePrevious, assertIsAuthority, bind_eq_ok, state_eq_ok, require_eq_ok,
    pure_eq_ok, exists_const, eq_comm (b := parent')]
  constructor
  · rintro ⟨⟨st, hst, hauth⟩, st', hst', hprev, heq⟩
    rw [hst] at hst'; cases hst'
    exact ⟨st, hst, hauth, hprev, heq⟩
  · rintro ⟨st, hst, hauth, hprev, heq⟩
    exact ⟨⟨st, hst, hauth⟩, st, hst, hprev, heq⟩

theorem requestRotationOps_kept
    (h : requestRotationOps parent toAddr delayMs now ops = .ok parent') : Kept parent parent' := by
  obtain ⟨-, -, -, st, hst, rfl⟩ := requestRotationOps_eq_ok.1 h
  exact ⟨rfl, rfl, rfl, by simp [hst]⟩

theorem cancelRotation_kept (h : cancelRotation parent sender = .ok parent') :
    Kept parent parent' := by
  obtain ⟨st, hst, -, -, rfl⟩ := cancelRotation_eq_ok.1 h
  exact ⟨rfl, rfl, rfl, by simp [hst]⟩

theorem claimRotation_kept (h : claimRotation parent now sender = .ok parent') :
    Kept parent parent' := by
  obtain ⟨st, p, hst, -, -, -, -, -, -, rfl⟩ := claimRotation_eq_ok.1 h
  exact ⟨rfl, rfl, rfl, by simp [hst]⟩

theorem retirePrevious_kept (h : retirePrevious parent sender = .ok parent') :
    Kept parent parent' := by
  obtain ⟨st, hst, -, -, rfl⟩ := retirePrevious_eq_ok.1 h
  exact ⟨rfl, rfl, rfl, by simp [hst]⟩

end Podseq.Move.Rotation
