import Podseq.Move.Bridge
import Podseq.Move.Settlement

/-! # `podseq::settlement`: custody of the package's upgrades

The `UpgradeCap` of the package is entombed in the Registry, and every call on it is gated by
the Registry's `OpsCap`, the capability that also steers rotation and the inclusion window.
What the framework does with the cap itself is a parameter.
-/
namespace Podseq.Move
open Podseq.Lib Rotation

/-- `sui::package`: upgrade caps `υ`, tickets `τ` and receipts `ρ`. -/
structure UpgradeFramework (υ τ ρ : Type) where
  additivePolicy : Nat
  depOnlyPolicy : Nat
  authorizeUpgrade : υ → Nat → Bytes → Tx (υ × τ)
  commitUpgrade : υ → ρ → Tx υ
  onlyAdditiveUpgrades : υ → Tx υ
  onlyDepUpgrades : υ → Tx υ

/-- A Registry with its dynamic field `UpgradeKey`. -/
structure RegistryCustody (υ : Type) where
  registry : Registry
  upgrade : Option υ

namespace Settlement

def eNoUpgradeCap : Abort := .code .settlement 7
def eUpgradeCapPresent : Abort := .code .settlement 8
def eTooPermissive : Abort := .code .settlement 9

variable {υ τ ρ : Type}

/-- Entombs the package's `UpgradeCap`; the rotation state of the Registry must exist. -/
def entombUpgradeCap (cap : υ) (r : RegistryCustody υ) (ops : OpsCap) : Tx (RegistryCustody υ) := do
  assertOpsCap r.registry.uid ops
  let _ ← state r.registry.uid
  require (r.upgrade.isNone) eUpgradeCapPresent
  return { r with upgrade := some cap }

def upgradeCap (r : RegistryCustody υ) : Tx υ :=
  match r.upgrade with
  | some cap => .ok cap
  | none => .error eNoUpgradeCap

def authorizePackageUpgrade (fw : UpgradeFramework υ τ ρ) (r : RegistryCustody υ) (ops : OpsCap)
    (policy : Nat) (digest : Bytes) : Tx (RegistryCustody υ × τ) := do
  assertOpsCap r.registry.uid ops
  let cap ← upgradeCap r
  let (cap, ticket) ← fw.authorizeUpgrade cap policy digest
  return ({ r with upgrade := some cap }, ticket)

def commitPackageUpgrade (fw : UpgradeFramework υ τ ρ) (r : RegistryCustody υ) (ops : OpsCap)
    (receipt : ρ) : Tx (RegistryCustody υ) := do
  assertOpsCap r.registry.uid ops
  let cap ← upgradeCap r
  let cap ← fw.commitUpgrade cap receipt
  return { r with upgrade := some cap }

def restrictPackageUpgrades (fw : UpgradeFramework υ τ ρ) (r : RegistryCustody υ) (ops : OpsCap)
    (policy : Nat) : Tx (RegistryCustody υ) := do
  assertOpsCap r.registry.uid ops
  let cap ← upgradeCap r
  if policy = fw.additivePolicy then
    let cap ← fw.onlyAdditiveUpgrades cap
    return { r with upgrade := some cap }
  else if policy = fw.depOnlyPolicy then
    let cap ← fw.onlyDepUpgrades cap
    return { r with upgrade := some cap }
  else .error eTooPermissive

def freezePackage (r : RegistryCustody υ) (ops : OpsCap) : Tx (RegistryCustody υ) := do
  assertOpsCap r.registry.uid ops
  let _ ← upgradeCap r
  return { r with upgrade := none }

/-- The calls on a Registry that its `OpsCap` gates. -/
inductive SteeringCall (υ ρ : Type)
  | requestRotationOps (toAddr : Address) (delayMs : Nat)
  | requestWindowChange (newWindowMs delayMs : Nat)
  | cancelWindowChange
  | entombUpgradeCap (cap : υ)
  | authorizePackageUpgrade (policy : Nat) (digest : Bytes)
  | commitPackageUpgrade (receipt : ρ)
  | restrictPackageUpgrades (policy : Nat)
  | freezePackage

/-- One of these calls; a ticket is consumed in the transaction that got it. -/
def steer (fw : UpgradeFramework υ τ ρ) (r : RegistryCustody υ) (inbox : Inbox) (now : Nat)
    (ops : OpsCap) : SteeringCall υ ρ → Tx (RegistryCustody υ × Inbox)
  | .requestRotationOps toAddr delayMs => do
    let registry ← requestRotationOps r.registry now toAddr delayMs ops
    return ({ r with registry }, inbox)
  | .requestWindowChange newWindowMs delayMs => do
    let inbox ← requestWindowChange r.registry inbox now newWindowMs delayMs ops
    return (r, inbox)
  | .cancelWindowChange => do
    let inbox ← cancelWindowChange r.registry inbox ops
    return (r, inbox)
  | .entombUpgradeCap cap => do
    let r ← entombUpgradeCap cap r ops
    return (r, inbox)
  | .authorizePackageUpgrade policy digest => do
    let (r, _) ← authorizePackageUpgrade fw r ops policy digest
    return (r, inbox)
  | .commitPackageUpgrade receipt => do
    let r ← commitPackageUpgrade fw r ops receipt
    return (r, inbox)
  | .restrictPackageUpgrades policy => do
    let r ← restrictPackageUpgrades fw r ops policy
    return (r, inbox)
  | .freezePackage => do
    let r ← freezePackage r ops
    return (r, inbox)

/-- Each of them begins with the check of the `OpsCap`. -/
theorem steer_forId {fw : UpgradeFramework υ τ ρ} {r : RegistryCustody υ} {inbox : Inbox}
    {now : Nat} {ops : OpsCap} {call : SteeringCall υ ρ} {x : RegistryCustody υ × Inbox}
    (h : steer fw r inbox now ops call = .ok x) : ops.forId = r.registry.uid.id := by
  cases call with
  | requestRotationOps toAddr delayMs =>
    simp only [steer, requestRotationOps, bind_eq_ok, requestRotationOps_eq_ok] at h
    obtain ⟨-, ⟨-, ⟨hid, -⟩, -⟩, -⟩ := h
    exact hid
  | requestWindowChange newWindowMs delayMs =>
    simp only [steer, bind_eq_ok] at h
    obtain ⟨inbox', hok, -⟩ := h
    exact (requestWindowChange_cases hok).1
  | cancelWindowChange =>
    simp only [steer, bind_eq_ok] at h
    obtain ⟨inbox', hok, -⟩ := h
    exact (cancelWindowChange_cases hok).1
  | entombUpgradeCap cap =>
    simp only [steer, entombUpgradeCap, bind_eq_ok, assertOpsCap_eq_ok] at h
    obtain ⟨-, ⟨-, hid, -⟩, -⟩ := h
    exact hid
  | authorizePackageUpgrade policy digest =>
    simp only [steer, authorizePackageUpgrade, bind_eq_ok, assertOpsCap_eq_ok] at h
    obtain ⟨-, ⟨-, hid, -⟩, -⟩ := h
    exact hid
  | commitPackageUpgrade receipt =>
    simp only [steer, commitPackageUpgrade, bind_eq_ok, assertOpsCap_eq_ok] at h
    obtain ⟨-, ⟨-, hid, -⟩, -⟩ := h
    exact hid
  | restrictPackageUpgrades policy =>
    simp only [steer, restrictPackageUpgrades, bind_eq_ok, assertOpsCap_eq_ok] at h
    obtain ⟨-, ⟨-, hid, -⟩, -⟩ := h
    exact hid
  | freezePackage =>
    simp only [steer, freezePackage, bind_eq_ok, assertOpsCap_eq_ok] at h
    obtain ⟨-, ⟨-, hid, -⟩, -⟩ := h
    exact hid

end Settlement

end Podseq.Move
