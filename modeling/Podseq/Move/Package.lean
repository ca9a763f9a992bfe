import Podseq.Move.Bridge
import Podseq.Move.Settlement

/-! # The published package: shared objects, owned capabilities and calls by anyone

Every `initialize` is public, so the population of Registries, Inboxes, Vaults and capabilities
is whatever the callers make it. A call names its arguments by object id; the chain supplies
the shared objects and checks that an owned argument belongs to the sender.
-/
namespace Podseq.Move
open Podseq.Lib Rotation

inductive RegistryCall
  | commitStateRoot (height : Nat) (stateRoot : Bytes)
  | requestRotationOps (toAddr : Address) (delayMs : Nat) (ops : ObjectId)
  | cancelRotation
  | claimRotation
  | retirePrevious
deriving DecidableEq, Repr

inductive VaultCall
  | deposit (T : CoinType) (amount : Nat) (recipientL2 : Bytes)
  | withdrawAs (T : CoinType) (recipient : Address) (amount l2Nonce : Nat)
  | requestRotationOps (toAddr : Address) (delayMs : Nat) (ops : ObjectId)
  | cancelRotation
  | claimRotation
  | retirePrevious
deriving DecidableEq, Repr

inductive Call
  /-- The consensus clock moves on. -/
  | tick (now : Nat)
  | initializeSettlement
  | initializeInbox
  | initializeBridge
  | entombSettlerCapOps (cap registry : ObjectId)
  | entombBridgeCapOps (cap vault : ObjectId)
  /-- `transfer::public_transfer` of an owned capability. -/
  | transferSettlerCap (cap : ObjectId) (recipient : Address)
  | transferBridgeCap (cap : ObjectId) (recipient : Address)
  | transferOpsCap (ops : ObjectId) (recipient : Address)
  | retireOpsCap (ops : ObjectId)
  | submit (inbox : ObjectId) (txBytes : Bytes)
  | settleAs (registry inbox : ObjectId) (blobId : Bytes) (height blockTs inboxCursor : Nat)
  | requestWindowChange (registry inbox : ObjectId) (newWindowMs delayMs : Nat) (ops : ObjectId)
  | cancelWindowChange (registry inbox : ObjectId) (ops : ObjectId)
  | onRegistry (registry : ObjectId) (call : RegistryCall)
  | onVault (vault : ObjectId) (call : VaultCall)
deriving DecidableEq, Repr

structure World where
  now : Nat
  /-- Object ids are never reused: the next fresh one. -/
  nextId : ObjectId
  registries : Table ObjectId Registry
  inboxes : Table ObjectId Inbox
  vaults : Table ObjectId Vault
  /-- The owner of each `SettlerCap` that is not entombed. -/
  settlerCaps : Table ObjectId Address
  /-- The owner of each `BridgeCap` that is not entombed. -/
  bridgeCaps : Table ObjectId Address
  /-- Each `OpsCap` with its owner. -/
  opsCaps : Table ObjectId (OpsCap × Address)

namespace World

def published (now : Nat) : World :=
  { now, nextId := 0, registries := Table.empty, inboxes := Table.empty, vaults := Table.empty,
    settlerCaps := Table.empty, bridgeCaps := Table.empty, opsCaps := Table.empty }

/-- A shared object named by a call. -/
def input {α : Type} (objects : Table ObjectId α) (id : ObjectId) : Tx α :=
  match objects id with
  | some object => .ok object
  | none => .error .badInput

/-- The `OpsCap` a call presents: the sender has to own it. -/
def ownedOps (w : World) (sender : Address) (ops : ObjectId) : Tx OpsCap :=
  match w.opsCaps ops with
  | some (cap, owner) => if owner = sender then .ok cap else .error .badInput
  | none => .error .badInput

def registryCall (w : World) (sender : Address) (registry : Registry) : RegistryCall → Tx Registry
  | .commitStateRoot height stateRoot =>
    Settlement.commitStateRoot registry w.now height stateRoot sender
  | .requestRotationOps toAddr delayMs ops => do
    let cap ← w.ownedOps sender ops
    Settlement.requestRotationOps registry w.now toAddr delayMs cap
  | .cancelRotation => Settlement.cancelRotation registry sender
  | .claimRotation => Settlement.claimRotation registry w.now sender
  | .retirePrevious => Settlement.retirePrevious registry sender

def vaultCall (w : World) (sender : Address) (vault : Vault) : VaultCall → Tx Vault
  | .deposit T amount recipientL2 => vault.deposit T amount recipientL2
  | .withdrawAs T recipient amount l2Nonce => do
    let (vault, _) ← vault.withdrawAs T w.now recipient amount l2Nonce sender
    return vault
  | .requestRotationOps toAddr delayMs ops => do
    let cap ← w.ownedOps sender ops
    vault.requestRotationOps w.now toAddr delayMs cap
  | .cancelRotation => vault.cancelRotation sender
  | .claimRotation => vault.claimRotation w.now sender
  | .retirePrevious => vault.retirePrevious sender

/-- One call by `sender`. -/
def call (w : World) (sender : Address) : Call → Tx World
  | .tick now => do
    require (w.now ≤ now) .badInput
    return { w with now }
  | .initializeSettlement =>
    return { w with
      nextId := w.nextId + 2
      registries := Function.update w.registries w.nextId
        (some (Settlement.initializeRegistry w.nextId))
      settlerCaps := Function.update w.settlerCaps (w.nextId + 1) (some sender) }
  | .initializeInbox =>
    return { w with
      nextId := w.nextId + 1
      inboxes := Function.update w.inboxes w.nextId (some (Inbox.initializeInbox w.nextId)) }
  | .initializeBridge =>
    return { w with
      nextId := w.nextId + 2
      vaults := Function.update w.vaults w.nextId (some (Vault.initializeVault w.nextId))
      bridgeCaps := Function.update w.bridgeCaps (w.nextId + 1) (some sender) }
  -- the capability is consumed, and an `OpsCap` takes its place
  | .entombSettlerCapOps cap registry => do
    require (w.settlerCaps cap = some sender) .badInput
    let r ← input w.registries registry
    let (r, ops, recipient) ← Settlement.entombSettlerCapOps ⟨cap⟩ r sender w.nextId
    return { w with
      nextId := w.nextId + 1
      registries := Function.update w.registries registry (some r)
      settlerCaps := Function.update w.settlerCaps cap none
      opsCaps := Function.update w.opsCaps w.nextId (some (ops, recipient)) }
  | .entombBridgeCapOps cap vault => do
    require (w.bridgeCaps cap = some sender) .badInput
    let v ← input w.vaults vault
    let (v, ops, recipient) ← Vault.entombBridgeCapOps ⟨cap⟩ v sender w.nextId
    return { w with
      nextId := w.nextId + 1
      vaults := Function.update w.vaults vault (some v)
      bridgeCaps := Function.update w.bridgeCaps cap none
      opsCaps := Function.update w.opsCaps w.nextId (some (ops, recipient)) }
  | .transferSettlerCap cap recipient => do
    require (w.settlerCaps cap = some sender) .badInput
    return { w with settlerCaps := Function.update w.settlerCaps cap (some recipient) }
  | .transferBridgeCap cap recipient => do
    require (w.bridgeCaps cap = some sender) .badInput
    return { w with bridgeCaps := Function.update w.bridgeCaps cap (some recipient) }
  | .transferOpsCap ops recipient => do
    let cap ← w.ownedOps sender ops
    return { w with opsCaps := Function.update w.opsCaps ops (some (cap, recipient)) }
  | .retireOpsCap ops => do
    let _ ← w.ownedOps sender ops
    return { w with opsCaps := Function.update w.opsCaps ops none }
  | .submit inbox txBytes => do
    let i ← input w.inboxes inbox
    let i ← i.submit w.now txBytes
    return { w with inboxes := Function.update w.inboxes inbox (some i) }
  | .settleAs registry inbox blobId height blockTs inboxCursor => do
    let r ← input w.registries registry
    let i ← input w.inboxes inbox
    let (r, i) ← Settlement.settleAs r i w.now blobId height blockTs inboxCursor sender
    return { w with
      registries := Function.update w.registries registry (some r)
      inboxes := Function.update w.inboxes inbox (some i) }
  | .requestWindowChange registry inbox newWindowMs delayMs ops => do
    let r ← input w.registries registry
    let i ← input w.inboxes inbox
    let cap ← w.ownedOps sender ops
    let i ← Settlement.requestWindowChange r i w.now newWindowMs delayMs cap
    return { w with inboxes := Function.update w.inboxes inbox (some i) }
  | .cancelWindowChange registry inbox ops => do
    let r ← input w.registries registry
    let i ← input w.inboxes inbox
    let cap ← w.ownedOps sender ops
    let i ← Settlement.cancelWindowChange r i cap
    return { w with inboxes := Function.update w.inboxes inbox (some i) }
  | .onRegistry registry call => do
    let r ← input w.registries registry
    let r ← w.registryCall sender r call
    return { w with registries := Function.update w.registries registry (some r) }
  | .onVault vault call => do
    let v ← input w.vaults vault
    let v ← w.vaultCall sender v call
    return { w with vaults := Function.update w.vaults vault (some v) }

variable {w w' : World} {sender : Address} {c : Call}

@[simp] theorem input_eq_ok {α : Type} {objects : Table ObjectId α} {id : ObjectId} {a : α} :
    input objects id = .ok a ↔ objects id = some a := by
  unfold input; split <;> simp_all

@[simp] theorem ownedOps_eq_ok {ops : ObjectId} {cap : OpsCap} :
    w.ownedOps sender ops = .ok cap ↔ w.opsCaps ops = some (cap, sender) := by
  unfold ownedOps
  split
  · split <;> simp_all
  · simp_all

/-! ## What the calls on one object keep -/

theorem registryCall_kept {r r' : Registry} {call : RegistryCall}
    (h : w.registryCall sender r call = .ok r') :
    Kept r.uid r'.uid ∧ r'.latestHeight = r.latestHeight := by
  cases call with
  | commitStateRoot height stateRoot =>
    simp only [registryCall, Settlement.commitStateRoot, bind_eq_ok, assertCanAct_eq_ok,
      require_eq_ok, exists_const] at h
    obtain ⟨-, -, -, h⟩ := h
    split at h
    · simp only [bind_eq_ok, require_eq_ok, exists_const, pure_eq_ok] at h
      obtain ⟨-, rfl⟩ := h; exact ⟨.refl _, rfl⟩
    · cases h; exact ⟨.refl _, rfl⟩
  | requestRotationOps toAddr delayMs ops =>
    simp only [registryCall, Settlement.requestRotationOps, bind_eq_ok, pure_eq_ok] at h
    obtain ⟨cap, -, uid, hu, rfl⟩ := h; exact ⟨requestRotationOps_kept hu, rfl⟩
  | cancelRotation =>
    simp only [registryCall, Settlement.cancelRotation, bind_eq_ok, pure_eq_ok] at h
    obtain ⟨uid, hu, rfl⟩ := h; exact ⟨cancelRotation_kept hu, rfl⟩
  | claimRotation =>
    simp only [registryCall, Settlement.claimRotation, bind_eq_ok, pure_eq_ok] at h
    obtain ⟨uid, hu, rfl⟩ := h; exact ⟨claimRotation_kept hu, rfl⟩
  | retirePrevious =>
    simp only [registryCall, Settlement.retirePrevious, bind_eq_ok, pure_eq_ok] at h
    obtain ⟨uid, hu, rfl⟩ := h; exact ⟨retirePrevious_kept hu, rfl⟩

theorem vaultCall_kept {v v' : Vault} {call : VaultCall}
    (h : w.vaultCall sender v call = .ok v') : Kept v.uid v'.uid := by
  cases call with
  | deposit T amount recipientL2 =>
    obtain ⟨-, -, -, -, -, rfl⟩ := Vault.deposit_cases h
    exact .refl _
  | withdrawAs T recipient amount l2Nonce =>
    simp only [vaultCall, bind_eq_ok, pure_eq_ok] at h
    obtain ⟨r, hr, rfl⟩ := h
    obtain ⟨-, ⟨-, rfl⟩ | ⟨-, -, -, rfl⟩⟩ := Vault.withdrawAs_cases hr <;> exact .refl _
  | requestRotationOps toAddr delayMs ops =>
    simp only [vaultCall, Vault.requestRotationOps, bind_eq_ok, pure_eq_ok] at h
    obtain ⟨cap, -, uid, hu, rfl⟩ := h; exact requestRotationOps_kept hu
  | cancelRotation =>
    simp only [vaultCall, Vault.cancelRotation, bind_eq_ok, pure_eq_ok] at h
    obtain ⟨uid, hu, rfl⟩ := h; exact cancelRotation_kept hu
  | claimRotation =>
    simp only [vaultCall, Vault.claimRotation, bind_eq_ok, pure_eq_ok] at h
    obtain ⟨uid, hu, rfl⟩ := h; exact claimRotation_kept hu
  | retirePrevious =>
    simp only [vaultCall, Vault.retirePrevious, bind_eq_ok, pure_eq_ok] at h
    obtain ⟨uid, hu, rfl⟩ := h; exact retirePrevious_kept hu

/-! ## What one call does to each kind of object -/

/-- What one call does to the registries. -/
theorem call_registries (h : w.call sender c = .ok w') :
    w'.registries = w.registries ∨
    (c = .initializeSettlement ∧ w'.registries = Function.update w.registries w.nextId
      (some (Settlement.initializeRegistry w.nextId))) ∨
    ∃ id r r', w.registries id = some r ∧
      w'.registries = Function.update w.registries id (some r') ∧
      (Kept r.uid r'.uid ∨ ∃ cap, c = .entombSettlerCapOps cap id ∧
        w.settlerCaps cap = some sender ∧ r.uid.record = none ∧ r'.uid = { r.uid with
          tomb := some ⟨cap⟩, record := some ⟨sender, none, none⟩, opsMinted := true }) := by
  cases c with
  | initializeSettlement => cases h; exact .inr (.inl ⟨rfl, rfl⟩)
  | entombSettlerCapOps cap registry =>
    simp only [call, bind_eq_ok, require_eq_ok, exists_const, input_eq_ok,
      Settlement.entombSettlerCapOps_eq_ok, pure_eq_ok] at h
    obtain ⟨hcap, r, hr, _, ⟨hrec, -, -, rfl⟩, rfl⟩ := h
    exact .inr (.inr ⟨registry, r, _, hr, rfl, .inr ⟨cap, rfl, hcap, hrec, rfl⟩⟩)
  | settleAs registry inbox blobId height blockTs inboxCursor =>
    simp only [call, bind_eq_ok, input_eq_ok, pure_eq_ok] at h
    obtain ⟨r, hr, i, -, ⟨r', i'⟩, hs, rfl⟩ := h
    refine .inr (.inr ⟨registry, r, r', hr, rfl, .inl ?_⟩)
    rw [Settlement.settleAs_uid hs]; exact .refl _
  | onRegistry registry call =>
    simp only [World.call, bind_eq_ok, input_eq_ok, pure_eq_ok] at h
    obtain ⟨r, hr, r', hc, rfl⟩ := h
    exact .inr (.inr ⟨registry, r, r', hr, rfl, .inl (registryCall_kept hc).1⟩)
  | _ =>
    left
    simp only [call, bind_eq_ok, pure_eq_ok] at h
    grind

/-- What one call does to the vaults. -/
theorem call_vaults (h : w.call sender c = .ok w') :
    w'.vaults = w.vaults ∨
    (c = .initializeBridge ∧ w'.vaults = Function.update w.vaults w.nextId
      (some (Vault.initializeVault w.nextId))) ∨
    ∃ id v v', w.vaults id = some v ∧
      w'.vaults = Function.update w.vaults id (some v') ∧
      (Kept v.uid v'.uid ∨ ∃ cap, c = .entombBridgeCapOps cap id ∧
        w.bridgeCaps cap = some sender ∧ v.uid.record = none ∧ v'.uid = { v.uid with
          tomb := some ⟨cap⟩, record := some ⟨sender, none, none⟩, opsMinted := true }) := by
  cases c with
  | initializeBridge => cases h; exact .inr (.inl ⟨rfl, rfl⟩)
  | entombBridgeCapOps cap vault =>
    simp only [call, bind_eq_ok, require_eq_ok, exists_const, input_eq_ok,
      Vault.entombBridgeCapOps_eq_ok, pure_eq_ok] at h
    obtain ⟨hcap, v, hv, _, ⟨hrec, -, -, rfl⟩, rfl⟩ := h
    exact .inr (.inr ⟨vault, v, _, hv, rfl, .inr ⟨cap, rfl, hcap, hrec, rfl⟩⟩)
  | onVault vault call =>
    simp only [World.call, bind_eq_ok, input_eq_ok, pure_eq_ok] at h
    obtain ⟨v, hv, v', hc, rfl⟩ := h
    exact .inr (.inr ⟨vault, v, v', hv, rfl, .inl (vaultCall_kept hc)⟩)
  | _ =>
    left
    simp only [call, bind_eq_ok, pure_eq_ok] at h
    grind

/-- Where a registry of the next state comes from. -/
theorem registry_origin (h : w.call sender c = .ok w') {id : ObjectId} {r' : Registry}
    (hr' : w'.registries id = some r') :
    (id = w.nextId ∧ c = .initializeSettlement ∧ r' = Settlement.initializeRegistry id) ∨
    ∃ r, w.registries id = some r ∧ (Kept r.uid r'.uid ∨ ∃ cap,
      c = .entombSettlerCapOps cap id ∧ w.settlerCaps cap = some sender ∧ r.uid.record = none ∧
      r'.uid = { r.uid with
        tomb := some ⟨cap⟩, record := some ⟨sender, none, none⟩, opsMinted := true }) := by
  obtain he | ⟨hc, he⟩ | ⟨id', r, r'', hr, he, hk⟩ := call_registries h <;> rw [he] at hr'
  · exact .inr ⟨r', hr', .inl (.refl _)⟩
  · by_cases hn : id = w.nextId
    · subst hn
      rw [Function.update_self, Option.some.injEq] at hr'
      exact .inl ⟨rfl, hc, hr'.symm⟩
    · rw [Function.update_of_ne hn] at hr'; exact .inr ⟨r', hr', .inl (.refl _)⟩
  · by_cases hn : id = id'
    · subst hn
      rw [Function.update_self, Option.some.injEq] at hr'
      subst hr'; exact .inr ⟨r, hr, hk⟩
    · rw [Function.update_of_ne hn] at hr'; exact .inr ⟨r', hr', .inl (.refl _)⟩

/-- Where a vault of the next state comes from. -/
theorem vault_origin (h : w.call sender c = .ok w') {id : ObjectId} {v' : Vault}
    (hv' : w'.vaults id = some v') :
    (id = w.nextId ∧ c = .initializeBridge ∧ v' = Vault.initializeVault id) ∨
    ∃ v, w.vaults id = some v ∧ (Kept v.uid v'.uid ∨ ∃ cap,
      c = .entombBridgeCapOps cap id ∧ w.bridgeCaps cap = some sender ∧ v.uid.record = none ∧
      v'.uid = { v.uid with
        tomb := some ⟨cap⟩, record := some ⟨sender, none, none⟩, opsMinted := true }) := by
  obtain he | ⟨hc, he⟩ | ⟨id', v, v'', hv, he, hk⟩ := call_vaults h <;> rw [he] at hv'
  · exact .inr ⟨v', hv', .inl (.refl _)⟩
  · by_cases hn : id = w.nextId
    · subst hn
      rw [Function.update_self, Option.some.injEq] at hv'
      exact .inl ⟨rfl, hc, hv'.symm⟩
    · rw [Function.update_of_ne hn] at hv'; exact .inr ⟨v', hv', .inl (.refl _)⟩
  · by_cases hn : id = id'
    · subst hn
      rw [Function.update_self, Option.some.injEq] at hv'
      subst hv'; exact .inr ⟨v, hv, hk⟩
    · rw [Function.update_of_ne hn] at hv'; exact .inr ⟨v', hv', .inl (.refl _)⟩

/-- How a call drives the Inbox `I`: a submission, a settle of the next height, or a window
change, each with what its gate has checked. -/
inductive Drives (w : World) (sender : Address) (I : ObjectId) (i i' : Inbox) : Call → Prop
  | submit {txBytes} (h : i.submit w.now txBytes = .ok i') :
      Drives w sender I i i' (.submit I txBytes)
  | settle {R r blobId height blockTs inboxCursor} (hr : w.registries R = some r)
      (hact : CanAct r.uid w.now sender) (hnext : height = r.latestHeight + 1)
      (h : i.enforceSettle blockTs inboxCursor = .ok i') :
      Drives w sender I i i' (.settleAs R I blobId height blockTs inboxCursor)
  | requestWindow {R r newWindowMs delayMs ops cap} (hr : w.registries R = some r)
      (hops : w.opsCaps ops = some (cap, sender)) (hid : cap.forId = r.uid.id)
      (h : i.stageWindowChange newWindowMs delayMs w.now = .ok i') :
      Drives w sender I i i' (.requestWindowChange R I newWindowMs delayMs ops)
  | cancelWindow {R r ops cap} (hr : w.registries R = some r)
      (hops : w.opsCaps ops = some (cap, sender)) (hid : cap.forId = r.uid.id)
      (h : i.cancelWindowChange = .ok i') :
      Drives w sender I i i' (.cancelWindowChange R I ops)

/-- What one call does to the inboxes. -/
theorem call_inboxes (h : w.call sender c = .ok w') :
    w'.inboxes = w.inboxes ∨
    (c = .initializeInbox ∧ w'.inboxes = Function.update w.inboxes w.nextId
      (some (Inbox.initializeInbox w.nextId))) ∨
    ∃ I i i', w.inboxes I = some i ∧ w'.inboxes = Function.update w.inboxes I (some i') ∧
      (i' = i ∨ Drives w sender I i i' c) := by
  cases c with
  | initializeInbox => cases h; exact .inr (.inl ⟨rfl, rfl⟩)
  | submit inbox txBytes =>
    simp only [call, bind_eq_ok, input_eq_ok, pure_eq_ok] at h
    obtain ⟨i, hi, i', hs, rfl⟩ := h
    exact .inr (.inr ⟨inbox, i, i', hi, rfl, .inr (.submit hs)⟩)
  | settleAs registry inbox blobId height blockTs inboxCursor =>
    simp only [call, bind_eq_ok, input_eq_ok, pure_eq_ok] at h
    obtain ⟨r, hr, i, hi, ⟨r', i'⟩, hs, rfl⟩ := h
    refine .inr (.inr ⟨inbox, i, i', hi, rfl, ?_⟩)
    obtain ⟨hact, ⟨-, -, rfl⟩ | ⟨hnext, he, -⟩⟩ := Settlement.settleAs_cases hs
    · exact .inl rfl
    · exact .inr (.settle hr hact hnext he)
  | requestWindowChange registry inbox newWindowMs delayMs ops =>
    simp only [call, bind_eq_ok, input_eq_ok, ownedOps_eq_ok, pure_eq_ok] at h
    obtain ⟨r, hr, i, hi, cap, hcap, i', hw, rfl⟩ := h
    obtain ⟨hid, hs⟩ := Settlement.requestWindowChange_cases hw
    exact .inr (.inr ⟨inbox, i, i', hi, rfl, .inr (.requestWindow hr hcap hid hs)⟩)
  | cancelWindowChange registry inbox ops =>
    simp only [call, bind_eq_ok, input_eq_ok, ownedOps_eq_ok, pure_eq_ok] at h
    obtain ⟨r, hr, i, hi, cap, hcap, i', hw, rfl⟩ := h
    obtain ⟨hid, hs⟩ := Settlement.cancelWindowChange_cases hw
    exact .inr (.inr ⟨inbox, i, i', hi, rfl, .inr (.cancelWindow hr hcap hid hs)⟩)
  | _ =>
    left
    simp only [call, bind_eq_ok, pure_eq_ok] at h
    grind

/-- Where the `OpsCap`s of the next state come from: each was there, or the call has just
minted it for the object it entombs and sent it to its sender. -/
theorem call_opsCaps (hreg : ∀ id r, w.registries id = some r → r.uid.id = id)
    (hvault : ∀ id v, w.vaults id = some v → v.uid.id = id)
    (h : w.call sender c = .ok w') {o : ObjectId} {cap : OpsCap} {owner : Address}
    (ho : w'.opsCaps o = some (cap, owner)) :
    (∃ owner₀, w.opsCaps o = some (cap, owner₀)) ∨
    (o = w.nextId ∧ owner = sender ∧
      ((∃ k, c = .entombSettlerCapOps k cap.forId) ∨
        ∃ k, c = .entombBridgeCapOps k cap.forId)) := by
  cases c with
  | entombSettlerCapOps k registry =>
    simp only [call, bind_eq_ok, require_eq_ok, exists_const, input_eq_ok,
      Settlement.entombSettlerCapOps_eq_ok, pure_eq_ok] at h
    obtain ⟨-, r, hr, _, ⟨-, -, -, rfl⟩, rfl⟩ := h
    by_cases hn : o = w.nextId
    · subst hn
      simp only [Function.update_self, Option.some.injEq, Prod.mk.injEq] at ho
      obtain ⟨rfl, rfl⟩ := ho
      exact .inr ⟨rfl, rfl, .inl ⟨k, by rw [hreg _ _ hr]⟩⟩
    · exact .inl ⟨owner, by simpa [Function.update_of_ne hn] using ho⟩
  | entombBridgeCapOps k vault =>
    simp only [call, bind_eq_ok, require_eq_ok, exists_const, input_eq_ok,
      Vault.entombBridgeCapOps_eq_ok, pure_eq_ok] at h
    obtain ⟨-, v, hv, _, ⟨-, -, -, rfl⟩, rfl⟩ := h
    by_cases hn : o = w.nextId
    · subst hn
      simp only [Function.update_self, Option.some.injEq, Prod.mk.injEq] at ho
      obtain ⟨rfl, rfl⟩ := ho
      exact .inr ⟨rfl, rfl, .inr ⟨k, by rw [hvault _ _ hv]⟩⟩
    · exact .inl ⟨owner, by simpa [Function.update_of_ne hn] using ho⟩
  | transferOpsCap ops recipient =>
    simp only [call, bind_eq_ok, ownedOps_eq_ok, pure_eq_ok] at h
    obtain ⟨cap', hcap, rfl⟩ := h
    left
    by_cases hn : o = ops
    · subst hn
      simp only [Function.update_self, Option.some.injEq, Prod.mk.injEq] at ho
      obtain ⟨rfl, rfl⟩ := ho
      exact ⟨sender, hcap⟩
    · exact ⟨owner, by simpa [Function.update_of_ne hn] using ho⟩
  | retireOpsCap ops =>
    simp only [call, bind_eq_ok, ownedOps_eq_ok, pure_eq_ok] at h
    obtain ⟨cap', hcap, rfl⟩ := h
    by_cases hn : o = ops
    · subst hn; simp at ho
    · exact .inl ⟨owner, by simpa [Function.update_of_ne hn] using ho⟩
  | _ =>
    left
    simp only [call, bind_eq_ok, pure_eq_ok] at h
    grind

theorem call_nextId (h : w.call sender c = .ok w') : w.nextId ≤ w'.nextId := by
  cases c <;> simp only [call, bind_eq_ok, pure_eq_ok] at h <;> grind

/-- A creation or a mint uses up the next fresh id. -/
theorem call_nextId_lt (h : w.call sender c = .ok w')
    (hc : c = .initializeSettlement ∨ c = .initializeInbox ∨ c = .initializeBridge ∨
      (∃ k id, c = .entombSettlerCapOps k id) ∨ ∃ k id, c = .entombBridgeCapOps k id) :
    w.nextId < w'.nextId := by
  obtain rfl | rfl | rfl | ⟨k, id, rfl⟩ | ⟨k, id, rfl⟩ := hc <;>
    simp only [call, bind_eq_ok, pure_eq_ok] at h <;> grind

/-! ## Well-formed populations -/

/-- No object, or an object whose rotation record exists. -/
def Seeded (w : World) (id : ObjectId) : Prop :=
  (∀ r, w.registries id = some r → r.uid.record.isSome) ∧
    ∀ v, w.vaults id = some v → v.uid.record.isSome

/-- Objects sit under their own ids, below the next fresh one, and an `OpsCap` exists only for
an object that is entombed. -/
structure WellFormed (w : World) : Prop where
  registry : ∀ id r, w.registries id = some r → r.uid.id = id ∧ id < w.nextId
  vault : ∀ id v, w.vaults id = some v → v.uid.id = id ∧ id < w.nextId
  distinct : ∀ id r v, w.registries id = some r → w.vaults id = some v → False
  inbox : ∀ id i, w.inboxes id = some i → id < w.nextId
  ops : ∀ o cap owner, w.opsCaps o = some (cap, owner) → cap.forId < w.nextId ∧ w.Seeded cap.forId

theorem published_wellFormed (now : Nat) : (published now).WellFormed := by
  constructor <;> simp [published]

/-- A record that exists stays. -/
theorem Seeded.call (h : w.call sender c = .ok w') {id : ObjectId} (hid : id < w.nextId)
    (hs : w.Seeded id) : w'.Seeded id := by
  refine ⟨fun r' hr' => ?_, fun v' hv' => ?_⟩
  · obtain ⟨rfl, -⟩ | ⟨r, hr, hk | ⟨cap, -, -, -, hu⟩⟩ := registry_origin h hr'
    · exact absurd hid (Nat.lt_irrefl _)
    · rw [hk.record]; exact hs.1 r hr
    · rw [hu]; rfl
  · obtain ⟨rfl, -⟩ | ⟨v, hv, hk | ⟨cap, -, -, -, hu⟩⟩ := vault_origin h hv'
    · exact absurd hid (Nat.lt_irrefl _)
    · rw [hk.record]; exact hs.2 v hv
    · rw [hu]; rfl

/-- An entombment names an object and seeds it. -/
theorem WellFormed.seeded_of_entomb (hw : w.WellFormed) (h : w.call sender c = .ok w')
    {id : ObjectId}
    (hc : (∃ k, c = .entombSettlerCapOps k id) ∨ ∃ k, c = .entombBridgeCapOps k id) :
    id < w.nextId ∧ w'.Seeded id := by
  obtain ⟨k, rfl⟩ | ⟨k, rfl⟩ := hc
  · simp only [World.call, bind_eq_ok, require_eq_ok, exists_const, input_eq_ok,
      Settlement.entombSettlerCapOps_eq_ok, pure_eq_ok] at h
    obtain ⟨-, r, hr, _, ⟨-, -, -, rfl⟩, rfl⟩ := h
    refine ⟨(hw.registry _ _ hr).2, fun r' hr' => ?_, fun v hv => (hw.distinct _ _ _ hr hv).elim⟩
    simp only [Function.update_self, Option.some.injEq] at hr'
    subst hr'; rfl
  · simp only [World.call, bind_eq_ok, require_eq_ok, exists_const, input_eq_ok,
      Vault.entombBridgeCapOps_eq_ok, pure_eq_ok] at h
    obtain ⟨-, v, hv, _, ⟨-, -, -, rfl⟩, rfl⟩ := h
    refine ⟨(hw.vault _ _ hv).2, fun r hr => (hw.distinct _ _ _ hr hv).elim, fun v' hv' => ?_⟩
    simp only [Function.update_self, Option.some.injEq] at hv'
    subst hv'; rfl

/-- Every call keeps the population well formed. -/
theorem WellFormed.call (hw : w.WellFormed) (h : w.call sender c = .ok w') : w'.WellFormed := by
  have hle := call_nextId h
  refine ⟨fun id r' hr' => ?_, fun id v' hv' => ?_, fun id r' v' hr' hv' => ?_,
    fun id i' hi' => ?_, fun o cap owner ho => ?_⟩
  · obtain ⟨rfl, hc, rfl⟩ | ⟨r, hr, hk⟩ := registry_origin h hr'
    · exact ⟨rfl, call_nextId_lt h (.inl hc)⟩
    · obtain ⟨hid, hlt⟩ := hw.registry id r hr
      refine ⟨?_, Nat.lt_of_lt_of_le hlt hle⟩
      obtain hk | ⟨cap, -, -, -, hu⟩ := hk
      · rw [hk.id, hid]
      · rw [hu]; exact hid
  · obtain ⟨rfl, hc, rfl⟩ | ⟨v, hv, hk⟩ := vault_origin h hv'
    · exact ⟨rfl, call_nextId_lt h (.inr (.inr (.inl hc)))⟩
    · obtain ⟨hid, hlt⟩ := hw.vault id v hv
      refine ⟨?_, Nat.lt_of_lt_of_le hlt hle⟩
      obtain hk | ⟨cap, -, -, -, hu⟩ := hk
      · rw [hk.id, hid]
      · rw [hu]; exact hid
  · -- a new object gets the fresh id, and one call does not create both kinds
    obtain ⟨rfl, rfl, -⟩ | ⟨r, hr, -⟩ := registry_origin h hr' <;>
      obtain ⟨hid, hc, -⟩ | ⟨v, hv, -⟩ := vault_origin h hv'
    · cases hc
    · exact absurd (hw.vault _ v hv).2 (Nat.lt_irrefl _)
    · subst hid; exact absurd (hw.registry _ r hr).2 (Nat.lt_irrefl _)
    · exact hw.distinct id r v hr hv
  · obtain he | ⟨rfl, he⟩ | ⟨I, i, i'', hi, he, -⟩ := call_inboxes h <;> rw [he] at hi'
    · exact Nat.lt_of_lt_of_le (hw.inbox id i' hi') hle
    · by_cases hn : id = w.nextId
      · subst hn; exact call_nextId_lt h (.inr (.inl rfl))
      · rw [Function.update_of_ne hn] at hi'
        exact Nat.lt_of_lt_of_le (hw.inbox id i' hi') hle
    · by_cases hn : id = I
      · subst hn; exact Nat.lt_of_lt_of_le (hw.inbox id i hi) hle
      · rw [Function.update_of_ne hn] at hi'
        exact Nat.lt_of_lt_of_le (hw.inbox id i' hi') hle
  · obtain ⟨owner₀, ho⟩ | ⟨-, -, hc⟩ := call_opsCaps (fun id r hr => (hw.registry id r hr).1)
      (fun id v hv => (hw.vault id v hv).1) h ho
    · obtain ⟨hlt, hs⟩ := hw.ops o cap owner₀ ho
      exact ⟨Nat.lt_of_lt_of_le hlt hle, hs.call h hlt⟩
    · obtain ⟨hlt, hs⟩ := hw.seeded_of_entomb h hc
      exact ⟨Nat.lt_of_lt_of_le hlt hle, hs⟩

end World

end Podseq.Move
