import Podseq.Lib.Runs
import Podseq.Move.UpgradeCustody

/-! # The history of the upgrade custody of a Registry

A frozen Registry is one whose slot was emptied by `freeze_package`. The entombment tests the slot
and nothing else, so whoever steers the Registry can fill it again; until that happens, a cap in
custody is the first one, under a policy that only tightens.
-/
namespace Podseq.Move
open Podseq.Lib Rotation

variable {υ τ ρ : Type}

/-- What `sui::package` documents of an `UpgradeCap`: no call changes which cap it is, and none
loosens its policy. -/
structure UpgradeFramework.Lawful (fw : UpgradeFramework υ τ ρ) (id : υ → ObjectId)
    (policy : υ → Nat) : Prop where
  authorize : ∀ cap requested digest cap' ticket,
    fw.authorizeUpgrade cap requested digest = .ok (cap', ticket) →
      id cap' = id cap ∧ policy cap' = policy cap
  commit : ∀ cap receipt cap', fw.commitUpgrade cap receipt = .ok cap' →
    id cap' = id cap ∧ policy cap' = policy cap
  additive : ∀ cap cap', fw.onlyAdditiveUpgrades cap = .ok cap' →
    id cap' = id cap ∧ policy cap ≤ policy cap'
  depOnly : ∀ cap cap', fw.onlyDepUpgrades cap = .ok cap' →
    id cap' = id cap ∧ policy cap ≤ policy cap'

/-- The same cap, under a policy at least as strict. -/
def Tightened (id : υ → ObjectId) (policy : υ → Nat) (cap cap' : υ) : Prop :=
  id cap' = id cap ∧ policy cap ≤ policy cap'

theorem Tightened.trans {id : υ → ObjectId} {policy : υ → Nat} {cap cap' cap'' : υ}
    (h : Tightened id policy cap cap') (h' : Tightened id policy cap' cap'') :
    Tightened id policy cap cap'' :=
  ⟨h'.1.trans h.1, h.2.trans h'.2⟩

namespace Settlement

def SteeringCall.isFreeze : SteeringCall υ ρ → Bool
  | .freezePackage => true
  | _ => false

/-- The calls that must not succeed on a frozen Registry. -/
def SteeringCall.opensSlot : SteeringCall υ ρ → Bool
  | .entombUpgradeCap _ => true
  | .authorizePackageUpgrade _ _ => true
  | _ => false

variable {fw : UpgradeFramework υ τ ρ} {id : υ → ObjectId} {policy : υ → Nat}
  {r r' : RegistryCustody υ} {inbox inbox' : Inbox} {now : Nat} {ops : OpsCap} {cap : υ}
  {call : SteeringCall υ ρ}

@[simp] theorem upgradeCap_eq_ok : upgradeCap r = .ok cap ↔ r.upgrade = some cap := by
  unfold upgradeCap
  cases r.upgrade <;> simp

/-- An entombment by the holder of the `OpsCap` succeeds exactly on an empty slot. -/
theorem entombUpgradeCap_eq_ok :
    entombUpgradeCap cap r ops = .ok r' ↔
      ops.forId = r.registry.uid.id ∧ r.registry.uid.record.isSome ∧ r.upgrade = none ∧
        r' = { r with upgrade := some cap } := by
  simp only [entombUpgradeCap, bind_eq_ok, assertOpsCap_eq_ok, state_eq_ok, require_eq_ok,
    pure_eq_ok, exists_const, Option.isNone_iff_eq_none, eq_comm (b := r')]
  constructor
  · intro h
    obtain ⟨hid, st, hst, hnone, heq⟩ := h
    exact ⟨hid, Option.isSome_of_mem hst, hnone, heq⟩
  · intro h
    obtain ⟨hid, hrecord, hnone, heq⟩ := h
    obtain ⟨st, hst⟩ := Option.isSome_iff_exists.1 hrecord
    exact ⟨hid, st, hst, hnone, heq⟩

/-- What a call does to the slot: only an entombment fills it, only a freeze empties it, and a cap
that stays in it stays the same cap. -/
inductive SlotChange (id : υ → ObjectId) (policy : υ → Nat) :
    SteeringCall υ ρ → Option υ → Option υ → Prop
  | entombed {cap : υ} : SlotChange id policy (.entombUpgradeCap cap) none (some cap)
  | frozen {cap : υ} : SlotChange id policy .freezePackage (some cap) none
  | kept {call : SteeringCall υ ρ} {cap cap' : υ} (hfreeze : call.isFreeze = false)
    (h : Tightened id policy cap cap') : SlotChange id policy call (some cap) (some cap')
  | beside {call : SteeringCall υ ρ} {slot : Option υ} (hfreeze : call.isFreeze = false)
    (hopen : call.opensSlot = false) : SlotChange id policy call slot slot

theorem steer_slot (law : fw.Lawful id policy)
    (h : steer fw r inbox now ops call = .ok (r', inbox')) :
    r'.registry.uid.id = r.registry.uid.id ∧ SlotChange id policy call r.upgrade r'.upgrade := by
  cases call with
  | requestRotationOps toAddr delayMs =>
    simp only [steer, requestRotationOps, bind_eq_ok, pure_eq_ok] at h
    obtain ⟨registry, ⟨uid, huid, rfl⟩, heq⟩ := h
    cases heq
    exact ⟨(requestRotationOps_kept huid).id, .beside rfl rfl⟩
  | requestWindowChange newWindowMs delayMs =>
    simp only [steer, bind_eq_ok, pure_eq_ok] at h
    obtain ⟨inbox'', -, heq⟩ := h
    cases heq
    exact ⟨rfl, .beside rfl rfl⟩
  | cancelWindowChange =>
    simp only [steer, bind_eq_ok, pure_eq_ok] at h
    obtain ⟨inbox'', -, heq⟩ := h
    cases heq
    exact ⟨rfl, .beside rfl rfl⟩
  | entombUpgradeCap cap =>
    simp only [steer, bind_eq_ok, pure_eq_ok, entombUpgradeCap_eq_ok] at h
    obtain ⟨r'', ⟨-, -, hnone, rfl⟩, heq⟩ := h
    cases heq
    exact ⟨rfl, hnone ▸ .entombed⟩
  | authorizePackageUpgrade requested digest =>
    simp only [steer, authorizePackageUpgrade, bind_eq_ok, pure_eq_ok, upgradeCap_eq_ok] at h
    obtain ⟨⟨r'', ticket⟩, ⟨-, -, cap, hcap, ⟨cap', ticket'⟩, hok, heq'⟩, heq⟩ := h
    cases heq'
    cases heq
    obtain ⟨hid, hpolicy⟩ := law.authorize _ _ _ _ _ hok
    exact ⟨rfl, hcap ▸ .kept rfl ⟨hid, hpolicy.ge⟩⟩
  | commitPackageUpgrade receipt =>
    simp only [steer, commitPackageUpgrade, bind_eq_ok, pure_eq_ok, upgradeCap_eq_ok] at h
    obtain ⟨r'', ⟨-, -, cap, hcap, cap', hok, heq'⟩, heq⟩ := h
    cases heq'
    cases heq
    obtain ⟨hid, hpolicy⟩ := law.commit _ _ _ hok
    exact ⟨rfl, hcap ▸ .kept rfl ⟨hid, hpolicy.ge⟩⟩
  | restrictPackageUpgrades requested =>
    simp only [steer, restrictPackageUpgrades, bind_eq_ok, pure_eq_ok, upgradeCap_eq_ok] at h
    obtain ⟨r'', ⟨-, -, cap, hcap, hrestrict⟩, heq⟩ := h
    cases heq
    split_ifs at hrestrict with hadditive hdep
    · simp only [bind_eq_ok, pure_eq_ok] at hrestrict
      obtain ⟨cap', hok, heq'⟩ := hrestrict
      cases heq'
      exact ⟨rfl, hcap ▸ .kept rfl (law.additive _ _ hok)⟩
    · simp only [bind_eq_ok, pure_eq_ok] at hrestrict
      obtain ⟨cap', hok, heq'⟩ := hrestrict
      cases heq'
      exact ⟨rfl, hcap ▸ .kept rfl (law.depOnly _ _ hok)⟩
  | freezePackage =>
    simp only [steer, freezePackage, bind_eq_ok, pure_eq_ok, upgradeCap_eq_ok] at h
    obtain ⟨r'', ⟨-, -, cap, hcap, heq'⟩, heq⟩ := h
    cases heq'
    cases heq
    exact ⟨rfl, hcap ▸ .frozen⟩

end Settlement

/-! ## Histories -/

/-- A Registry with its custody, and the record of what the slot held. -/
structure CustodyHistory (υ : Type) where
  custody : RegistryCustody υ
  inbox : Inbox
  /-- A call of `freeze_package` has succeeded. -/
  frozen : Bool
  /-- An entombment or an authorization has succeeded since. -/
  reopened : Bool
  /-- The caps in the slot after each call so far, in order. -/
  custodied : List υ

/-- What happens to a Registry: a call that its `OpsCap` gates, by whoever holds one, or any other
call, which does not touch the slot. -/
inductive CustodyEvent (υ ρ : Type)
  | call (now : Nat) (ops : OpsCap) (call : Settlement.SteeringCall υ ρ)
  | other (registry : Registry) (inbox : Inbox)

namespace CustodyHistory
open Settlement

variable {fw : UpgradeFramework υ τ ρ} {id : υ → ObjectId} {policy : υ → Nat}
  {s t : CustodyHistory υ} {inbox : Inbox} {e : CustodyEvent υ ρ} {es : List (CustodyEvent υ ρ)}

def called (s : CustodyHistory υ) (call : SteeringCall υ ρ) (custody : RegistryCustody υ)
    (inbox : Inbox) : CustodyHistory υ where
  custody := custody
  inbox := inbox
  frozen := s.frozen || call.isFreeze
  reopened := s.reopened || (s.frozen && call.opensSlot)
  custodied := s.custodied ++ custody.upgrade.toList

/-- The next state; an aborted call has no effect. -/
def exec (fw : UpgradeFramework υ τ ρ) (s : CustodyHistory υ) :
    CustodyEvent υ ρ → Option (CustodyHistory υ)
  | .call now ops call =>
    match steer fw s.custody s.inbox now ops call with
    | .error _ => some s
    | .ok (custody, inbox) => some (s.called call custody inbox)
  | .other registry inbox =>
    if registry.uid.id = s.custody.registry.uid.id then
      some { s with custody := { s.custody with registry }, inbox }
    else none

/-- Before the first call of interest: the Registry is not frozen. -/
def Starts (s : CustodyHistory υ) : Prop :=
  s.frozen = false ∧ s.reopened = false ∧ s.custodied = s.custody.upgrade.toList

/-- The caps in custody are one cap whose policy never loosened, and nothing succeeded on the
Registry after the freeze. -/
structure OneWay (id : υ → ObjectId) (policy : υ → Nat) (s : CustodyHistory υ) : Prop where
  caps : s.custodied.Pairwise (Tightened id policy)
  closed : s.reopened = false

/-- Someone who steers the Registry entombs a cap in it after the freeze. -/
def Reentombs (s : CustodyHistory υ) : CustodyEvent υ ρ → Prop
  | .call _ ops (.entombUpgradeCap _) =>
    s.frozen ∧ ops.forId = s.custody.registry.uid.id ∧ s.custody.registry.uid.record.isSome
  | _ => False

/-- What carries the argument: a frozen slot is empty, and the cap in an open one is at least as
tight as all before it. -/
structure CustodyInv (id : υ → ObjectId) (policy : υ → Nat) (s : CustodyHistory υ) : Prop
    extends OneWay id policy s where
  empty : s.frozen → s.custody.upgrade = none
  first : s.frozen = false → s.custody.upgrade = none → s.custodied = []
  latest : ∀ cap ∈ s.custody.upgrade, ∀ cap' ∈ s.custodied, Tightened id policy cap' cap

theorem Starts.custodyInv (h : Starts s) : CustodyInv id policy s := by
  obtain ⟨hfrozen, hreopened, hcustodied⟩ := h
  refine ⟨⟨?_, hreopened⟩, ?_, ?_, ?_⟩
  · rw [hcustodied]
    cases s.custody.upgrade
    · exact .nil
    · exact List.pairwise_singleton _ _
  · intro hf
    rw [hfrozen] at hf
    cases hf
  · intro _ hnone
    rw [hcustodied, hnone]
    rfl
  · intro cap hcap cap' hcap'
    rw [hcustodied, Option.mem_toList] at hcap'
    cases Option.mem_unique hcap hcap'
    exact ⟨rfl, le_rfl⟩

/-- An entombment on a frozen Registry succeeds, and shows. -/
theorem CustodyInv.reopened (hi : CustodyInv id policy s) (h : exec fw s e = some t)
    (hre : s.Reentombs e) : t.reopened = true := by
  obtain ⟨now, ops, _ | _ | _ | cap | _ | _ | _ | _⟩ | _ := e <;> try exact hre.elim
  obtain ⟨hfrozen, hid, hrecord⟩ := hre
  have hok : entombUpgradeCap cap s.custody ops = .ok { s.custody with upgrade := some cap } :=
    entombUpgradeCap_eq_ok.2 ⟨hid, hrecord, hi.empty hfrozen, rfl⟩
  have hsteer : steer fw s.custody s.inbox now ops (.entombUpgradeCap cap) =
      .ok ({ s.custody with upgrade := some cap }, s.inbox) := by
    rw [steer, hok]
    rfl
  rw [exec, hsteer] at h
  cases h
  simp [called, hfrozen, SteeringCall.opensSlot]

/-- A cap that joins the list is in the slot of a Registry that is not frozen. -/
theorem CustodyInv.joined {call : SteeringCall υ ρ} {custody : RegistryCustody υ} {cap : υ}
    (hi : CustodyInv id policy s) (hopen : s.frozen = false) (hfreeze : call.isFreeze = false)
    (hcap : custody.upgrade = some cap) (htight : ∀ c ∈ s.custodied, Tightened id policy c cap) :
    CustodyInv id policy (s.called call custody inbox) := by
  have hlist : (s.called call custody inbox).custodied = s.custodied ++ [cap] := by
    rw [called, hcap]
    rfl
  have hfrozen : (s.called call custody inbox).frozen = false := by
    rw [called, hopen, hfreeze]
    rfl
  refine ⟨⟨?_, ?_⟩, ?_, ?_, ?_⟩
  · rw [hlist]
    exact List.pairwise_append.2 ⟨hi.caps, List.pairwise_singleton _ _, fun c hc _ hlast =>
      List.mem_singleton.1 hlast ▸ htight c hc⟩
  · simp only [called, hi.closed, hopen, Bool.false_and, Bool.or_self]
  · intro hf
    rw [hfrozen] at hf
    cases hf
  · intro _ hnone
    rw [called, hcap] at hnone
    cases hnone
  · intro c hc c' hc'
    rw [called, hcap] at hc
    cases hc
    rw [hlist, List.mem_append, List.mem_singleton] at hc'
    obtain hc' | rfl := hc'
    · exact htight c' hc'
    · exact ⟨rfl, le_rfl⟩

/-- Every successful call other than an entombment after the freeze keeps the custody one-way. -/
theorem CustodyInv.called {call : SteeringCall υ ρ} {custody : RegistryCustody υ}
    (hi : CustodyInv id policy s) (hopen : s.custody.upgrade = none → call.opensSlot →
      s.frozen = false) (h : SlotChange id policy call s.custody.upgrade custody.upgrade) :
    CustodyInv id policy (s.called call custody inbox) := by
  generalize hold : s.custody.upgrade = slot at h
  generalize hnew : custody.upgrade = slot' at h
  cases h with
  | entombed =>
    have hfrozen := hopen hold rfl
    refine hi.joined hfrozen rfl hnew fun c hc => ?_
    rw [hi.first hfrozen hold] at hc
    cases hc
  | frozen =>
    have hcaps : (s.called (.freezePackage : SteeringCall υ ρ) custody inbox).custodied =
        s.custodied := by
      rw [CustodyHistory.called, hnew]
      exact List.append_nil _
    refine ⟨⟨hcaps ▸ hi.caps, ?_⟩, fun _ => hnew, ?_, ?_⟩
    · simp only [CustodyHistory.called, hi.closed, SteeringCall.opensSlot, Bool.and_false,
        Bool.or_self]
    · intro hf
      simp [CustodyHistory.called, SteeringCall.isFreeze] at hf
    · intro c hc
      rw [CustodyHistory.called, hnew] at hc
      cases hc
  -- there is a cap, so the Registry is not frozen yet
  | kept hfreeze htight =>
    have hfrozen : s.frozen = false := by
      by_contra hf
      rw [hi.empty (Bool.eq_true_of_not_eq_false hf)] at hold
      cases hold
    exact hi.joined hfrozen hfreeze hnew fun c hc => (hi.latest _ hold c hc).trans htight
  | beside hfreeze hclosed =>
    cases slot with
    | some cap =>
      have hfrozen : s.frozen = false := by
        by_contra hf
        rw [hi.empty (Bool.eq_true_of_not_eq_false hf)] at hold
        cases hold
      exact hi.joined hfrozen hfreeze hnew (hi.latest cap hold)
    | none =>
      have hcaps : (s.called call custody inbox).custodied = s.custodied := by
        rw [CustodyHistory.called, hnew]
        exact List.append_nil _
      refine ⟨⟨hcaps ▸ hi.caps, ?_⟩, fun _ => hnew, fun hf _ => ?_, ?_⟩
      · simp only [CustodyHistory.called, hi.closed, hclosed, Bool.and_false, Bool.or_self]
      · rw [CustodyHistory.called, Bool.or_eq_false_iff] at hf
        rw [hcaps]
        exact hi.first hf.1 hold
      · intro c hc
        rw [CustodyHistory.called, hnew] at hc
        cases hc

/-- A call that opens the slot succeeds on an empty one only as an entombment by someone who steers
the Registry. -/
theorem frozen_of_opensSlot {now : Nat} {ops : OpsCap} {call : SteeringCall υ ρ}
    {r : RegistryCustody υ × Inbox} (hok : steer fw s.custody s.inbox now ops call = .ok r)
    (hre : ¬s.Reentombs (.call now ops call)) (hnone : s.custody.upgrade = none)
    (hopens : call.opensSlot) : s.frozen = false := by
  by_contra hf
  cases call with
  | entombUpgradeCap cap =>
    simp only [steer, bind_eq_ok, entombUpgradeCap_eq_ok] at hok
    obtain ⟨-, ⟨hid, hrecord, -⟩, -⟩ := hok
    exact hre ⟨Bool.eq_true_of_not_eq_false hf, hid, hrecord⟩
  | authorizePackageUpgrade requested digest =>
    simp only [steer, authorizePackageUpgrade, bind_eq_ok, upgradeCap_eq_ok] at hok
    obtain ⟨-, ⟨-, -, cap, hcap, -⟩, -⟩ := hok
    rw [hnone] at hcap
    cases hcap
  | _ => cases hopens

theorem CustodyInv.step (law : fw.Lawful id policy) (hi : CustodyInv id policy s)
    (h : exec fw s e = some t) (hre : ¬s.Reentombs e) : CustodyInv id policy t := by
  cases e with
  | other registry inbox =>
    rw [exec, Option.ite_none_right_eq_some] at h
    obtain ⟨-, heq⟩ := h
    cases heq
    exact ⟨⟨hi.caps, hi.closed⟩, hi.empty, hi.first, hi.latest⟩
  | call now ops call =>
    rw [exec] at h
    split at h
    · cases h
      exact hi
    · rename_i custody inbox hok
      cases h
      exact hi.called (fun hnone => frozen_of_opensSlot hok hre hnone) (steer_slot law hok).2

/-- **Custody is one-way exactly while nobody entombs again.** Over a framework that never loosens a
policy, in every run of calls by any holders of `OpsCap`s with any upgrade caps: all caps ever in
custody are one cap under a policy that only tightens, and neither an entombment nor an
authorization succeeds after the freeze, exactly if no call entombs a cap in the frozen Registry
with the Registry's own `OpsCap`. -/
theorem oneWay_iff (law : fw.Lawful id policy) (hs : Starts s) :
    Run (guarded (fun s e => ¬s.Reentombs e) (enabled (exec fw))) s es t ↔
      Run (fun s e t => enabled (exec fw) s e t ∧ t.OneWay id policy) s es t := by
  refine run_guarded_iff (I := CustodyInv id policy) (fun s e t hi hst => ?_)
    (fun s e t hi hst hre => hi.step law hst hre) hs.custodyInv
  constructor
  · intro hre
    exact (hi.step law hst hre).toOneWay
  · intro ht hre
    have hreopened := hi.reopened hst hre
    rw [ht.closed] at hreopened
    cases hreopened

end CustodyHistory

/-! ## Two caps of `sui::package` -/

structure UpgradeCap where
  id : ObjectId
  package : ObjectId
  policy : Nat
deriving DecidableEq

structure UpgradeTicket where
  cap : ObjectId
  package : ObjectId
  policy : Nat
  digest : Bytes

structure UpgradeReceipt where
  cap : ObjectId
  package : ObjectId

namespace UpgradeCap

def additive : Nat := 128
def depOnly : Nat := 192

/-- Package id 0 marks a cap with an upgrade under way. -/
def authorizeUpgrade (cap : UpgradeCap) (policy : Nat) (digest : Bytes) :
    Tx (UpgradeCap × UpgradeTicket) := do
  require (cap.package ≠ 0) .badInput
  require (cap.policy ≤ policy) .badInput
  return ({ cap with package := 0 }, ⟨cap.id, cap.package, policy, digest⟩)

def commitUpgrade (cap : UpgradeCap) (receipt : UpgradeReceipt) : Tx UpgradeCap := do
  require (cap.id = receipt.cap) .badInput
  require (cap.package = 0) .badInput
  return { cap with package := receipt.package }

def restrict (policy : Nat) (cap : UpgradeCap) : Tx UpgradeCap := do
  require (cap.policy ≤ policy) .badInput
  return { cap with policy }

/-- The upgrade caps of `sui::package`. -/
def framework : UpgradeFramework UpgradeCap UpgradeTicket UpgradeReceipt where
  additivePolicy := additive
  depOnlyPolicy := depOnly
  authorizeUpgrade := authorizeUpgrade
  commitUpgrade := commitUpgrade
  onlyAdditiveUpgrades := restrict additive
  onlyDepUpgrades := restrict depOnly

theorem restrict_tightened {bound : Nat} {cap cap' : UpgradeCap}
    (h : restrict bound cap = .ok cap') : cap'.id = cap.id ∧ cap.policy ≤ cap'.policy := by
  simp only [restrict, bind_eq_ok, require_eq_ok, pure_eq_ok, exists_const] at h
  obtain ⟨hle, rfl⟩ := h
  exact ⟨rfl, hle⟩

theorem framework_lawful : framework.Lawful id policy where
  authorize := by
    intro cap requested digest cap' ticket h
    simp only [framework, authorizeUpgrade, bind_eq_ok, require_eq_ok, pure_eq_ok,
      exists_const] at h
    obtain ⟨-, -, heq⟩ := h
    cases heq
    exact ⟨rfl, rfl⟩
  commit := by
    intro cap receipt cap' h
    simp only [framework, commitUpgrade, bind_eq_ok, require_eq_ok, pure_eq_ok, exists_const] at h
    obtain ⟨-, -, rfl⟩ := h
    exact ⟨rfl, rfl⟩
  additive := fun _ _ => restrict_tightened
  depOnly := fun _ _ => restrict_tightened

end UpgradeCap

namespace CustodyHistory

/-- A Registry under authority 7, steered by `OpsCap` 1, with no upgrade cap. -/
def steered : CustodyHistory UpgradeCap where
  custody :=
    { registry :=
        { Settlement.initializeRegistry 0 with
          uid := ⟨0, some ⟨7, none, none⟩, some ⟨2⟩, true⟩ }
      upgrade := none }
  inbox := Inbox.initializeInbox 9
  frozen := false
  reopened := false
  custodied := []

/-- The holder entombs the package's cap and restricts it to additive upgrades, before freezing. -/
theorem oneWay_iff_aged : ∃ t,
    Run (fun s e t => enabled (exec UpgradeCap.framework) s e t ∧
      t.OneWay UpgradeCap.id UpgradeCap.policy) steered
      [.call 0 ⟨1, 0⟩ (.entombUpgradeCap ⟨3, 4, 0⟩),
        .call 0 ⟨1, 0⟩ (.restrictPackageUpgrades 128), .call 0 ⟨1, 0⟩ .freezePackage] t := by
  refine ⟨_, (oneWay_iff UpgradeCap.framework_lawful ⟨rfl, rfl, rfl⟩).1 (.cons ⟨?_, rfl⟩
    (.cons ⟨?_, rfl⟩ (.cons ⟨?_, rfl⟩ .nil)))⟩
  · exact fun h => by cases h.1
  · exact id
  · exact id

/-- Entombing cap 3, freezing and entombing the cap 5 of another package: the second entombment
succeeds, and an upgrade is authorized after the freeze. -/
theorem frozen_slot_reopens : ∃ t,
    Run (enabled (exec UpgradeCap.framework)) steered
      [.call 0 ⟨1, 0⟩ (.entombUpgradeCap ⟨3, 4, 128⟩), .call 0 ⟨1, 0⟩ .freezePackage,
        .call 0 ⟨1, 0⟩ (.entombUpgradeCap ⟨5, 6, 0⟩),
        .call 0 ⟨1, 0⟩ (.authorizePackageUpgrade 0 [])] t ∧
      steered.Starts ∧ t.frozen = true ∧ t.custodied = [⟨3, 4, 128⟩, ⟨5, 6, 0⟩, ⟨5, 0, 0⟩] ∧
      ¬t.OneWay UpgradeCap.id UpgradeCap.policy := by
  refine ⟨_, run_of_execAll rfl, ⟨rfl, rfl, rfl⟩, rfl, rfl, fun h => ?_⟩
  exact Bool.noConfusion h.closed

end CustodyHistory

end Podseq.Move
