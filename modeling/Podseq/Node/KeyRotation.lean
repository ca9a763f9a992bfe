import Podseq.Move.RotationHistory
import Podseq.Node.InboxTracker

/-! # The rotation watcher of a node

On every poll the watcher reads the rotation records of the Registry and the Vault and the
clock, derives a role from each record, folds the roles into a plan and executes at most one
step of it. Claims and retirements are transactions over both objects; the adoption of the
staged key is a swap in memory, which a restart undoes. The records are read here as they stand on
the ledger, which the program's own reader does not do: it asks under other ids and finds none
(`MigrationWorld.never_rotates`).
-/
namespace Podseq.Node
open Podseq.Lib Podseq.Move Podseq.Move.Rotation

namespace KeyRotation

/-! ## Roles and plans -/

inductive Role
  | active
  | waitingClaim (eligibleAtMs : Nat)
  | claimReady
  | adopt (prevUntilMs : Nat)
  | stagedIsAuthority
  | misconfigured
deriving DecidableEq, Repr

inductive Plan
  | idle | claim | adopt | retire | misconfigured
deriving DecidableEq, Repr

/-- The role of the node for one object. -/
def deriveRole (st : RotationState) (nowMs : Nat) (active staged : Address) : Role :=
  if st.authority = staged then
    match st.prev with
    | some prev =>
      if prev.addr = active ∧ nowMs ≤ prev.untilMs then .adopt prev.untilMs else .stagedIsAuthority
    | none => .stagedIsAuthority
  else if st.authority = active then
    match st.pending with
    | some pending =>
      if pending.toAddr = staged then
        if nowMs < pending.eligibleAtMs then .waitingClaim pending.eligibleAtMs
        else if nowMs ≤ saturatingAdd pending.eligibleAtMs claimWindowMs then
          .claimReady
        else .active
      else .active
    | none => .active
  else .misconfigured

/-- Folds the roles for both objects into one plan; any disagreement is refused. -/
def plan (settlement vault : RotationState) (nowMs : Nat) (active staged : Address) : Plan :=
  match deriveRole settlement nowMs active staged, deriveRole vault nowMs active staged with
  | .misconfigured, _ => .misconfigured
  | _, .misconfigured => .misconfigured
  | .claimReady, .claimReady => .claim
  | .adopt _, .adopt _ => .adopt
  | .stagedIsAuthority, .stagedIsAuthority =>
    if settlement.prev.isSome ∨ vault.prev.isSome then .retire else .idle
  | .active, .active => .idle
  | .waitingClaim _, .waitingClaim _ => .idle
  | _, _ => .misconfigured

/-! ## One step of a plan -/

/-- When the staged key was adopted since the start of the process, in instants of its own
clock. -/
structure AdoptionGuard where
  adoptedAt : Option Nat
  retireQuiet : Nat
deriving DecidableEq, Repr

def AdoptionGuard.new (retireQuiet : Nat) : AdoptionGuard := ⟨none, retireQuiet⟩

def AdoptionGuard.markAdopted (guard : AdoptionGuard) (instant : Nat) : AdoptionGuard :=
  { guard with adoptedAt := some instant }

def AdoptionGuard.adopted (guard : AdoptionGuard) : Bool := guard.adoptedAt.isSome

def AdoptionGuard.retireReady (guard : AdoptionGuard) (instant : Nat) : Bool :=
  match guard.adoptedAt with
  | some adoptedAt => guard.retireQuiet ≤ instant - adoptedAt
  | none => false

inductive Action
  | idle | claimed | adopted | retired | refused
deriving DecidableEq, Repr

/-- What `apply` has an executor for. -/
structure Executor (σ : Type) where
  claim : Address → σ → Tx σ
  adopt : Address → σ → Tx σ
  retirePrevious : Address → σ → Tx σ

variable {σ : Type}

/-- `SwapSinks`: a claim and a retirement are transactions over both objects, the adoption is a
swap in memory. -/
def swapSinks (submitClaim submitRetirePrevious : Address → σ → Tx σ)
    (swapSigner : Address → σ → σ) : Executor σ where
  claim := submitClaim
  adopt key s := .ok (swapSigner key s)
  retirePrevious := submitRetirePrevious

def adopt (executor : Executor σ) (stagedKey : Option Address) (guard : AdoptionGuard)
    (instant : Nat) (s : σ) : Tx (Action × AdoptionGuard × σ) :=
  match stagedKey with
  | none => .ok (.refused, guard, s)
  | some key => do
    let s ← executor.adopt key s
    return (.adopted, guard.markAdopted instant, s)

def retire (executor : Executor σ) (stagedKey : Option Address) (guard : AdoptionGuard) (s : σ) :
    Tx (Action × AdoptionGuard × σ) :=
  match stagedKey with
  | none => .ok (.refused, guard, s)
  | some key => do
    let s ← executor.retirePrevious key s
    return (.retired, guard, s)

/-- Executes at most one step of a plan. -/
def apply (plan : Plan) (stagedKey : Option Address) (executor : Executor σ)
    (guard : AdoptionGuard) (instant : Nat) (s : σ) : Tx (Action × AdoptionGuard × σ) :=
  match plan with
  | .idle => .ok (.idle, guard, s)
  | .misconfigured => .ok (.refused, guard, s)
  | .claim =>
    match stagedKey with
    | none => .ok (.refused, guard, s)
    | some key => do
      let s ← executor.claim key s
      return (.claimed, guard, s)
  | .adopt =>
    if guard.adopted then
      if guard.retireReady instant then retire executor stagedKey guard s
      else .ok (.idle, guard, s)
    else adopt executor stagedKey guard instant s
  | .retire =>
    if guard.adopted then retire executor stagedKey guard s
    -- a restart between the claim and the retirement: swap first, retire on the next poll
    else adopt executor stagedKey guard instant s

/-! ## The node beside the chain -/

/-- The objects of a deployment, of two types, and the addresses of the two keys of a node. -/
structure RotationTargets where
  registry : ObjectId
  vault : ObjectId
  distinct : vault ≠ registry
  active : Address
  staged : Address
  retireQuiet : Nat

/-- A chain, and the node's settlement signer and guard. -/
structure RotatingNode (κ : Type) where
  chain : RotationChain κ
  signer : Address
  guard : AdoptionGuard

variable {κ : Type}

def submitClaim (targets : RotationTargets) (key : Address) (chain : RotationChain κ) :
    Tx (RotationChain κ) := do
  let chain ← chain.call key (.claimRotation targets.registry)
  chain.call key (.claimRotation targets.vault)

/-- The retirement of both previous authorities in one transaction. -/
def submitRetirePrevious (targets : RotationTargets) (key : Address) (chain : RotationChain κ) :
    Tx (RotationChain κ) := do
  let chain ← chain.call key (.retirePrevious targets.registry)
  chain.call key (.retirePrevious targets.vault)

/-- The transactions execute on the chain of the node, when they are submitted. -/
def chainSinks (targets : RotationTargets) : Executor (RotatingNode κ) :=
  swapSinks
    (fun key s => do
      let chain ← submitClaim targets key s.chain
      return { s with chain })
    (fun key s => do
      let chain ← submitRetirePrevious targets key s.chain
      return { s with chain })
    fun key s => { s with signer := key }

def recordOf (chain : RotationChain κ) (id : ObjectId) : Option RotationState :=
  (chain.objects id).bind (·.record)

/-- What the poll applies to the records `rs` and `rv` it has read. -/
def applyPlan (targets : RotationTargets) (s : RotatingNode κ) (rs rv : RotationState)
    (instant : Nat) : Tx (Action × AdoptionGuard × RotatingNode κ) :=
  apply (plan rs rv s.chain.now targets.active targets.staged) (some targets.staged)
    (chainSinks targets) s.guard instant s

inductive Event (κ : Type)
  /-- A call by anyone, or the clock moving on. -/
  | call (sender : Address) (c : RotationCall κ)
  /-- A poll that reads both records and the clock at one instant of the chain. -/
  | poll (instant : Nat)
  /-- A crash and a restart on the configured key. -/
  | restart

/-- A step that fails is retried on the next poll; a record that is missing plans nothing. -/
def step (targets : RotationTargets) (s : RotatingNode κ) : Event κ → Option (RotatingNode κ)
  | .call sender c => (s.chain.call sender c).toOption.map fun chain => { s with chain }
  | .poll instant =>
    match recordOf s.chain targets.registry, recordOf s.chain targets.vault with
    | some rs, some rv =>
      match applyPlan targets s rs rv instant with
      | .ok (_, guard, s') => some { s' with guard }
      | .error _ => some s
    | _, _ => some s
  | .restart => some { s with signer := targets.active, guard := .new targets.retireQuiet }

def Start (targets : RotationTargets) (s : RotatingNode κ) : Prop :=
  s.chain.objects = Table.empty ∧ s.chain.opsCaps = Table.empty ∧ s.signer = targets.active ∧
    s.guard = .new targets.retireQuiet

/-! ## What a role says -/

/-- The staged key may claim the object, as far as the planner sees. -/
def Claimable (st : RotationState) (nowMs : Nat) (active staged : Address) : Prop :=
  st.authority = active ∧ ∃ p, st.pending = some p ∧ p.toAddr = staged ∧
    p.eligibleAtMs ≤ nowMs ∧ nowMs ≤ saturatingAdd p.eligibleAtMs claimWindowMs

def InGrace (st : RotationState) (nowMs : Nat) (addr : Address) : Prop :=
  ∃ q, st.prev = some q ∧ q.addr = addr ∧ nowMs ≤ q.untilMs

/-- What each role says about the record it is derived from. -/
inductive RoleOf (st : RotationState) (nowMs : Nat) (active staged : Address) : Role → Prop
  | adopt {untilMs} (authority : st.authority = staged) (grace : InGrace st nowMs active) :
      RoleOf st nowMs active staged (.adopt untilMs)
  | stagedIsAuthority (authority : st.authority = staged) (expired : ¬ InGrace st nowMs active) :
      RoleOf st nowMs active staged .stagedIsAuthority
  | waitingClaim {eligibleAtMs} (foreign : st.authority ≠ staged)
      (authority : st.authority = active) (early : ¬ Claimable st nowMs active staged) :
      RoleOf st nowMs active staged (.waitingClaim eligibleAtMs)
  | claimReady (foreign : st.authority ≠ staged) (claimable : Claimable st nowMs active staged) :
      RoleOf st nowMs active staged .claimReady
  | active (foreign : st.authority ≠ staged) (authority : st.authority = active)
      (nothing : ¬ Claimable st nowMs active staged) : RoleOf st nowMs active staged .active
  | misconfigured (foreign : st.authority ≠ staged) (stranger : st.authority ≠ active) :
      RoleOf st nowMs active staged .misconfigured

theorem roleOf_deriveRole (st : RotationState) (nowMs : Nat) (active staged : Address) :
    RoleOf st nowMs active staged (deriveRole st nowMs active staged) := by
  unfold deriveRole
  split_ifs with hstaged hactive
  · split
    · rename_i q hq
      split_ifs with hgrace
      · exact .adopt hstaged ⟨q, hq, hgrace⟩
      · refine .stagedIsAuthority hstaged ?_
        rintro ⟨q', hq', haddr, hle⟩
        rw [hq] at hq'; cases hq'
        exact hgrace ⟨haddr, hle⟩
    · rename_i hnone
      refine .stagedIsAuthority hstaged ?_
      rintro ⟨q, hq, -⟩
      rw [hnone] at hq; cases hq
  · split
    · rename_i p hp
      -- what a claim needs of the one pending request
      have hiff : Claimable st nowMs active staged ↔ p.toAddr = staged ∧ p.eligibleAtMs ≤ nowMs ∧
          nowMs ≤ saturatingAdd p.eligibleAtMs claimWindowMs := by
        simp [Claimable, hactive, hp]
      split_ifs with hto hearly hlate
      · exact .waitingClaim hstaged hactive fun hc => absurd (hiff.1 hc).2.1 (by omega)
      · exact .claimReady hstaged (hiff.2 ⟨hto, Nat.le_of_not_lt hearly, hlate⟩)
      · exact .active hstaged hactive fun hc => hlate (hiff.1 hc).2.2
      · exact .active hstaged hactive fun hc => hto (hiff.1 hc).1
    · rename_i hnone
      refine .active hstaged hactive ?_
      rintro ⟨-, p, hp, -⟩
      rw [hnone] at hp; cases hp
  · exact .misconfigured hstaged hactive

/-- What each plan says about the two records. -/
inductive PlanOf (rs rv : RotationState) (nowMs : Nat) (active staged : Address) : Plan → Prop
  | idleActive (foreign : rs.authority ≠ staged) (registry : rs.authority = active)
      (vault : rv.authority = active)
      (nothing : ¬ (Claimable rs nowMs active staged ∧ Claimable rv nowMs active staged)) :
      PlanOf rs rv nowMs active staged .idle
  | idleRetired (registry : rs.authority = staged) (vault : rv.authority = staged)
      (retired : rs.prev = none ∧ rv.prev = none) : PlanOf rs rv nowMs active staged .idle
  | claim (foreign : rs.authority ≠ staged) (registry : Claimable rs nowMs active staged)
      (vault : Claimable rv nowMs active staged) : PlanOf rs rv nowMs active staged .claim
  | adopt (registry : rs.authority = staged) (vault : rv.authority = staged)
      (graces : InGrace rs nowMs active ∧ InGrace rv nowMs active) :
      PlanOf rs rv nowMs active staged .adopt
  | retire (registry : rs.authority = staged) (vault : rv.authority = staged)
      (expired : ¬ InGrace rs nowMs active ∧ ¬ InGrace rv nowMs active)
      (left : rs.prev.isSome ∨ rv.prev.isSome) : PlanOf rs rv nowMs active staged .retire
  | misconfigured : PlanOf rs rv nowMs active staged .misconfigured

theorem planOf_plan (rs rv : RotationState) (nowMs : Nat) (active staged : Address) :
    PlanOf rs rv nowMs active staged (plan rs rv nowMs active staged) := by
  have hs := roleOf_deriveRole rs nowMs active staged
  have hv := roleOf_deriveRole rv nowMs active staged
  unfold plan
  split
  · exact .misconfigured
  · exact .misconfigured
  · rename_i h₁ h₂
    rw [h₁] at hs; rw [h₂] at hv
    cases hs with
    | claimReady hne hcs => cases hv with | claimReady _ hcv => exact .claim hne hcs hcv
  · rename_i h₁ h₂
    rw [h₁] at hs; rw [h₂] at hv
    cases hs with
    | adopt has hgs => cases hv with | adopt hav hgv => exact .adopt has hav ⟨hgs, hgv⟩
  · rename_i h₁ h₂
    rw [h₁] at hs; rw [h₂] at hv
    cases hs with
    | stagedIsAuthority has hos =>
      cases hv with
      | stagedIsAuthority hav hov =>
        split_ifs with hleft
        · exact .retire has hav ⟨hos, hov⟩ hleft
        · simp only [not_or, Bool.not_eq_true, Option.isSome_eq_false_iff,
            Option.isNone_iff_eq_none] at hleft
          exact .idleRetired has hav hleft
  · rename_i h₁ h₂
    rw [h₁] at hs; rw [h₂] at hv
    cases hs with
    | active hne has hns =>
      cases hv with | active _ hav _ => exact .idleActive hne has hav fun h => hns h.1
  · rename_i h₁ h₂
    rw [h₁] at hs; rw [h₂] at hv
    cases hs with
    | waitingClaim hne has hns =>
      cases hv with | waitingClaim _ hav _ => exact .idleActive hne has hav fun h => hns h.1
  · exact .misconfigured

end KeyRotation

end Podseq.Node
