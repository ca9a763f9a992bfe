import Podseq.Lib.BcsCanonical
import Podseq.Lib.BigEndian
import Podseq.Lib.Submission
import Podseq.Move.Package
import Podseq.Node.KeyRotation
import Podseq.Node.PeerBookReader

/-! # The rotation task on the published package

Every poll asks for the two rotation records under the ids of their fields. The key of such a field
is an empty struct, which the ledger writes as one byte and the reader as none: the poll takes each
record for missing, whatever is on the ledger, and turns to the migration.
-/
namespace Podseq.Node
open Podseq.Lib Podseq.Move Podseq.Move.Rotation LedgerObjects
open PeerBookReader (emptyStructBcs)

namespace CapMigration

/-! ## The records on the ledger -/

/-- An address is written most significant byte first. -/
def address : Bcs Address where
  write n := beBytes 32 n
  read bytes := (Bcs.readBytes 32 bytes).map fun (xs, rest) => (ofBeBytes xs, rest)
  Fits n := n < 256 ^ 32
  read_write n rest h := by
    simp only [Bcs.readBytes_append length_beBytes, Option.map_some, ofBeBytes_beBytes h]

def stateBcs : Bcs (Address × Option (Address × Nat) × Option (Address × Nat)) :=
  .pair address (.pair (.option (.pair address .u64)) (.option (.pair address .u64)))

def stateField (id : FixedBytes 32) (st : RotationState) : Bytes :=
  (Bcs.fixed 32).write id ++ (emptyStructBcs ++ stateBcs.write (st.authority,
    st.prev.map fun prev => (prev.addr, prev.untilMs),
    st.pending.map fun pending => (pending.toAddr, pending.eligibleAtMs)))

def rotationRecord (w : World) (id : ObjectId) : Option RotationState :=
  match w.registries id with
  | some registry => registry.uid.record
  | none => (w.vaults id).bind (·.uid.record)

/-! ## The reader -/

def stateKeyBcs : Bytes := []

def parseRotationState (field : Bytes) : Except InboxError RotationState :=
  match (Bcs.pair (.fixed 32) stateBcs).ofBytes field with
  | some (_, authority, prev, pending) =>
    .ok ⟨authority, prev.map fun (addr, untilMs) => ⟨addr, untilMs⟩,
      pending.map fun (toAddr, eligibleAtMs) => ⟨toAddr, eligibleAtMs⟩⟩
  | none => .error .parseState

/-- `entombment_needed`: only an object that does not exist needs it. -/
def entombmentNeeded : Except InboxError Bytes → Except InboxError Bool
  | .error (.notFound _) => .ok true
  | .error e => .error e
  | .ok _ => .ok false

/-! ## The task -/

structure EntombCaps where
  settler : Option ObjectId
  bridge : Option ObjectId
deriving DecidableEq, Repr

inductive EntombStep
  | present | entombed | unconfigured
deriving DecidableEq, Repr

structure MigrationReport where
  settler : EntombStep
  bridge : EntombStep
deriving DecidableEq, Repr

/-- What the task is spawned with, the ids that the ledger derives for fields, and what a full node
of it replies. -/
structure TaskConfig where
  registry : ObjectId
  vault : ObjectId
  active : Address
  staged : Option Address
  caps : EntombCaps
  retireQuiet : Nat
  childId : ObjectId → Bytes → FixedBytes 32
  get : World → FixedBytes 32 → ObjectReply

/-- A sender with the calls of one transaction. -/
abbrev Transaction := Address × List Call

/-- All calls of a transaction execute, or none. -/
def execute (tx : Transaction) (w : World) : Tx (World × Unit) := do
  let w ← tx.2.foldlM (fun w c => w.call tx.1 c) w
  return (w, ())

/-- Where the task is: between polls, before a read of `plan`, before its step, or inside
`ensure_entombed`. -/
inductive Phase
  | waiting
  | readSettlement
  | readVault (settlement : Bytes)
  | readClock (settlement vault : Bytes)
  | planned (plan : KeyRotation.Plan)
  | checkSettler
  | entombSettler (cap : ObjectId)
  | checkBridge (settler : EntombStep)
  | entombBridge (settler : EntombStep) (cap : ObjectId)
deriving DecidableEq, Repr

structure MigrationWorld where
  ledger : Submissions World Transaction
  /-- The address of the key that the settlement signer holds. -/
  signer : Address
  guard : KeyRotation.AdoptionGuard
  phase : Phase
  /-- The transactions that the task submitted, the last one first. -/
  sent : List Transaction
  /-- What its calls of `ensure_entombed` returned, the last one first. -/
  reports : List (Except InboxError MigrationReport)

namespace MigrationWorld

def spawn (c : TaskConfig) (now : Nat) : MigrationWorld where
  ledger := ⟨World.published now, []⟩
  signer := c.active
  guard := .new c.retireQuiet
  phase := .waiting
  sent := []
  reports := []

def reply (c : TaskConfig) (m : MigrationWorld) (answered : Bool) (parent : ObjectId) :
    Except InboxError Bytes :=
  transportContents (if answered then c.get m.ledger.state else fun _ => .failed "transport")
    (c.childId parent stateKeyBcs)

def report (m : MigrationWorld) (outcome : Except InboxError MigrationReport) : MigrationWorld :=
  { m with phase := .waiting, reports := outcome :: m.reports }

/-- The beginning of a poll; without a staged key there is nothing to plan. -/
def tick (c : TaskConfig) (m : MigrationWorld) : Option MigrationWorld :=
  match m.phase with
  | .waiting => some { m with phase := if c.staged.isSome then .readSettlement else .checkSettler }
  | _ => none

/-- The two records that `status` parses once it has read the clock. -/
def parseStates (settlement vault : Bytes) : Except InboxError (RotationState × RotationState) := do
  let settlement ← parseRotationState settlement
  let vault ← parseRotationState vault
  return (settlement, vault)

/-- One read. A plan that cannot be read leads to the migration, a migration that cannot read ends;
a missing record leads to the entombment of a configured capability. -/
def read (c : TaskConfig) (m : MigrationWorld) (answered : Bool) : Option MigrationWorld :=
  match m.phase with
  | .readSettlement =>
    match m.reply c answered c.registry with
    | .ok settlement => some { m with phase := .readVault settlement }
    | .error _ => some { m with phase := .checkSettler }
  | .readVault settlement =>
    match m.reply c answered c.vault with
    | .ok vault => some { m with phase := .readClock settlement vault }
    | .error _ => some { m with phase := .checkSettler }
  | .readClock settlement vault =>
    match answered, parseStates settlement vault, c.staged with
    | true, .ok (rs, rv), some staged =>
      some { m with phase := .planned (KeyRotation.plan rs rv m.ledger.state.now c.active staged) }
    | _, _, _ => some { m with phase := .checkSettler }
  | .checkSettler =>
    match entombmentNeeded (m.reply c answered c.registry), c.caps.settler with
    | .ok true, some cap => some { m with phase := .entombSettler cap }
    | .ok true, none => some { m with phase := .checkBridge .unconfigured }
    | .ok false, _ => some { m with phase := .checkBridge .present }
    | .error e, _ => some (m.report (.error e))
  | .checkBridge settler =>
    match entombmentNeeded (m.reply c answered c.vault), c.caps.bridge with
    | .ok true, some cap => some { m with phase := .entombBridge settler cap }
    | .ok true, none => some (m.report (.ok ⟨settler, .unconfigured⟩))
    | .ok false, _ => some (m.report (.ok ⟨settler, .present⟩))
    | .error e, _ => some (m.report (.error e))
  | _ => none

/-- The task submits `tx`, and is told whether it executed. -/
def send (m : MigrationWorld) (tx : Transaction) (receipt : Confirmation) : MigrationWorld × Bool :=
  let (ledger, outcome) := m.ledger.submit execute tx receipt
  ({ m with ledger, sent := tx :: m.sent }, outcome.isSome)

structure Request where
  tx : Option Transaction
  signer : Address

/-- The transactions are left to be sent. -/
def requestSinks (c : TaskConfig) : KeyRotation.Executor Request :=
  KeyRotation.swapSinks
    (fun key s => .ok { s with
      tx := some (key, [.onRegistry c.registry .claimRotation, .onVault c.vault .claimRotation]) })
    (fun key s => .ok { s with
      tx := some (key,
        [.onRegistry c.registry .retirePrevious, .onVault c.vault .retirePrevious]) })
    fun key s => { s with signer := key }

/-- The step of a plan; what fails is left to the next poll. -/
def submitPlan (c : TaskConfig) (m : MigrationWorld) (plan : KeyRotation.Plan)
    (receipt : Confirmation) (instant : Nat) : MigrationWorld :=
  match KeyRotation.apply plan c.staged (requestSinks c) m.guard instant ⟨none, m.signer⟩ with
  | .ok (_, guard, ⟨some tx, signer⟩) =>
    { (m.send tx receipt).1 with guard, signer, phase := .waiting }
  | .ok (_, guard, ⟨none, signer⟩) => { m with guard, signer, phase := .waiting }
  | .error _ => { m with phase := .waiting }

def submit (c : TaskConfig) (m : MigrationWorld) (receipt : Confirmation) (instant : Nat) :
    Option MigrationWorld :=
  match m.phase with
  | .planned plan => some (m.submitPlan c plan receipt instant)
  | .entombSettler cap =>
    match m.send (m.signer, [.entombSettlerCapOps cap c.registry]) receipt with
    | (m, true) => some { m with phase := .checkBridge .entombed }
    | (m, false) => some (m.report (.error .entombSettler))
  | .entombBridge settler cap =>
    match m.send (m.signer, [.entombBridgeCapOps cap c.vault]) receipt with
    | (m, true) => some (m.report (.ok ⟨settler, .entombed⟩))
    | (m, false) => some (m.report (.error .entombBridge))
  | _ => none

inductive Action
  /-- A call by anyone, or the clock moving on. -/
  | call (sender : Address) (c : Call)
  /-- A transaction of the task executes without a receipt. -/
  | land (i : Nat)
  | tick
  | read (answered : Bool)
  | submit (receipt : Confirmation) (instant : Nat)
  /-- A crash, and a restart on the configured key. -/
  | restart
deriving DecidableEq, Repr

def exec (c : TaskConfig) (m : MigrationWorld) : Action → Option MigrationWorld
  | .call sender call =>
    match m.ledger.state.call sender call with
    | .ok w => some { m with ledger := { m.ledger with state := w } }
    | .error _ => none
  | .land i => (m.ledger.land execute i).map fun ledger => { m with ledger }
  | .tick => m.tick c
  | .read answered => m.read c answered
  | .submit receipt instant => m.submit c receipt instant
  | .restart => some { m with signer := c.active, guard := .new c.retireQuiet, phase := .waiting }

def Start (c : TaskConfig) (m : MigrationWorld) : Prop := ∃ now, m = spawn c now

/-! ## What a poll finds -/

def fieldId (childId : ObjectId → Bytes → FixedBytes 32) (field : ObjectId × Bytes) :
    FixedBytes 32 := childId field.1 field.2

/-- The contents of a rotation state, if there is one; objects have ids that were given out. -/
def stored (childId : ObjectId → Bytes → FixedBytes 32) (w : World) (field : ObjectId × Bytes) :
    Option Bytes :=
  if field.2 = emptyStructBcs ∧ field.1 < w.nextId then
    (rotationRecord w field.1).map (stateField (fieldId childId field))
  else none

/-- The ids under which the task looks are ids of no record, and the full node serves the records
that there are. -/
structure Sound (c : TaskConfig) : Prop where
  apart : ∀ parent parent', c.childId parent stateKeyBcs ≠ c.childId parent' emptyStructBcs
  serves : ∀ w, Serves (c.get w) (fieldId c.childId) (stored c.childId w)

variable {c : TaskConfig} {m m' : MigrationWorld} {w w' : World} {a : Action} {tx : Transaction}
  {cap : ObjectId} {sender : Address} {call : Call} {receipt : Confirmation}

/-- Under the ids of the task there is nothing. -/
theorem get_missing (hsound : Sound c) (w : World) (parent : ObjectId) :
    c.get w (c.childId parent stateKeyBcs) = .noObject := by
  refine (hsound.serves w).absent (parent, stateKeyBcs) fun field hid => if_neg fun h => ?_
  refine hsound.apart parent field.1 ?_
  rw [← h.1]
  exact hid.symm

theorem reply_missing (hsound : Sound c) (answered : Bool) (parent : ObjectId) :
    m.reply c answered parent = .error (if answered then .notFound (.objectNotFound "inbox")
      else .rpc (.rpc "transport")) := by
  cases answered with
  | true => exact transportContents_absent (get_missing hsound _ parent)
  | false => exact transportContents_failed rfl

/-- A record is missing in every answer. -/
theorem needed_missing (hsound : Sound c) (answered : Bool) (parent : ObjectId) :
    entombmentNeeded (m.reply c answered parent) =
      if answered then .ok true else .error (.rpc (.rpc "transport")) := by
  rw [reply_missing hsound]
  cases answered <;> rfl

/-! ## What a call does to a capability -/

def Spent (cap : ObjectId) (w : World) : Prop := cap < w.nextId ∧ w.settlerCaps cap = none

/-- Every capability has an id that was given out. -/
def Issued (w : World) : Prop := ∀ cap owner, w.settlerCaps cap = some owner → cap < w.nextId

/-- A capability is made by `initialize`; only its owner sends it on or entombs it. -/
theorem call_settlerCaps (h : w.call sender call = .ok w') :
    w'.settlerCaps = w.settlerCaps ∨
    (w'.settlerCaps = Function.update w.settlerCaps (w.nextId + 1) (some sender) ∧
      w.nextId + 1 < w'.nextId) ∨
    ∃ cap owner, w.settlerCaps cap = some sender ∧
      w'.settlerCaps = Function.update w.settlerCaps cap owner := by
  cases call with
  | initializeSettlement =>
    cases h
    exact .inr (.inl ⟨rfl, Nat.lt_succ_self _⟩)
  | entombSettlerCapOps cap registry =>
    simp only [World.call, bind_eq_ok, require_eq_ok, exists_const, pure_eq_ok] at h
    obtain ⟨hcap, r, -, r', -, rfl⟩ := h
    exact .inr (.inr ⟨cap, none, hcap, rfl⟩)
  | transferSettlerCap cap recipient =>
    simp only [World.call, bind_eq_ok, require_eq_ok, exists_const, pure_eq_ok] at h
    obtain ⟨hcap, rfl⟩ := h
    exact .inr (.inr ⟨cap, some recipient, hcap, rfl⟩)
  | _ =>
    left
    simp only [World.call, bind_eq_ok, pure_eq_ok] at h
    grind

theorem Spent.kept (hs : Spent cap w) (h : w.call sender call = .ok w') : Spent cap w' := by
  obtain ⟨hlt, hnone⟩ := hs
  refine ⟨hlt.trans_le (World.call_nextId h), ?_⟩
  obtain he | ⟨he, -⟩ | ⟨cap', owner, howned, he⟩ := call_settlerCaps h
  · rw [he, hnone]
  · have hne : cap ≠ w.nextId + 1 := Nat.ne_of_lt (hlt.trans (Nat.lt_succ_self _))
    rw [he, Function.update_of_ne hne, hnone]
  · have hne : cap ≠ cap' := by
      rintro rfl
      rw [hnone] at howned
      cases howned
    rw [he, Function.update_of_ne hne, hnone]

theorem Issued.kept (hi : Issued w) (h : w.call sender call = .ok w') : Issued w' := by
  intro cap owner howner
  have hle := World.call_nextId h
  obtain he | ⟨he, hlt⟩ | ⟨cap', owner', howned, he⟩ := call_settlerCaps h
  · rw [he] at howner
    exact (hi cap owner howner).trans_le hle
  · rw [he] at howner
    by_cases hcap : cap = w.nextId + 1
    · rwa [hcap]
    · rw [Function.update_of_ne hcap] at howner
      exact (hi cap owner howner).trans_le hle
  · rw [he] at howner
    by_cases hcap : cap = cap'
    · rw [hcap]
      exact (hi cap' sender howned).trans_le hle
    · rw [Function.update_of_ne hcap] at howner
      exact (hi cap owner howner).trans_le hle

/-- What every call keeps, every transaction keeps. -/
theorem execute_inv {I : World → Prop} {u : Unit}
    (hk : ∀ w sender call w', I w → w.call sender call = .ok w' → I w') (hw : I w)
    (h : execute tx w = .ok (w', u)) : I w' := by
  obtain ⟨sender, calls⟩ := tx
  simp only [execute, bind_eq_ok, pure_eq_ok, Prod.mk.injEq] at h
  obtain ⟨w'', hfold, rfl, -⟩ := h
  induction calls generalizing w with
  | nil =>
    cases hfold
    exact hw
  | cons call calls ih =>
    simp only [List.foldlM_cons, bind_eq_ok] at hfold
    obtain ⟨w₁, hcall, hrest⟩ := hfold
    exact ih (hk _ _ _ _ hw hcall) hrest

/-- A transaction of one call. -/
theorem execute_single : execute (sender, [call]) w = (w.call sender call).map (·, ()) := by
  cases hcall : w.call sender call <;> simp [execute, hcall, Except.map, bind, Except.bind, pure,
    Except.pure]

/-! ## What a step does -/

/-- An entombment that the task is configured for, signed by the configured key. -/
def Entombs (c : TaskConfig) (tx : Transaction) : Prop :=
  (∃ cap, c.caps.settler = some cap ∧
    tx = (c.active, [.entombSettlerCapOps cap c.registry])) ∨
  ∃ cap, c.caps.bridge = some cap ∧ tx = (c.active, [.entombBridgeCapOps cap c.vault])

def entombsBridge : Transaction → Bool
  | (_, [.entombBridgeCapOps _ _]) => true
  | _ => false

def Bridging : Phase → Prop
  | .checkBridge _ | .entombBridge _ _ => True
  | _ => False

/-- The phases of a task that takes every record for missing. -/
def Migrating (c : TaskConfig) : Phase → Prop
  | .waiting | .readSettlement | .checkSettler => True
  | .entombSettler cap => c.caps.settler = some cap
  | .checkBridge settler => settler ≠ .present
  | .entombBridge settler cap => settler ≠ .present ∧ c.caps.bridge = some cap
  | _ => False

/-- Where an answered read leads when it finds no record. -/
inductive Next (c : TaskConfig) : Phase → Phase → Prop
  | unread : Next c .readSettlement .checkSettler
  | settler {cap : ObjectId} (hcap : c.caps.settler = some cap) :
      Next c .checkSettler (.entombSettler cap)
  | skip (hcap : c.caps.settler = none) : Next c .checkSettler (.checkBridge .unconfigured)
  | bridge {settler : EntombStep} {cap : ObjectId} (hcap : c.caps.bridge = some cap) :
      Next c (.checkBridge settler) (.entombBridge settler cap)

/-- What the steps do to a task that takes every record for missing. -/
inductive Step (c : TaskConfig) (m : MigrationWorld) : Action → MigrationWorld → Prop
  | call {sender : Address} {call : Call} {w : World}
      (hcall : m.ledger.state.call sender call = .ok w) :
      Step c m (.call sender call) { m with ledger := { m.ledger with state := w } }
  | land {i : Nat} {ledger : Submissions World Transaction}
      (hland : m.ledger.land execute i = some ledger) : Step c m (.land i) { m with ledger }
  | restart : Step c m .restart
      { m with signer := c.active, guard := .new c.retireQuiet, phase := .waiting }
  | tick (hphase : m.phase = .waiting) : Step c m .tick
      { m with phase := if c.staged.isSome then .readSettlement else .checkSettler }
  | read {answered : Bool} {phase : Phase} (hnext : Next c m.phase phase) :
      Step c m (.read answered) { m with phase }
  | unread (e : InboxError) : Step c m (.read false) (m.report (.error e))
  | unconfigured {settler : EntombStep} (hphase : m.phase = .checkBridge settler)
      (hcap : c.caps.bridge = none) :
      Step c m (.read true) (m.report (.ok ⟨settler, .unconfigured⟩))
  | settlerEntombed {receipt : Confirmation} {instant : Nat} {cap : ObjectId} {w : World}
      (hphase : m.phase = .entombSettler cap)
      (hcall : m.ledger.state.call m.signer (.entombSettlerCapOps cap c.registry) = .ok w) :
      Step c m (.submit receipt instant) { m with
        ledger := { m.ledger with state := w }
        sent := (m.signer, [.entombSettlerCapOps cap c.registry]) :: m.sent
        phase := .checkBridge .entombed }
  | settlerFailed {receipt : Confirmation} {instant : Nat} {cap : ObjectId}
      {ledger : Submissions World Transaction} (hphase : m.phase = .entombSettler cap)
      (hstate : ledger.state = m.ledger.state)
      (hfail : receipt = .confirmed →
        ∃ e, m.ledger.state.call m.signer (.entombSettlerCapOps cap c.registry) = .error e) :
      Step c m (.submit receipt instant) (report { m with
        ledger
        sent := (m.signer, [.entombSettlerCapOps cap c.registry]) :: m.sent }
        (.error .entombSettler))
  | bridgeEntombed {receipt : Confirmation} {instant : Nat} {settler : EntombStep} {cap : ObjectId}
      {w : World} (hphase : m.phase = .entombBridge settler cap)
      (hcall : m.ledger.state.call m.signer (.entombBridgeCapOps cap c.vault) = .ok w) :
      Step c m (.submit receipt instant) (report { m with
        ledger := { m.ledger with state := w }
        sent := (m.signer, [.entombBridgeCapOps cap c.vault]) :: m.sent }
        (.ok ⟨settler, .entombed⟩))
  | bridgeFailed {receipt : Confirmation} {instant : Nat} {settler : EntombStep} {cap : ObjectId}
      {ledger : Submissions World Transaction} (hphase : m.phase = .entombBridge settler cap)
      (hstate : ledger.state = m.ledger.state)
      (hfail : receipt = .confirmed →
        ∃ e, m.ledger.state.call m.signer (.entombBridgeCapOps cap c.vault) = .error e) :
      Step c m (.submit receipt instant) (report { m with
        ledger
        sent := (m.signer, [.entombBridgeCapOps cap c.vault]) :: m.sent }
        (.error .entombBridge))

theorem send_true (h : m.send (sender, [call]) receipt = (m', true)) :
    ∃ w, m.ledger.state.call sender call = .ok w ∧
      m' = { m with
        ledger := { m.ledger with state := w }, sent := (sender, [call]) :: m.sent } := by
  simp only [send, Prod.mk.injEq] at h
  obtain ⟨rfl, hsome⟩ := h
  obtain ⟨u, hsome⟩ := Option.isSome_iff_exists.1 hsome
  obtain ⟨-, w, hexec, hledger⟩ := Submissions.submit_eq_some (Prod.ext rfl hsome)
  rw [execute_single] at hexec
  cases hcall : m.ledger.state.call sender call with
  | error e =>
    rw [hcall] at hexec
    cases hexec
  | ok w' =>
    rw [hcall] at hexec
    cases hexec
    exact ⟨w, rfl,
      congrArg (fun ledger => { m with ledger, sent := (sender, [call]) :: m.sent }) hledger⟩

theorem send_false (h : m.send (sender, [call]) receipt = (m', false)) :
    ∃ ledger, ledger.state = m.ledger.state ∧
      (receipt = .confirmed → ∃ e, m.ledger.state.call sender call = .error e) ∧
      m' = { m with ledger, sent := (sender, [call]) :: m.sent } := by
  simp only [send, Prod.mk.injEq, Option.isSome_eq_false_iff, Option.isNone_iff_eq_none] at h
  obtain ⟨rfl, hnone⟩ := h
  obtain ⟨hstate, hfail⟩ := Submissions.submit_eq_none (Prod.ext rfl hnone)
  refine ⟨_, hstate, fun hreceipt => ?_, rfl⟩
  obtain ⟨-, e, hexec⟩ := hfail hreceipt
  rw [execute_single] at hexec
  cases hcall : m.ledger.state.call sender call with
  | error e' => exact ⟨e', rfl⟩
  | ok w =>
    rw [hcall] at hexec
    cases hexec

theorem step_read (hsound : Sound c) (hphase : Migrating c m.phase) {answered : Bool}
    (hs : m.read c answered = some m') : Step c m (.read answered) m' := by
  unfold MigrationWorld.read at hs
  split at hs
  · rename_i he
    rw [reply_missing hsound] at hs
    cases hs
    exact .read (he ▸ .unread)
  · rename_i settlement he
    rw [he] at hphase
    exact hphase.elim
  · rename_i settlement vault he
    rw [he] at hphase
    exact hphase.elim
  · rename_i he
    rw [needed_missing hsound] at hs
    cases answered with
    | false =>
      cases hs
      exact .unread _
    | true =>
      cases hcap : c.caps.settler with
      | none =>
        rw [hcap] at hs
        cases hs
        exact .read (he ▸ .skip hcap)
      | some cap =>
        rw [hcap] at hs
        cases hs
        exact .read (he ▸ .settler hcap)
  · rename_i settler he
    rw [needed_missing hsound] at hs
    cases answered with
    | false =>
      cases hs
      exact .unread _
    | true =>
      cases hcap : c.caps.bridge with
      | none =>
        rw [hcap] at hs
        cases hs
        exact .unconfigured he hcap
      | some cap =>
        rw [hcap] at hs
        cases hs
        exact .read (he ▸ .bridge hcap)
  · cases hs

theorem step_submit (hphase : Migrating c m.phase) {instant : Nat}
    (hs : m.submit c receipt instant = some m') : Step c m (.submit receipt instant) m' := by
  unfold MigrationWorld.submit at hs
  split at hs
  · rename_i plan he
    rw [he] at hphase
    exact hphase.elim
  · rename_i cap he
    split at hs
    · rename_i hsend
      obtain ⟨w, hcall, rfl⟩ := send_true hsend
      cases hs
      exact .settlerEntombed he hcall
    · rename_i hsend
      obtain ⟨ledger, hstate, hfail, rfl⟩ := send_false hsend
      cases hs
      exact .settlerFailed he hstate hfail
  · rename_i settler cap he
    split at hs
    · rename_i hsend
      obtain ⟨w, hcall, rfl⟩ := send_true hsend
      cases hs
      exact .bridgeEntombed he hcall
    · rename_i hsend
      obtain ⟨ledger, hstate, hfail, rfl⟩ := send_false hsend
      cases hs
      exact .bridgeFailed he hstate hfail
  · cases hs

theorem step_exec (hsound : Sound c) (hphase : Migrating c m.phase)
    (hs : m.exec c a = some m') : Step c m a m' := by
  cases a with
  | call sender call =>
    rw [exec] at hs
    split at hs
    · rename_i w hcall
      cases hs
      exact .call hcall
    · cases hs
  | land i =>
    simp only [exec, Option.map_eq_some_iff] at hs
    obtain ⟨ledger, hland, rfl⟩ := hs
    exact .land hland
  | tick =>
    simp only [exec, tick] at hs
    split at hs
    · rename_i he
      cases hs
      exact .tick he
    · cases hs
  | read answered => exact step_read hsound hphase hs
  | submit receipt instant => exact step_submit hphase hs
  | restart =>
    cases hs
    exact .restart

/-- A transaction in flight keeps what every call keeps. -/
theorem land_keeps {I : World → Prop} {i : Nat} {ledger : Submissions World Transaction}
    (hk : ∀ w sender call w', I w → w.call sender call = .ok w' → I w')
    (h : m.ledger.land execute i = some ledger) (hI : I m.ledger.state) : I ledger.state := by
  have hkeeps : Submissions.Keeps I (fun _ => True) m.ledger := ⟨hI, fun _ _ => trivial⟩
  exact (hkeeps.land (fun tx st st' r _ hst hexec => execute_inv hk hst hexec) h).state

/-- What every call keeps, every step keeps. -/
theorem Step.keeps {I : World → Prop}
    (hk : ∀ w sender call w', I w → w.call sender call = .ok w' → I w')
    (hs : Step c m a m') (hI : I m.ledger.state) : I m'.ledger.state := by
  cases hs with
  | call hcall => exact hk _ _ _ _ hI hcall
  | land hland => exact land_keeps hk hland hI
  | settlerEntombed _ hcall => exact hk _ _ _ _ hI hcall
  | settlerFailed _ hstate => exact hstate.symm ▸ hI
  | bridgeEntombed _ hcall => exact hk _ _ _ _ hI hcall
  | bridgeFailed _ hstate => exact hstate.symm ▸ hI
  | restart | tick | read | unread | unconfigured => exact hI

/-! ## What a task that finds no record does -/

/-- The task holds the configured key, and has submitted configured entombments only. -/
structure Watches (c : TaskConfig) (m : MigrationWorld) : Prop where
  signer : m.signer = c.active
  guard : m.guard = .new c.retireQuiet
  phase : Migrating c m.phase
  sent : ∀ tx ∈ m.sent, Entombs c tx
  reports : ∀ settler bridge, .ok ⟨settler, bridge⟩ ∈ m.reports →
    settler ≠ .present ∧ bridge ≠ .present

theorem Watches.report {outcome : Except InboxError MigrationReport} (h : Watches c m)
    (hreport : ∀ settler bridge, outcome = .ok ⟨settler, bridge⟩ →
      settler ≠ .present ∧ bridge ≠ .present) : Watches c (m.report outcome) := by
  refine ⟨h.signer, h.guard, trivial, h.sent, fun settler bridge hmem => ?_⟩
  rcases List.mem_cons.1 hmem with heq | hold
  · exact hreport settler bridge heq.symm
  · exact h.reports settler bridge hold

theorem Watches.submitted (h : Watches c m) (htx : Entombs c tx)
    (ledger : Submissions World Transaction) :
    Watches c { m with ledger, sent := tx :: m.sent } := by
  refine ⟨h.signer, h.guard, h.phase, fun tx' htx' => ?_, h.reports⟩
  rcases List.mem_cons.1 htx' with rfl | hold
  · exact htx
  · exact h.sent tx' hold

theorem Next.migrating {phase phase' : Phase} (h : Next c phase phase')
    (hphase : Migrating c phase) : Migrating c phase' := by
  cases h with
  | unread => trivial
  | settler hcap => exact hcap
  | skip => exact nofun
  | bridge hcap => exact ⟨hphase, hcap⟩

theorem Watches.entombsSettler (h : Watches c m) (hphase : m.phase = .entombSettler cap) :
    Entombs c (m.signer, [.entombSettlerCapOps cap c.registry]) := by
  have hcap := h.phase
  rw [hphase] at hcap
  exact .inl ⟨cap, hcap, by rw [h.signer]⟩

theorem Watches.entombsBridge {settler : EntombStep} (h : Watches c m)
    (hphase : m.phase = .entombBridge settler cap) :
    settler ≠ .present ∧ Entombs c (m.signer, [.entombBridgeCapOps cap c.vault]) := by
  have hcap := h.phase
  rw [hphase] at hcap
  exact ⟨hcap.1, .inr ⟨cap, hcap.2, by rw [h.signer]⟩⟩

theorem Watches.step (h : Watches c m) (hs : Step c m a m') : Watches c m' := by
  cases hs with
  | call | land => exact ⟨h.signer, h.guard, h.phase, h.sent, h.reports⟩
  | restart => exact ⟨rfl, rfl, trivial, h.sent, h.reports⟩
  | tick =>
    refine ⟨h.signer, h.guard, ?_, h.sent, h.reports⟩
    dsimp only
    split <;> trivial
  | read hnext => exact ⟨h.signer, h.guard, hnext.migrating h.phase, h.sent, h.reports⟩
  | unread e => exact h.report (nofun)
  | unconfigured hphase =>
    have hsettler := h.phase
    rw [hphase] at hsettler
    refine h.report fun settler bridge heq => ?_
    cases heq
    exact ⟨hsettler, nofun⟩
  | settlerFailed hphase => exact (h.submitted (h.entombsSettler hphase) _).report (nofun)
  | settlerEntombed hphase =>
    obtain ⟨hsigner, hguard, -, hsent, hreports⟩ :=
      h.submitted (h.entombsSettler hphase) m.ledger
    exact ⟨hsigner, hguard, nofun, hsent, hreports⟩
  | bridgeFailed hphase => exact (h.submitted (h.entombsBridge hphase).2 _).report (nofun)
  | bridgeEntombed hphase =>
    obtain ⟨hsettler, htx⟩ := h.entombsBridge hphase
    refine (h.submitted htx _).report fun settler bridge heq => ?_
    cases heq
    exact ⟨hsettler, nofun⟩

theorem reachable_watches (hsound : Sound c) (h : Reachable (Start c) (enabled (exec c)) m) :
    Watches c m := by
  refine h.inv (I := Watches c) ?_ fun s a t hw hs => hw.step (step_exec hsound hw.phase hs)
  rintro m ⟨now, rfl⟩
  exact ⟨rfl, rfl, trivial, nofun, nofun⟩

/-! ## How often it comes to the Vault -/

def returned : Except InboxError MigrationReport → Bool
  | .ok _ => true
  | .error _ => false

@[simp] theorem countP_entombSettler {sent : List Transaction} {registry : ObjectId} :
    ((sender, [.entombSettlerCapOps cap registry]) :: sent).countP entombsBridge =
      sent.countP entombsBridge :=
  List.countP_cons_of_neg Bool.false_ne_true

@[simp] theorem countP_entombBridge {sent : List Transaction} {vault : ObjectId} :
    ((sender, [.entombBridgeCapOps cap vault]) :: sent).countP entombsBridge =
      sent.countP entombsBridge + 1 :=
  List.countP_cons_of_pos rfl

@[simp] theorem countP_error {reports : List (Except InboxError MigrationReport)}
    {e : InboxError} : ((.error e) :: reports).countP returned = reports.countP returned :=
  List.countP_cons_of_neg Bool.false_ne_true

@[simp] theorem countP_ok {reports : List (Except InboxError MigrationReport)}
    {r : MigrationReport} : ((.ok r) :: reports).countP returned = reports.countP returned + 1 :=
  List.countP_cons_of_pos rfl

/-- The task comes to the Vault at most once, behind the one entombment of its `SettlerCap`. -/
structure Once (cap : ObjectId) (w : World) (bridging : Prop) (sent reports : Nat) : Prop where
  issued : Issued w
  first : bridging → sent = 0 ∧ reports = 0
  sentOnce : sent ≤ 1
  reportsOnce : reports ≤ 1
  spent : bridging ∨ 0 < sent ∨ 0 < reports → Spent cap w

def OnceIn (cap : ObjectId) (m : MigrationWorld) : Prop :=
  Once cap m.ledger.state (Bridging m.phase) (m.sent.countP entombsBridge)
    (m.reports.countP returned)

section
variable {bridging : Prop} {sent reports : Nat}

theorem Once.leave (h : Once cap w bridging sent reports) : Once cap w False sent reports :=
  ⟨h.issued, False.elim, h.sentOnce, h.reportsOnce,
    fun hpast => h.spent (.inr (hpast.resolve_left id))⟩

/-- The Vault is behind the task. -/
theorem Once.past {sent' reports' : Nat} (h : Once cap w bridging sent reports) (hb : bridging)
    (hsent : sent' ≤ sent + 1) (hreports : reports' ≤ reports + 1) :
    Once cap w False sent' reports' := by
  obtain ⟨hnone, hnone'⟩ := h.first hb
  exact ⟨h.issued, False.elim, by omega, by omega, fun _ => h.spent (.inl hb)⟩

theorem Once.kept (h : Once cap w bridging sent reports) (hcall : w.call sender call = .ok w') :
    Once cap w' bridging sent reports :=
  ⟨h.issued.kept hcall, h.first, h.sentOnce, h.reportsOnce, fun hpast => (h.spent hpast).kept hcall⟩

theorem call_entombSettler {registry : ObjectId}
    (h : w.call sender (.entombSettlerCapOps cap registry) = .ok w') :
    w.settlerCaps cap = some sender ∧ w'.settlerCaps cap = none := by
  simp only [World.call, bind_eq_ok, require_eq_ok, exists_const, pure_eq_ok] at h
  obtain ⟨hcap, r, -, r', -, rfl⟩ := h
  exact ⟨hcap, Function.update_self ..⟩

/-- A capability that is entombed was not entombed before. -/
theorem Once.entombed {registry : ObjectId} (h : Once cap w bridging sent reports)
    (hcall : w.call sender (.entombSettlerCapOps cap registry) = .ok w') :
    Once cap w' True sent reports := by
  obtain ⟨hbefore, hafter⟩ := call_entombSettler hcall
  have hunspent : ¬Spent cap w := by
    intro hspent
    rw [hspent.2] at hbefore
    cases hbefore
  have hlt := (h.issued cap _ hbefore).trans_le (World.call_nextId hcall)
  have hsent := mt (fun hpos => h.spent (.inr (.inl hpos))) hunspent
  have hreports := mt (fun hpos => h.spent (.inr (.inr hpos))) hunspent
  exact ⟨h.issued.kept hcall, fun _ => ⟨by omega, by omega⟩, h.sentOnce, h.reportsOnce,
    fun _ => ⟨hlt, hafter⟩⟩

end

theorem Next.bridging {phase phase' : Phase} (h : Next c phase phase')
    (hcap : c.caps.settler = some cap) (hb : Bridging phase') : Bridging phase := by
  cases h with
  | unread | settler => exact hb.elim
  | skip hnone =>
    rw [hcap] at hnone
    cases hnone
  | bridge => trivial

theorem OnceIn.step (hw : Watches c m) (hcap : c.caps.settler = some cap) (h : OnceIn cap m)
    (hs : Step c m a m') : OnceIn cap m' := by
  cases hs with
  | call hcall => exact Once.kept h hcall
  | land hland => exact land_keeps (fun _ _ _ _ hi hcall => Once.kept hi hcall) hland h
  | restart => exact Once.leave h
  | tick hphase =>
    unfold OnceIn
    split <;> exact Once.leave h
  | read hnext =>
    have hback := hnext.bridging hcap
    exact ⟨h.issued, fun hb => h.first (hback hb), h.sentOnce, h.reportsOnce,
      fun hpast => h.spent (hpast.imp_left hback)⟩
  | unread e =>
    simp only [OnceIn, report, countP_error]
    exact Once.leave h
  | unconfigured hphase =>
    simp only [OnceIn, report, countP_ok]
    exact Once.past h (by rw [hphase]; trivial) (Nat.le_succ _) (Nat.le_refl _)
  | settlerFailed hphase hstate =>
    simp only [OnceIn, report, countP_entombSettler, countP_error, hstate]
    exact Once.leave h
  | settlerEntombed hphase hcall =>
    have hcap' := hw.phase
    rw [hphase] at hcap'
    obtain rfl := Option.some.inj (hcap.symm.trans hcap')
    simp only [OnceIn, countP_entombSettler]
    exact Once.entombed h hcall
  | bridgeFailed hphase hstate =>
    simp only [OnceIn, report, countP_entombBridge, countP_error, hstate]
    exact Once.past h (by rw [hphase]; trivial) (Nat.le_refl _) (Nat.le_succ _)
  | bridgeEntombed hphase hcall =>
    simp only [OnceIn, report, countP_entombBridge, countP_ok]
    exact Once.past (Once.kept h hcall) (by rw [hphase]; trivial) (Nat.le_refl _) (Nat.le_refl _)

theorem reachable_once (hsound : Sound c) (hcap : c.caps.settler = some cap)
    (h : Reachable (Start c) (enabled (exec c)) m) : OnceIn cap m := by
  refine h.inv_of (I := OnceIn cap) (J := Watches c) (fun _ => reachable_watches hsound) ?_
    fun s a t hw _ ho hs => ho.step hw hcap (step_exec hsound hw.phase hs)
  rintro m ⟨now, rfl⟩
  exact ⟨nofun, False.elim, Nat.zero_le _, Nat.zero_le _, by
    rintro (h | h | h)
    · exact h.elim
    · exact absurd h (Nat.lt_irrefl 0)
    · exact absurd h (Nat.lt_irrefl 0)⟩

/-! ## A deployment from before the rotation -/

/-- An id with the length of the key in its first byte. -/
def childOf (parent : ObjectId) (key : Bytes) : FixedBytes 32 :=
  ⟨key.length.toUInt8 :: beBytes 31 parent, by rw [List.length_cons, length_beBytes]⟩

/-- The key 7 made the Registry 0 and the Vault 2, and owns their capabilities. -/
def upgraded : TaskConfig where
  registry := 0
  vault := 2
  active := 7
  staged := some 8
  caps := ⟨some 1, some 3⟩
  retireQuiet := 30
  childId := childOf
  get w := service (fieldId childOf) ((List.range w.nextId).map fun id => (id, emptyStructBcs))
    (stored childOf w)

theorem upgraded_sound : Sound upgraded := by
  refine ⟨fun parent parent' h => ?_, fun w => service_serves fun field bytes hfield => ?_⟩
  · have hhead := congrArg (fun id => id.val.head?) h
    simp [upgraded, childOf, stateKeyBcs, emptyStructBcs] at hhead
  · rw [stored, Option.ite_none_right_eq_some] at hfield
    obtain ⟨⟨hkey, hlt⟩, -⟩ := hfield
    exact List.mem_map.2 ⟨field.1, List.mem_range.2 hlt, Prod.ext rfl hkey.symm⟩

def initialized : List Action :=
  [.call 7 .initializeSettlement, .call 7 .initializeBridge]

def afterwards (m : MigrationWorld) (as : List Action) : MigrationWorld :=
  (execAll (exec upgraded) m as).getD m

def onePoll : List Action :=
  [.tick, .read true, .read true, .submit .confirmed 0, .read true, .submit .confirmed 0]

/-- **The task never rotates.** With the key that it reads records under, over every run: it holds
the configured key and has adopted none; all it has ever submitted are the two entombments it is
configured for, and no report says that a record is present. With a configured `SettlerCap` it asks
for the `BridgeCap` at most once in the life of the deployment, and of all its migrations at most
one ends without an error. -/
theorem never_rotates (hsound : Sound c) (h : Reachable (Start c) (enabled (exec c)) m) :
    m.signer = c.active ∧ m.guard.adopted = false ∧ (∀ tx ∈ m.sent, Entombs c tx) ∧
    (∀ settler bridge, .ok ⟨settler, bridge⟩ ∈ m.reports →
      settler ≠ .present ∧ bridge ≠ .present) ∧
    (c.caps.settler.isSome →
      m.sent.countP entombsBridge ≤ 1 ∧ m.reports.countP returned ≤ 1) := by
  have hw := reachable_watches hsound h
  refine ⟨hw.signer, ?_, hw.sent, hw.reports, fun hsome => ?_⟩
  · rw [hw.guard]
    rfl
  · obtain ⟨cap, hcap⟩ := Option.isSome_iff_exists.1 hsome
    have honce := reachable_once hsound hcap h
    exact ⟨honce.sentOnce, honce.reportsOnce⟩

/-- A poll that entombs both capabilities. -/
theorem never_rotates_upgraded : ∃ m : MigrationWorld, m.sent.length = 2 ∧ m.signer = 7 ∧
    m.guard.adopted = false ∧ (∀ tx ∈ m.sent, Entombs upgraded tx) ∧
    m.sent.countP entombsBridge ≤ 1 := by
  have hrun : Run (enabled (exec upgraded)) (spawn upgraded 0) (initialized ++ onePoll) _ :=
    run_of_execAll rfl
  obtain ⟨hsigner, hadopted, hsent, -, honce⟩ :=
    never_rotates upgraded_sound ⟨_, _, ⟨0, rfl⟩, hrun⟩
  exact ⟨_, rfl, hsigner, hadopted, hsent, (honce rfl).1⟩

/-! ## A Vault that is left behind -/

def Recorded (c : TaskConfig) (w : World) : Prop :=
  w.WellFormed ∧ ∃ registry, w.registries c.registry = some registry ∧ registry.uid.record.isSome

theorem Recorded.kept (hw : Recorded c w) (h : w.call sender call = .ok w') : Recorded c w' := by
  obtain ⟨hwf, registry, hregistry, hrecord⟩ := hw
  have hlt := (hwf.registry _ _ hregistry).2
  refine ⟨hwf.call h, ?_⟩
  obtain he | ⟨-, he⟩ | ⟨id, r, r', hr, he, hk⟩ := World.call_registries h
  · exact ⟨registry, by rw [he, hregistry], hrecord⟩
  · refine ⟨registry, ?_, hrecord⟩
    rw [he, Function.update_of_ne (Nat.ne_of_lt hlt), hregistry]
  · by_cases hid : c.registry = id
    · rw [← hid, hregistry, Option.some.injEq] at hr
      subst hr
      refine ⟨r', by rw [he, hid, Function.update_self], ?_⟩
      obtain hk | ⟨cap, -, -, -, hu⟩ := hk
      · rw [hk.record]
        exact hrecord
      · rw [hu]
        rfl
    · exact ⟨registry, by rw [he, Function.update_of_ne hid, hregistry], hrecord⟩

/-- A Registry that has its record takes no capability. -/
theorem Recorded.entombed (hw : Recorded c w)
    (h : w.call sender (.entombSettlerCapOps cap c.registry) = .ok w') : False := by
  obtain ⟨-, registry, hregistry, hrecord⟩ := hw
  simp only [World.call, bind_eq_ok, require_eq_ok, exists_const, World.input_eq_ok,
    Settlement.entombSettlerCapOps_eq_ok, pure_eq_ok] at h
  obtain ⟨-, r, hr, -, ⟨hnone, -⟩, -⟩ := h
  obtain rfl := Option.some.inj (hregistry.symm.trans hr)
  rw [hnone] at hrecord
  cases hrecord

theorem reachable_wellFormed (hsound : Sound c)
    (h : Reachable (Start c) (enabled (exec c)) m) : m.ledger.state.WellFormed := by
  refine h.inv_of (I := fun m => m.ledger.state.WellFormed) (J := Watches c)
    (fun _ => reachable_watches hsound) ?_ fun s a t hw _ hwf hs => ?_
  · rintro m ⟨now, rfl⟩
    exact World.published_wellFormed now
  · exact (step_exec hsound hw.phase hs).keeps (fun _ _ _ _ hwf => hwf.call) hwf

/-- The task has not come to the Vault since the counts were these. -/
structure Left (c : TaskConfig) (sent reports : Nat) (m : MigrationWorld) : Prop where
  recorded : Recorded c m.ledger.state
  phase : ¬Bridging m.phase
  sent : m.sent.countP entombsBridge = sent
  reports : m.reports.countP returned = reports

theorem Left.step {sent reports : Nat} (hcap : c.caps.settler = some cap)
    (h : Left c sent reports m) (hs : Step c m a m') : Left c sent reports m' := by
  have hrecorded := hs.keeps (fun _ _ _ _ hi => hi.kept) h.recorded
  cases hs with
  | call | land => exact ⟨hrecorded, h.phase, h.sent, h.reports⟩
  | restart => exact ⟨hrecorded, id, h.sent, h.reports⟩
  | tick =>
    refine ⟨hrecorded, ?_, h.sent, h.reports⟩
    dsimp only
    split <;> exact id
  | read hnext => exact ⟨hrecorded, mt (hnext.bridging hcap) h.phase, h.sent, h.reports⟩
  | unread e => exact ⟨hrecorded, id, h.sent, countP_error.trans h.reports⟩
  | unconfigured hphase => exact absurd (by rw [hphase]; trivial) h.phase
  | settlerEntombed _ hcall => exact (h.recorded.entombed hcall).elim
  | settlerFailed =>
    exact ⟨hrecorded, id, countP_entombSettler.trans h.sent, countP_error.trans h.reports⟩
  | bridgeEntombed hphase => exact absurd (by rw [hphase]; trivial) h.phase
  | bridgeFailed hphase => exact absurd (by rw [hphase]; trivial) h.phase

/-- **A Vault is left behind.** Once the Registry has its record and the task is not just behind its
own entombment of it: with a configured `SettlerCap` it never asks for the `BridgeCap` again, and
every further migration ends with an error, whether or not the Vault has a record. -/
theorem vault_left (hsound : Sound c) (hcap : c.caps.settler.isSome)
    (h : Reachable (Start c) (enabled (exec c)) m) {registry : Registry}
    (hregistry : m.ledger.state.registries c.registry = some registry)
    (hrecord : registry.uid.record.isSome) (hphase : ¬Bridging m.phase) {as : List Action}
    (hrun : Run (enabled (exec c)) m as m') :
    m'.sent.countP entombsBridge = m.sent.countP entombsBridge ∧
      m'.reports.countP returned = m.reports.countP returned := by
  obtain ⟨cap, hcap⟩ := Option.isSome_iff_exists.1 hcap
  have hleft : Left c (m.sent.countP entombsBridge) (m.reports.countP returned) m :=
    ⟨⟨reachable_wellFormed hsound h, registry, hregistry, hrecord⟩, hphase, rfl, rfl⟩
  have hend := hrun.inv (I := fun s => Watches c s ∧
      Left c (m.sent.countP entombsBridge) (m.reports.countP returned) s)
    (fun _ _ _ hI hs =>
      have hstep := step_exec hsound hI.1.phase hs
      ⟨hI.1.step hstep, hI.2.step hcap hstep⟩)
    ⟨reachable_watches hsound h, hleft⟩
  exact ⟨hend.2.sent, hend.2.reports⟩

/-- The owner entombs the `SettlerCap` by hand; a poll then fails and the Vault has no record. -/
theorem vault_left_upgraded : ∃ m : MigrationWorld, m.sent.length = 1 ∧
    m.sent.countP entombsBridge = 0 ∧ rotationRecord m.ledger.state 2 = none := by
  have hrun : Run (enabled (exec upgraded)) (spawn upgraded 0)
      (initialized ++ [.call 7 (.entombSettlerCapOps 1 0)])
      (afterwards (spawn upgraded 0) (initialized ++ [.call 7 (.entombSettlerCapOps 1 0)])) :=
    run_of_execAll rfl
  have hpoll : Run (enabled (exec upgraded))
      (afterwards (spawn upgraded 0) (initialized ++ [.call 7 (.entombSettlerCapOps 1 0)]))
      [.tick, .read true, .read true, .submit .confirmed 0] _ := run_of_execAll rfl
  obtain ⟨hsent, -⟩ := vault_left upgraded_sound rfl ⟨_, _, ⟨0, rfl⟩, hrun⟩ rfl rfl id hpoll
  exact ⟨_, rfl, hsent, rfl⟩

/-! ## A poll that is left alone -/

/-- What a call leaves alone: both objects' fields of `rotation`, and the two capabilities. -/
structure SameTargets (c : TaskConfig) (w w' : World) : Prop where
  registry : (w'.registries c.registry).map (·.uid) = (w.registries c.registry).map (·.uid)
  vault : (w'.vaults c.vault).map (·.uid) = (w.vaults c.vault).map (·.uid)
  settlerCap : ∀ cap, c.caps.settler = some cap → w'.settlerCaps cap = w.settlerCaps cap
  bridgeCap : ∀ cap, c.caps.bridge = some cap → w'.bridgeCaps cap = w.bridgeCaps cap

/-- The requests of the task are answered and the process lives. Others may call what they like
short of what the task is about: no call of theirs, nor a late transaction of the task, changes
the two fields of `rotation` or the two capabilities. -/
def Undisturbed (c : TaskConfig) (m : MigrationWorld) : Action → Prop
  | .call sender call => ∀ w, m.ledger.state.call sender call = .ok w →
      SameTargets c m.ledger.state w
  | .land _ | .restart => False
  | .tick => True
  | .read answered => answered
  | .submit receipt _ => receipt = .confirmed

def isStep : Action → Bool
  | .tick | .read _ | .submit _ _ => true
  | .call _ _ | .land _ | .restart => false

/-- The Registry was never entombed, and the configured key owns the capability. -/
structure RegistryOpen (c : TaskConfig) (cap : ObjectId) (w : World) : Prop where
  uid : (w.registries c.registry).map (·.uid) = some (.new c.registry)
  owner : w.settlerCaps cap = some c.active

structure VaultOpen (c : TaskConfig) (cap : ObjectId) (w : World) : Prop where
  uid : (w.vaults c.vault).map (·.uid) = some (.new c.vault)
  owner : w.bridgeCaps cap = some c.active

/-- The configured key is the authority of the Registry, and no rotation is on the way. -/
def RegistryHeld (c : TaskConfig) (w : World) : Prop :=
  (w.registries c.registry).map (·.uid.record) = some (some ⟨c.active, none, none⟩)

def VaultHeld (c : TaskConfig) (w : World) : Prop :=
  (w.vaults c.vault).map (·.uid.record) = some (some ⟨c.active, none, none⟩)

theorem entombSettler_held {registry : ObjectId}
    (h : w.call sender (.entombSettlerCapOps cap registry) = .ok w') :
    (w'.registries registry).map (·.uid.record) = some (some ⟨sender, none, none⟩) ∧
      w'.vaults = w.vaults ∧ w'.bridgeCaps = w.bridgeCaps := by
  simp only [World.call, bind_eq_ok, require_eq_ok, exists_const, World.input_eq_ok,
    Settlement.entombSettlerCapOps_eq_ok, pure_eq_ok] at h
  obtain ⟨-, r, -, _, ⟨-, -, -, rfl⟩, rfl⟩ := h
  exact ⟨by simp only [Function.update_self, Option.map_some], rfl, rfl⟩

theorem entombBridge_held {vault : ObjectId}
    (h : w.call sender (.entombBridgeCapOps cap vault) = .ok w') :
    (w'.vaults vault).map (·.uid.record) = some (some ⟨sender, none, none⟩) ∧
      w'.registries = w.registries := by
  simp only [World.call, bind_eq_ok, require_eq_ok, exists_const, World.input_eq_ok,
    Vault.entombBridgeCapOps_eq_ok, pure_eq_ok] at h
  obtain ⟨-, v, -, _, ⟨-, -, -, rfl⟩, rfl⟩ := h
  exact ⟨by simp only [Function.update_self, Option.map_some], rfl⟩

theorem RegistryOpen.goes (h : RegistryOpen c cap w) :
    ∃ w', w.call c.active (.entombSettlerCapOps cap c.registry) = .ok w' := by
  obtain ⟨r, hr, hu⟩ := Option.map_eq_some_iff.1 h.uid
  have hentomb : Settlement.entombSettlerCapOps ⟨cap⟩ r c.active w.nextId = .ok _ :=
    Settlement.entombSettlerCapOps_eq_ok.2
      ⟨by rw [hu]; rfl, by rw [hu]; rfl, by rw [hu]; rfl, rfl⟩
  simp only [World.call, require, h.owner, if_true, World.input, hr, hentomb, ok_bind]
  exact ⟨_, rfl⟩

theorem VaultOpen.goes (h : VaultOpen c cap w) :
    ∃ w', w.call c.active (.entombBridgeCapOps cap c.vault) = .ok w' := by
  obtain ⟨v, hv, hu⟩ := Option.map_eq_some_iff.1 h.uid
  have hentomb : Vault.entombBridgeCapOps ⟨cap⟩ v c.active w.nextId = .ok _ :=
    Vault.entombBridgeCapOps_eq_ok.2
      ⟨by rw [hu]; rfl, by rw [hu]; rfl, by rw [hu]; rfl, rfl⟩
  simp only [World.call, require, h.owner, if_true, World.input, hv, hentomb, ok_bind]
  exact ⟨_, rfl⟩

theorem RegistryOpen.same (h : RegistryOpen c cap w) (hcap : c.caps.settler = some cap)
    (hs : SameTargets c w w') : RegistryOpen c cap w' :=
  ⟨hs.registry.trans h.uid, (hs.settlerCap cap hcap).trans h.owner⟩

theorem VaultOpen.same (h : VaultOpen c cap w) (hcap : c.caps.bridge = some cap)
    (hs : SameTargets c w w') : VaultOpen c cap w' :=
  ⟨hs.vault.trans h.uid, (hs.bridgeCap cap hcap).trans h.owner⟩

theorem RegistryHeld.same (h : RegistryHeld c w) (hs : SameTargets c w w') :
    RegistryHeld c w' := by
  have hmap := congrArg (Option.map Guarded.record) hs.registry
  rw [Option.map_map, Option.map_map] at hmap
  exact hmap.trans h

theorem VaultHeld.same (h : VaultHeld c w) (hs : SameTargets c w w') : VaultHeld c w' := by
  have hmap := congrArg (Option.map Guarded.record) hs.vault
  rw [Option.map_map, Option.map_map] at hmap
  exact hmap.trans h

/-- A Registry with a record is not entombed. -/
theorem RegistryHeld.not_entombed (h : RegistryHeld c w)
    (hcall : w.call sender (.entombSettlerCapOps cap c.registry) = .ok w') : False := by
  obtain ⟨r, hr, hrecord⟩ := Option.map_eq_some_iff.1 h
  simp only [World.call, bind_eq_ok, require_eq_ok, exists_const, World.input_eq_ok,
    Settlement.entombSettlerCapOps_eq_ok, pure_eq_ok] at hcall
  obtain ⟨-, r', hr', _, ⟨hnone, -⟩, -⟩ := hcall
  obtain rfl := Option.some.inj (hr.symm.trans hr')
  rw [hrecord] at hnone
  cases hnone

theorem VaultHeld.not_entombed (h : VaultHeld c w)
    (hcall : w.call sender (.entombBridgeCapOps cap c.vault) = .ok w') : False := by
  obtain ⟨v, hv, hrecord⟩ := Option.map_eq_some_iff.1 h
  simp only [World.call, bind_eq_ok, require_eq_ok, exists_const, World.input_eq_ok,
    Vault.entombBridgeCapOps_eq_ok, pure_eq_ok] at hcall
  obtain ⟨-, v', hv', _, ⟨hnone, -⟩, -⟩ := hcall
  obtain rfl := Option.some.inj (hv.symm.trans hv')
  rw [hrecord] at hnone
  cases hnone

/-- The steps of the poll from a phase to its end. -/
def togo : Phase → Nat
  | .waiting => 6
  | .readSettlement => 5
  | .checkSettler => 4
  | .entombSettler _ => 3
  | .checkBridge _ => 2
  | .entombBridge _ _ => 1
  | _ => 0

/-- Where the migration of a deployment without records is, at most `n` steps from its end. -/
inductive Healing (c : TaskConfig) (cap cap' : ObjectId) (m : MigrationWorld) (n : Nat) : Prop
  | registry (hphase : ¬Bridging m.phase) (hn : togo m.phase ≤ n)
      (hregistry : RegistryOpen c cap m.ledger.state) (hvault : VaultOpen c cap' m.ledger.state)
  | vault (hphase : Bridging m.phase) (hn : togo m.phase ≤ n)
      (hregistry : RegistryHeld c m.ledger.state) (hvault : VaultOpen c cap' m.ledger.state)
  | healed (hregistry : RegistryHeld c m.ledger.state) (hvault : VaultHeld c m.ledger.state)

variable {cap' : ObjectId} {n : Nat}

theorem Healing.same (h : Healing c cap cap' m n) (hcaps : c.caps = ⟨some cap, some cap'⟩)
    (hs : SameTargets c m.ledger.state w) :
    Healing c cap cap' { m with ledger := { m.ledger with state := w } } n := by
  have hcap : c.caps.settler = some cap := by rw [hcaps]
  have hcap' : c.caps.bridge = some cap' := by rw [hcaps]
  cases h with
  | registry hphase hn hregistry hvault =>
    exact .registry hphase hn (hregistry.same hcap hs) (hvault.same hcap' hs)
  | vault hphase hn hregistry hvault =>
    exact .vault hphase hn (hregistry.same hs) (hvault.same hcap' hs)
  | healed hregistry hvault => exact .healed (hregistry.same hs) (hvault.same hs)

theorem Next.togo {phase phase' : Phase} (h : Next c phase phase') :
    togo phase' + 1 = togo phase ∨ c.caps.settler = none := by
  cases h with
  | skip hnone => exact .inr hnone
  | _ => exact .inl rfl

theorem Next.keepsSide {phase phase' : Phase} (h : Next c phase phase')
    (hcap : c.caps.settler = some cap) : Bridging phase' ↔ Bridging phase := by
  refine ⟨h.bridging hcap, fun hb => ?_⟩
  cases h with
  | unread | settler | skip => exact hb.elim
  | bridge => trivial

theorem Healing.tick (hphase : m.phase = .waiting) (h : Healing c cap cap' m n) :
    Healing c cap cap' { m with
      phase := if c.staged.isSome then .readSettlement else .checkSettler } (n - 1) := by
  cases h with
  | registry _ hn hregistry hvault =>
    rw [hphase] at hn
    refine .registry ?_ ?_ hregistry hvault <;> dsimp only
    · split <;> exact id
    · split <;> simp only [togo] at hn ⊢ <;> omega
  | vault hb =>
    rw [hphase] at hb
    exact hb.elim
  | healed hregistry hvault => exact .healed hregistry hvault

theorem Healing.read {phase : Phase} (hcap : c.caps.settler = some cap)
    (hnext : Next c m.phase phase) (h : Healing c cap cap' m n) :
    Healing c cap cap' { m with phase } (n - 1) := by
  have htogo := hnext.togo.resolve_right (by rw [hcap]; nofun)
  cases h with
  | registry hphase hn hregistry hvault =>
    refine .registry (mt (hnext.keepsSide hcap).1 hphase) ?_ hregistry hvault
    dsimp only
    omega
  | vault hphase hn hregistry hvault =>
    refine .vault ((hnext.keepsSide hcap).2 hphase) ?_ hregistry hvault
    dsimp only
    omega
  | healed hregistry hvault => exact .healed hregistry hvault

theorem Healing.step (hw : Watches c m) (hcaps : c.caps = ⟨some cap, some cap'⟩)
    (h : Healing c cap cap' m n) (hu : Undisturbed c m a) (hs : Step c m a m') :
    Healing c cap cap' m' (n - if isStep a then 1 else 0) := by
  have hcap : c.caps.settler = some cap := by rw [hcaps]
  have hcap' : c.caps.bridge = some cap' := by rw [hcaps]
  cases hs with
  | call hcall => exact h.same hcaps (hu _ hcall)
  | land | restart => exact hu.elim
  | tick hphase => exact h.tick hphase
  | read hnext => exact h.read hcap hnext
  | unread => cases hu
  | unconfigured _ hnone =>
    rw [hcap'] at hnone
    cases hnone
  -- from here on the Registry has its record, and the Vault is next
  | @settlerEntombed _ _ cap₁ w₁ hphase hcall =>
    cases h with
    | registry _ hn hregistry hvault =>
      obtain ⟨hheld, hvaults, hbridgeCaps⟩ := entombSettler_held hcall
      rw [hw.signer] at hheld
      rw [hphase] at hn
      refine .vault trivial (Nat.le_sub_of_add_le hn) hheld ⟨?_, ?_⟩
      · show (w₁.vaults c.vault).map _ = _
        rw [hvaults]
        exact hvault.uid
      · show w₁.bridgeCaps cap' = _
        rw [hbridgeCaps]
        exact hvault.owner
    | vault hb =>
      rw [hphase] at hb
      exact hb.elim
    | healed hregistry => exact (hregistry.not_entombed hcall).elim
  -- an entombment of an open Registry does not fail, so this one is not the Registry
  | settlerFailed hphase hstate hfail =>
    cases h with
    | registry _ _ hregistry =>
      have hcap₁ := hw.phase
      rw [hphase] at hcap₁
      obtain rfl := Option.some.inj (hcap.symm.trans hcap₁)
      obtain ⟨w₁, hgoes⟩ := hregistry.goes
      obtain ⟨e, herror⟩ := hfail hu
      rw [hw.signer, hgoes] at herror
      cases herror
    | vault hb =>
      rw [hphase] at hb
      exact hb.elim
    | healed hregistry hvault => exact .healed (hstate.symm ▸ hregistry) (hstate.symm ▸ hvault)
  -- both objects have their records
  | @bridgeEntombed _ _ _ cap₁ w₁ hphase hcall =>
    cases h with
    | registry hb => exact absurd (by rw [hphase]; trivial) hb
    | vault _ hn hregistry =>
      obtain ⟨hheld, hregistries⟩ := entombBridge_held hcall
      rw [hw.signer] at hheld
      refine .healed ?_ hheld
      show (w₁.registries c.registry).map _ = _
      rw [hregistries]
      exact hregistry
    | healed _ hvault => exact (hvault.not_entombed hcall).elim
  | bridgeFailed hphase hstate hfail =>
    cases h with
    | registry hb => exact absurd (by rw [hphase]; trivial) hb
    | vault _ _ _ hvault =>
      have hcap₁ := hw.phase
      rw [hphase] at hcap₁
      obtain rfl := Option.some.inj (hcap'.symm.trans hcap₁.2)
      obtain ⟨w₁, hgoes⟩ := hvault.goes
      obtain ⟨e, herror⟩ := hfail hu
      rw [hw.signer, hgoes] at herror
      cases herror
    | healed hregistry hvault => exact .healed (hstate.symm ▸ hregistry) (hstate.symm ▸ hvault)

theorem Healing.run {as : List Action} (hsound : Sound c)
    (hcaps : c.caps = ⟨some cap, some cap'⟩)
    (hrun : Run (guarded (Undisturbed c) (enabled (exec c))) m as m') :
    ∀ {n}, Watches c m → Healing c cap cap' m n →
      Watches c m' ∧ Healing c cap cap' m' (n - as.countP isStep) := by
  induction hrun with
  | nil => exact fun hw h => ⟨hw, h⟩
  | cons hs _ ih =>
    intro n hw h
    have hstep := step_exec hsound hw.phase hs.2
    have hnext := ih (hw.step hstep) (h.step hw hcaps hs.1 hstep)
    rwa [Nat.sub_sub, Nat.add_comm, ← List.countP_cons] at hnext

end MigrationWorld

end CapMigration

end Podseq.Node
