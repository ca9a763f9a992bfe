import Podseq.Node.BlockTimes
import Podseq.Node.Resettlement

/-! # The transaction that settles a block

A block settles in one transaction: `settle_as`, and where state roots are anchored
`commit_state_root` behind it. Sui runs both calls or neither. Nothing of the chain's side is
left out here: the gate of the Registry is asked, under whatever record it has at the time, and
the timestamp is in the milliseconds that deadlines are in.
-/
namespace Podseq.Node
open Podseq.Lib Podseq.Move

/-- `state_root_command`. -/
def stateRootCommand (enabled : Bool) (header : Header) : Option Bytes :=
  if enabled then some header.stateRoot.val else none

/-- What the transaction of `build_settle_tx` does, sent by `sender`. -/
def settleTransaction (commitStateRoots : Bool) (registry : Registry) (inbox : Inbox)
    (call : SettleCall) (now : Nat) (sender : Address) : Tx (Registry × Inbox) := do
  let header := call.block.header
  let (registry, inbox) ← Settlement.settleAs registry inbox now call.blobId header.height
    (settleBlockTs header.timestamp) call.cursor sender
  match stateRootCommand commitStateRoots header with
  | some root =>
    let registry ← Settlement.commitStateRoot registry now header.height root sender
    return (registry, inbox)
  | none => return (registry, inbox)

namespace SequencerWorld

/-- The transaction of `call` runs on the chain; one that aborts has no effects. -/
def settle (w : SequencerWorld) (commitStateRoots : Bool) (call : SettleCall) (now : Nat)
    (sender : Address) : SequencerWorld :=
  let w := { w with inFlight := w.inFlight.erase call }
  match settleTransaction commitStateRoots w.registry w.inbox call now sender with
  | .ok (registry, inbox) =>
    { w with
      registry
      inbox
      executed := call :: w.executed
      settled := if call.block.header.height = w.registry.latestHeight then w.settled
        else call.block :: w.settled }
  | .error _ => w

inductive LedgerAction
  /-- A step of the node, or a call of the inbox. -/
  | node (a : Action)
  /-- A settle transaction that was sent runs, with the roots on or off as it was built. -/
  | settle (commitStateRoots : Bool) (call : SettleCall) (now : Nat) (sender : Address)
  /-- Any call that entombs the capability or moves the authority. -/
  | govern (uid : Rotation.Guarded SettlerCap)

def execOnLedger (env : SequencerEnv) (w : SequencerWorld) : LedgerAction → Option SequencerWorld
  | .node (.land _ _) => none
  | .node a => w.exec env a
  | .settle commitStateRoots call now sender =>
    if call ∈ w.inFlight then some (w.settle commitStateRoots call now sender) else none
  | .govern uid => some { w with registry := { w.registry with uid } }

end SequencerWorld

/-! ## What the transaction does -/

section
variable {commitStateRoots : Bool} {registry registry' : Registry} {inbox inbox' : Inbox}
  {call : SettleCall} {now height : Nat} {sender : Address} {root : Bytes}

/-- The root of a height stands where it stood, or was set where none was. -/
def AnchorsRoot (height : Nat) (root : Bytes) (registry registry' : Registry) : Prop :=
  registry'.stateRoots = registry.stateRoots ∨ registry.stateRoots height = none ∧
    registry'.stateRoots = Function.update registry.stateRoots height (some root)

theorem commitStateRoot_cases
    (h : Settlement.commitStateRoot registry now height root sender = .ok registry') :
    height = registry.latestHeight ∧ registry'.uid = registry.uid ∧
      registry'.latestHeight = registry.latestHeight ∧
      registry'.commitments = registry.commitments ∧
      AnchorsRoot height root registry registry' ∧ registry'.stateRoots height = some root := by
  simp only [Settlement.commitStateRoot, bind_eq_ok, Rotation.assertCanAct_eq_ok, require_eq_ok,
    exists_const] at h
  obtain ⟨-, -, rfl, h⟩ := h
  split at h
  · rename_i anchored hanchored
    simp only [bind_eq_ok, require_eq_ok, exists_const, pure_eq_ok] at h
    obtain ⟨rfl, rfl⟩ := h
    exact ⟨rfl, rfl, rfl, rfl, .inl rfl, hanchored⟩
  · rename_i hfree
    cases h
    exact ⟨rfl, rfl, rfl, rfl, .inr ⟨hfree, rfl⟩, Function.update_self ..⟩

/-- What a settle transaction that returned has done to the book. -/
structure Settles (commitStateRoots : Bool) (call : SettleCall) (registry registry' : Registry)
    (inbox inbox' : Inbox) : Prop where
  /-- A repetition of the latest height, or the next one. -/
  book : call.block.header.height = registry.latestHeight ∧
      registry.commitments call.block.header.height = some call.blobId ∧
      registry'.commitments = registry.commitments ∨
    call.block.header.height = registry.latestHeight + 1 ∧
      registry'.commitments = Function.update registry.commitments call.block.header.height
        (some call.blobId)
  latestHeight : registry'.latestHeight = call.block.header.height
  roots : AnchorsRoot call.block.header.height call.block.header.stateRoot.val registry registry'
  anchored : commitStateRoots →
    registry'.stateRoots call.block.header.height = some call.block.header.stateRoot.val
  height : call.block.header.height ≤ max registry.latestHeight u64Max
  inbox : inbox' = inbox ∨
    inbox.enforceSettle (settleBlockTs call.block.header.timestamp) call.cursor = .ok inbox'

/-- The next height is still one of 64 bits. -/
theorem doSettle_height {blobId : Bytes} {blockTs cursor : Nat}
    (h : Settlement.doSettle registry inbox blobId height blockTs cursor =
      .ok (registry', inbox')) : height ≤ max registry.latestHeight u64Max := by
  unfold Settlement.doSettle at h
  split at h
  · omega
  · simp only [bind_eq_ok, addU64_eq_ok, require_eq_ok, exists_const] at h
    obtain ⟨-, ⟨hle, rfl⟩, rfl, -⟩ := h
    omega

theorem settleTransaction_settles
    (h : settleTransaction commitStateRoots registry inbox call now sender =
      .ok (registry', inbox')) : Settles commitStateRoots call registry registry' inbox inbox' := by
  simp only [settleTransaction, bind_eq_ok] at h
  obtain ⟨⟨registry₁, inbox₁⟩, hsettle, h⟩ := h
  -- the root, when there is one, goes with the height that was settled
  have hroot : inbox' = inbox₁ ∧ registry'.latestHeight = registry₁.latestHeight ∧
      registry'.commitments = registry₁.commitments ∧
      AnchorsRoot call.block.header.height call.block.header.stateRoot.val registry₁ registry' ∧
      (commitStateRoots →
        registry'.stateRoots call.block.header.height = some call.block.header.stateRoot.val) := by
    cases commitStateRoots with
    | true =>
      simp only [stateRootCommand, if_true, bind_eq_ok, pure_eq_ok, Prod.mk.injEq] at h
      obtain ⟨registry₂, hcommit, rfl, rfl⟩ := h
      obtain ⟨-, -, hlatest, hbook, hanchors, hsome⟩ := commitStateRoot_cases hcommit
      exact ⟨rfl, hlatest, hbook, hanchors, fun _ => hsome⟩
    | false =>
      cases h
      exact ⟨rfl, rfl, rfl, .inl rfl, fun hon => by cases hon⟩
  obtain ⟨rfl, hlatest, hbook, hanchors, hsome⟩ := hroot
  simp only [Settlement.settleAs, bind_eq_ok, Rotation.assertCanAct_eq_ok, exists_const] at hsettle
  have hheight := doSettle_height hsettle.2
  obtain ⟨heq, hblob, rfl, rfl⟩ | ⟨hnext, hinbox, rfl⟩ := Settlement.doSettle_cases hsettle.2
  · exact ⟨.inl ⟨heq, hblob, hbook⟩, hlatest.trans heq.symm, hanchors, hsome, hheight, .inl rfl⟩
  · exact ⟨.inr ⟨hnext, hbook⟩, hlatest, hanchors, hsome, hheight, .inr hinbox⟩

end

namespace SequencerWorld

variable {env : SequencerEnv} {w w' : SequencerWorld}

/-- A settle transaction leaves flight without an effect, or it settles. -/
theorem settle_cases (w : SequencerWorld) (commitStateRoots : Bool) (call : SettleCall)
    (now : Nat) (sender : Address) :
    w.settle commitStateRoots call now sender = { w with inFlight := w.inFlight.erase call } ∨
    ∃ registry inbox, Settles commitStateRoots call w.registry registry w.inbox inbox ∧
      w.settle commitStateRoots call now sender = { w with
        inFlight := w.inFlight.erase call
        registry
        inbox
        executed := call :: w.executed
        settled := if call.block.header.height = w.registry.latestHeight then w.settled
          else call.block :: w.settled } := by
  unfold settle
  dsimp only
  split
  · rename_i registry inbox hok
    exact .inr ⟨registry, inbox, settleTransaction_settles hok, rfl⟩
  · exact .inl rfl

inductive LedgerStep (env : SequencerEnv) (w : SequencerWorld) :
    LedgerAction → SequencerWorld → Prop
  | node {a : Action} {next : SequencerWorld} (hland : ∀ call admitted, a ≠ .land call admitted)
      (h : Step env w a next) : LedgerStep env w (.node a) next
  | settle {commitStateRoots : Bool} {call : SettleCall} {now : Nat} {sender : Address}
      (hmem : call ∈ w.inFlight) : LedgerStep env w (.settle commitStateRoots call now sender)
        (w.settle commitStateRoots call now sender)
  | govern {uid : Rotation.Guarded SettlerCap} :
      LedgerStep env w (.govern uid) { w with registry := { w.registry with uid } }

theorem ledger_step {a : LedgerAction} (h : enabled (execOnLedger env) w a w') :
    LedgerStep env w a w' := by
  unfold enabled execOnLedger at h
  split at h
  · cases h
  · rename_i a hland
    exact .node (fun call admitted heq => hland call admitted (heq ▸ rfl)) (exec_step h)
  · simp only [Option.ite_none_right_eq_some, Option.some.injEq] at h
    obtain ⟨hmem, rfl⟩ := h
    exact .settle hmem
  · cases h
    exact .govern

/-- The node settles nothing by itself. -/
theorem Step.sameBook {a : Action} (hland : ∀ call admitted, a ≠ .land call admitted)
    (h : Step env w a w') : w'.registry = w.registry ∧ w'.settled = w.settled := by
  cases h with
  | boot | crash | shutdown | tracked | receipt | submitted | windowed => exact ⟨rfl, rfl⟩
  | recover hp hr =>
    obtain ⟨-, -, hregistry, -, -, -, -, hsettled, -⟩ := recover_finalizer hr
    exact ⟨hregistry, hsettled⟩
  | produce hp hr =>
    obtain ⟨-, -, hregistry, -, -, -, -, hsettled, -⟩ := hr.frame
    exact ⟨hregistry, hsettled⟩
  | finalize hp hr => cases hr <;> exact ⟨rfl, rfl⟩
  | landed => exact absurd rfl (hland _ _)

/-- What is settled stays settled. -/
theorem LedgerStep.settled_mono {a : LedgerAction} (h : LedgerStep env w a w') :
    ∀ block ∈ w.settled, block ∈ w'.settled := by
  intro block hblock
  cases h with
  | node hland hstep => rwa [(hstep.sameBook hland).2]
  | @settle commitStateRoots call now sender =>
    obtain he | ⟨registry, inbox, -, he⟩ := w.settle_cases commitStateRoots call now sender
    · rw [he]
      exact hblock
    · rw [he]
      dsimp only
      split
      · exact hblock
      · exact List.mem_cons_of_mem _ hblock
  | govern => exact hblock

end SequencerWorld

end Podseq.Node
