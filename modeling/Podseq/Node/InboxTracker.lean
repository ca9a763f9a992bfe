import Podseq.Lib.Hex
import Podseq.Move.Inbox
import Podseq.Node.InboxStore

/-! # The inbox tracker of the sequencer

The tracker copies pending submissions from the chain into the store, finds them again in
blocks by the hash of their bytes, and derives from the markers the cursor it settles with and
the verdict of its own halt gate.
-/
namespace Podseq.Node
open Podseq.Lib Podseq.Move

/-- `keccak256`, with the length of its digests. -/
structure HashFn where
  digest : Bytes → Bytes
  length_digest : ∀ bytes, (digest bytes).length = 32

/-- Pads or cuts to 32 bytes: no collisions among short inputs. -/
def paddingHash : HashFn where
  digest bytes := (bytes ++ List.replicate 32 0).take 32
  length_digest bytes := by simp

inductive TrackerError
  | transport
  | store (e : StoreError)
  | corrupt (message : String)
deriving DecidableEq, Repr

/-- Verdict of the settlement gate. -/
inductive HaltCheck
  | clear
  | halt (nonce deadlineHeight nextHeight : Nat)
deriving DecidableEq, Repr

/-- One forced transaction, ready for the pool. -/
structure TrackedSubmission where
  nonce : Nat
  txBytes : Bytes
  txHash : Bytes
  deadlineMs : Nat
  deadlineHeight : Nat
  firstSeenHeight : Nat
deriving DecidableEq, Repr

namespace InboxTracker

/-- An inclusion window as a number of blocks, rounded up. -/
def deadlineBlocksFor (windowMs blockTimeMs : Nat) : Nat :=
  (windowMs + max blockTimeMs 1 - 1) / max blockTimeMs 1

def storeResult {α : Type} : Except StoreError α → Except TrackerError α
  | .ok a => .ok a
  | .error e => .error (.store e)

def decodeTxBytes (hexBytes : String) : Except TrackerError Bytes :=
  match Hex.decode hexBytes with
  | some bytes => .ok bytes
  | none => .error (.corrupt "invalid hex tx payload")

def parseTxHash (hexHash : String) : Except TrackerError Bytes := do
  let bytes ← decodeTxBytes hexHash
  if bytes.length = 32 then .ok bytes
  else .error (.corrupt s!"tx hash must be 32 bytes, got {bytes.length}: {hexHash}")

/-- One iteration of the loop of `sync`: an entry that is tracked already, or that was pruned
between the two reads, is skipped. -/
def trackEntry (H : HashFn) (atHeight deadlineHeight : Nat) (store : InboxStore) (nonce : Nat)
    (entry : Option PendingTx) : Except TrackerError (InboxStore × Option TrackedSubmission) :=
  match store.get nonce, entry with
  | some _, _ => .ok (store, none)
  | none, none => .ok (store, none)
  | none, some pending => do
    let txHash := H.digest pending.txBytes
    let store ← storeResult (store.recordSubmitted nonce deadlineHeight pending.deadlineMs atHeight
      (Hex.encodePrefixed txHash) (Hex.encode pending.txBytes))
    return (store, some
      { nonce, txHash, txBytes := pending.txBytes, deadlineMs := pending.deadlineMs
        deadlineHeight, firstSeenHeight := atHeight })

/-- The loop of `sync` over `count` nonces from `nonce` on. -/
def trackFrom (H : HashFn) (atHeight deadlineHeight : Nat) (pending : Table Nat PendingTx)
    (store : InboxStore) (nonce : Nat) : Nat → Except TrackerError InboxStore
  | 0 => .ok store
  | count + 1 => do
    let (store, _) ← trackEntry H atHeight deadlineHeight store nonce (pending nonce)
    trackFrom H atHeight deadlineHeight pending store (nonce + 1) count

/-- Records every nonce of the inbox that is not tracked yet. The block budget is whatever the
last window read left. -/
def sync (H : HashFn) (inbox : Inbox) (deadlineBlocks atHeight : Nat) (store : InboxStore) :
    Except TrackerError InboxStore :=
  trackFrom H atHeight (saturatingAdd atHeight deadlineBlocks) inbox.pending store
    inbox.includedCount (inbox.nextNonce - inbox.includedCount)

/-- Marks one nonce whose receipt was found at `height`. -/
def observeInclusion (nonce height : Nat) (store : InboxStore) : Except TrackerError InboxStore :=
  match store.get nonce with
  | some (.included existing _) =>
    if existing = height then .ok store
    else .error (.store (.conflict
      (s!"inbox nonce {nonce} already included at height {existing}, " ++
        s!"refusing second inclusion at height {height}")))
  | some (.submitted ..) => storeResult (store.markIncluded nonce height)
  | none => .error (.corrupt s!"cannot mark untracked inbox nonce {nonce} included")

/-- A stored record as a submission; `submitted` hands out no other records. -/
def submissionOf (nonce : Nat) : NonceRecord → Except TrackerError TrackedSubmission
  | .submitted deadlineHeight deadlineMs firstSeenHeight txHash txBytes => do
    let txHash ← parseTxHash txHash
    let txBytes ← decodeTxBytes txBytes
    return { nonce, txHash, txBytes, deadlineMs, deadlineHeight, firstSeenHeight }
  | .included .. => .error (.corrupt s!"submitted() returned an included record for nonce {nonce}")

/-- Every submission that is not included yet, in nonce order. -/
def pendingSubmissions (store : InboxStore) : Except TrackerError (List TrackedSubmission) :=
  store.submitted.mapM fun (nonce, record) => submissionOf nonce record

/-- The sequencer's inclusion cursor: how many nonces are marked included. -/
def settleCursor (store : InboxStore) : Nat := store.includedCount

/-- The loop of `halt_check`: the first submitted record decides. -/
def haltCheckRecords (nextHeight : Nat) : List (Nat × NonceRecord) → HaltCheck
  | [] => .clear
  | (nonce, .submitted deadlineHeight _ _ _ _) :: _ =>
    if deadlineHeight < nextHeight then .halt nonce deadlineHeight nextHeight else .clear
  | (_, .included ..) :: rest => haltCheckRecords nextHeight rest

def haltCheck (nextHeight : Nat) (store : InboxStore) : HaltCheck :=
  haltCheckRecords nextHeight store.snapshot

/-- The cursor `commit_with_cursor` passes to `settle`: the on-chain cursor is the floor. -/
def commitCursor (onChain tracked : Nat) : Nat := max tracked onChain

/-! ## What the operations do -/

variable {H : HashFn} {store store' : InboxStore} {nonce height deadlineHeight atHeight : Nat}

@[simp] theorem storeResult_eq_ok {α : Type} {x : Except StoreError α} {a : α} :
    storeResult x = .ok a ↔ x = .ok a := by
  cases x <;> simp [storeResult]

/-- The digest that `sync` stores is read back. -/
theorem parseTxHash_encodePrefixed (bytes : Bytes) :
    parseTxHash (Hex.encodePrefixed (H.digest bytes)) = .ok (H.digest bytes) := by
  simp only [parseTxHash, decodeTxBytes, Hex.decode_encodePrefixed, bind, Except.bind,
    H.length_digest, if_true]

/-- An iteration of `sync` tracks a pending submission that was not tracked, or nothing. -/
theorem trackEntry_cases {entry : Option PendingTx} {fresh : Option TrackedSubmission}
    (h : trackEntry H atHeight deadlineHeight store nonce entry = .ok (store', fresh)) :
    store' = store ∧ fresh = none ∨ fresh.isSome ∧ ∃ pending,
      entry = some pending ∧ store.get nonce = none ∧
      store' = ⟨store.nonces.insert nonce (.submitted deadlineHeight pending.deadlineMs atHeight
        (Hex.encodePrefixed (H.digest pending.txBytes)) (Hex.encode pending.txBytes))⟩ := by
  unfold trackEntry at h
  split at h
  · cases h
    exact .inl ⟨rfl, rfl⟩
  · cases h
    exact .inl ⟨rfl, rfl⟩
  · rename_i pending hget
    simp only [bind_eq_ok, storeResult_eq_ok, InboxStore.recordSubmitted_eq_ok, pure_eq_ok,
      Prod.mk.injEq] at h
    obtain ⟨_, ⟨-, rfl⟩, rfl, rfl⟩ := h
    exact .inr ⟨rfl, pending, rfl, hget, rfl⟩

theorem observeInclusion_eq_ok (h : observeInclusion nonce height store = .ok store') :
    store.markIncluded nonce height = .ok store' := by
  unfold observeInclusion at h
  split at h
  · rename_i existing txHash hget
    split at h
    · rename_i heq
      cases h
      exact InboxStore.markIncluded_eq_ok.2 (.inl ⟨txHash, heq ▸ hget, rfl⟩)
    · cases h
  · exact storeResult_eq_ok.1 h
  · cases h

end InboxTracker

end Podseq.Node
