import Podseq.Lib.Bcs
import Podseq.Lib.ObjectStore

/-! # Objects asked for

The nodes never call a contract to read it: they ask a full node of the ledger for an object under
its id. What that answers is not theirs, so every reader takes the replies as they come; what a
result needs of them is that they are true to the objects there are.
-/
namespace Podseq.Node
open Podseq.Lib

inductive ObjectReply
  | failed (msg : String)
  | noObject
  | noContents
  | contents (bytes : Bytes)
deriving DecidableEq, Repr

/-- `SettlementError`, as far as reads return it. -/
inductive SettlementError
  | rpc (msg : String)
  /-- `{label} object not found`. -/
  | objectNotFound (label : String)
  /-- `{label} has no contents`. -/
  | noContents (label : String)
  /-- `field contents missing raw BCS`. -/
  | noFieldContents
  /-- `{label} BCS too short: {length} bytes`. -/
  | tooShort (label : String) (length : Nat)
  /-- `registry BCS: …`. -/
  | parseRegistry
  /-- `field BCS: …`. -/
  | parseField
  /-- `expected 32-byte blob id, got {length}`. -/
  | parseBlobId (length : Nat)
deriving DecidableEq, Repr

/-- `InboxError`: what a request and the readers over it end with. -/
inductive InboxError
  | rpc (cause : SettlementError)
  | notFound (cause : SettlementError)
  /-- `inbox BCS: …`. -/
  | parseInbox
  /-- `pending-tx field BCS: …`. -/
  | parsePending
  /-- `pending transaction has empty tx_bytes`. -/
  | emptyTx
  /-- `state-root field BCS: …`. -/
  | parseRoot
  /-- `state root must be 32 bytes, got {length}`. -/
  | rootLength (length : Nat)
  /-- `window field BCS: …`. -/
  | parseWindow
  /-- `pending-window field BCS: …`. -/
  | parsePendingWindow
  /-- `peer book BCS: …`. -/
  | parseBook
  /-- `peer identity must be 32 bytes, got {length}`. -/
  | parseIdentity (length : Nat)
  /-- `rotation state BCS: …`. -/
  | parseState
  /-- `entomb settler cap ptb: …`. -/
  | entombSettler
  /-- `entomb bridge cap ptb: …`. -/
  | entombBridge
deriving DecidableEq, Repr

namespace LedgerObjects

/-! ## The requests -/

section
variable (get : FixedBytes 32 → ObjectReply) (id : FixedBytes 32)

def objectContents (label : String) : Except SettlementError Bytes :=
  match get id with
  | .failed msg => .error (.rpc msg)
  | .noObject => .error (.objectNotFound label)
  | .noContents => .error (.noContents label)
  | .contents bytes => .ok bytes

def transportContents : Except InboxError Bytes :=
  match objectContents get id "inbox" with
  | .ok bytes => .ok bytes
  | .error (.objectNotFound label) => .error (.notFound (.objectNotFound label))
  | .error (.noContents label) => .error (.notFound (.noContents label))
  | .error e => .error (.rpc e)

variable {get id} {label msg : String} {bytes : Bytes}

theorem objectContents_found (h : get id = .contents bytes) :
    objectContents get id label = .ok bytes := by
  rw [objectContents, h]

theorem transportContents_found (h : get id = .contents bytes) :
    transportContents get id = .ok bytes := by
  rw [transportContents, objectContents_found h]

theorem transportContents_absent (h : get id = .noObject) :
    transportContents get id = .error (.notFound (.objectNotFound "inbox")) := by
  rw [transportContents, objectContents, h]

theorem transportContents_failed (h : get id = .failed msg) :
    transportContents get id = .error (.rpc (.rpc msg)) := by
  rw [transportContents, objectContents, h]

end

/-! ## True replies -/

section
variable {κ : Type*} {get : FixedBytes 32 → ObjectReply} {ids : κ → FixedBytes 32}
  {stored : κ → Option Bytes} {P : κ → Prop}

/-- An object with an id of its own is served under it, and of an id of no object the reply is that
there is none. A full node that refuses such a request instead does not serve like that: the nodes
take its refusal for a failed request. -/
structure Serves (get : FixedBytes 32 → ObjectReply) (ids : κ → FixedBytes 32)
    (stored : κ → Option Bytes) : Prop where
  found : ∀ key bytes, stored key = some bytes →
    (∀ key', stored key' ≠ none → ids key' = ids key → key' = key) →
    get (ids key) = .contents bytes
  absent : ∀ key, (∀ key', ids key' = ids key → stored key' = none) → get (ids key) = .noObject

/-- Where all objects have ids of their own, the reply is about the object under the key. -/
theorem Serves.get_eq (h : Serves get ids stored)
    (hinj : ∀ a b, P a → P b → ids a = ids b → a = b)
    (hP : ∀ {key bytes}, stored key = some bytes → P key) (key : κ) (hkey : P key) :
    get (ids key) = match stored key with
      | none => .noObject
      | some bytes => .contents bytes := by
  have hown : ∀ key', stored key' ≠ none → ids key' = ids key → key' = key := by
    intro key' hne hid
    obtain ⟨bytes, hbytes⟩ := Option.ne_none_iff_exists'.1 hne
    exact hinj key' key (hP hbytes) hkey hid
  cases hstored : stored key with
  | some bytes => exact h.found key bytes hstored hown
  | none =>
    refine h.absent key fun key' hid => ?_
    by_contra hne
    rw [hown key' hne hid, hstored] at hne
    exact hne rfl

/-- A full node that has the objects under `keys`. -/
def service (ids : κ → FixedBytes 32) (keys : List κ) (stored : κ → Option Bytes)
    (id : FixedBytes 32) : ObjectReply :=
  match objectAt ids keys stored id with
  | none => .noObject
  | some bytes => .contents bytes

theorem service_serves {keys : List κ}
    (hkeys : ∀ key bytes, stored key = some bytes → key ∈ keys) :
    Serves (service ids keys stored) ids stored := by
  constructor
  · intro key bytes h hown
    rw [service, objectAt_own hkeys hown, h]
  · intro key h
    rw [service, objectAt_eq_none h]

end

end LedgerObjects

end Podseq.Node
