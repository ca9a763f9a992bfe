import Podseq.Lib.LittleEndian
import Podseq.Node.ChainState

/-! # Blocks, headers and payloads

A block is a header, the encoded execution payload and a signature of the header. Encoding,
decoding and the signature check belong to other libraries; they are parameters.
-/
namespace Podseq.Node
open Podseq.Lib

structure Header where
  height : Nat
  parentHash : B256
  stateRoot : B256
  timestamp : Nat
deriving DecidableEq

def Header.signingMessage (header : Header) : Bytes :=
  leBytes 8 header.height ++ header.parentHash.val ++ header.stateRoot.val ++
    leBytes 8 header.timestamp

structure Block where
  header : Header
  data : Bytes
  signature : Option (FixedBytes 64)
deriving DecidableEq

/-- `ExecutionPayloadV3`; `rest` stands for the fields no modelled function reads. -/
structure ExecutionPayload where
  parentHash : B256
  stateRoot : B256
  blockNumber : Nat
  timestamp : Nat
  blockHash : B256
  transactions : List Bytes
  rest : Bytes
deriving DecidableEq

structure BuiltPayload where
  payload : ExecutionPayload
  blockHash : B256
  height : Nat
  timestamp : Nat
deriving DecidableEq

/-- The end of `Engine::build`: everything is read off the payload. -/
def BuiltPayload.ofPayload (payload : ExecutionPayload) : BuiltPayload where
  payload := payload
  blockHash := payload.blockHash
  height := payload.blockNumber
  timestamp := payload.timestamp

/-- `payload_into_block`; `encode` is the JSON writer. -/
def payloadIntoBlock (encode : ExecutionPayload → Option Bytes) (built : BuiltPayload) :
    Option Block :=
  (encode built.payload).map fun data =>
    { header :=
        { height := built.height
          parentHash := built.payload.parentHash
          stateRoot := built.payload.stateRoot
          timestamp := built.timestamp }
      data
      signature := none }

/-- `verify_block_signature`; `verify` checks a message against the sequencer's public key. -/
def verifyBlockSignature (verify : Bytes → FixedBytes 64 → Bool) (block : Block) : Bool :=
  match block.signature with
  | some signature => verify block.header.signingMessage signature
  | none => false

/-- The payload carries the header's number, parent hash, state root and timestamp. -/
def Header.Describes (header : Header) (payload : ExecutionPayload) : Prop :=
  payload.blockNumber = header.height ∧ payload.parentHash = header.parentHash ∧
    payload.stateRoot = header.stateRoot ∧ payload.timestamp = header.timestamp

instance (header : Header) (payload : ExecutionPayload) :
    Decidable (header.Describes payload) :=
  inferInstanceAs (Decidable (_ ∧ _ ∧ _ ∧ _))

variable {header header' : Header}

/-- The message determines the header. -/
theorem Header.signingMessage_injective (hheight : header.height < 256 ^ 8)
    (hheight' : header'.height < 256 ^ 8) (htime : header.timestamp < 256 ^ 8)
    (htime' : header'.timestamp < 256 ^ 8)
    (h : header.signingMessage = header'.signingMessage) : header = header' := by
  obtain ⟨height, parentHash, stateRoot, timestamp⟩ := header
  obtain ⟨height', parentHash', stateRoot', timestamp'⟩ := header'
  simp only [signingMessage] at h
  obtain ⟨hrest, hts⟩ := List.append_inj' h (by simp)
  obtain ⟨hrest, hroot⟩ := List.append_inj' hrest (by
    rw [stateRoot.property, stateRoot'.property])
  obtain ⟨hh, hparent⟩ := List.append_inj' hrest (by
    rw [parentHash.property, parentHash'.property])
  obtain rfl := leBytes_injective hheight hheight' hh
  obtain rfl := leBytes_injective htime htime' hts
  obtain rfl := Subtype.ext hroot
  obtain rfl := Subtype.ext hparent
  rfl

/-- The header of a built block describes its payload. -/
theorem payloadIntoBlock_describes {encode : ExecutionPayload → Option Bytes}
    {payload : ExecutionPayload} {block : Block}
    (h : payloadIntoBlock encode (.ofPayload payload) = some block) :
    block.header.Describes payload := by
  simp only [payloadIntoBlock, Option.map_eq_some_iff] at h
  obtain ⟨data, -, rfl⟩ := h
  exact ⟨rfl, rfl, rfl, rfl⟩

end Podseq.Node
