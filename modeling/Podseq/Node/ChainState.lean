import Podseq.Lib.FixedBytes
import Podseq.Lib.Hex

/-! # Fork-choice pointers, in memory and in `state.json`

The pointers are stored as prefixed hexadecimal strings; a string that does not parse falls
back to another pointer, or is treated as absent, depending on who reads it.
-/
namespace Podseq.Node
open Podseq.Lib

abbrev B256 := FixedBytes 32

def B256.zero : B256 := FixedBytes.zero 32

def B256.repeated (b : UInt8) : B256 := ⟨List.replicate 32 b, List.length_replicate⟩

/-- The pointers the sequencer shares between its tasks. -/
structure ChainState where
  head : B256
  safe : B256
  finalized : B256
  timestamp : Nat
deriving DecidableEq

structure StoredState where
  head : String
  safe : String
  finalized : String
  /-- Produced by the sequencer, or synced by a full node. -/
  height : Nat
  timestamp : Nat
deriving DecidableEq

/-- `format!("{:#x}", hash)`. -/
def formatHash (hash : B256) : String := Hex.encodePrefixed hash.val

/-- `B256::from_str`. -/
def parseHash (s : String) : Option B256 := (Hex.decodePrefixed s).bind (FixedBytes.ofBytes? 32)

@[simp] theorem parseHash_formatHash (hash : B256) : parseHash (formatHash hash) = some hash := by
  rw [parseHash, formatHash, Hex.decodePrefixed_encodePrefixed, Option.bind_some,
    FixedBytes.ofBytes?_val]

namespace ChainState

def stored (s : ChainState) (height : Nat) : StoredState where
  head := formatHash s.head
  safe := formatHash s.safe
  finalized := formatHash s.finalized
  height := height
  timestamp := s.timestamp

/-- The pointers the sequencer recovers: an unreadable head is the zero hash, and the other two
fall back to the head. -/
def restore (stored : StoredState) : ChainState :=
  let head := (parseHash stored.head).getD .zero
  { head
    safe := (parseHash stored.safe).getD head
    finalized := (parseHash stored.finalized).getD head
    timestamp := stored.timestamp }

/-- A saved snapshot is restored as it was. -/
theorem restore_stored (s : ChainState) (height : Nat) : restore (s.stored height) = s := by
  simp only [restore, stored, parseHash_formatHash, Option.getD_some]

end ChainState

end Podseq.Node
