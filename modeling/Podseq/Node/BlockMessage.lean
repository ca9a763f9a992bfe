import Podseq.Node.InboxTracker
import Podseq.Node.SignedHeader

/-! # What the digest of a block message identifies

A message carries header, data and signature; its digest is the hash of the data digest followed
by the signing message of the header. The broadcast cache hands out any message under its
digest, so the digest identifies a block up to its signature, which only its check can tell.
-/
namespace Podseq.Node
open Podseq.Lib

namespace BlockMessage

/-- What the digest of a block is the hash of. -/
def digestInput (sha256 : HashFn) (block : Block) : Bytes :=
  sha256.digest block.data ++ block.header.signingMessage

def digest (sha256 : HashFn) (block : Block) : FixedBytes 32 :=
  ⟨sha256.digest (digestInput sha256 block), sha256.length_digest _⟩

end BlockMessage

structure BlockAnnounce where
  height : Nat
  digest : FixedBytes 32

namespace BlockAnnounce

/-- 8 bytes of height, 32 of digest. -/
def encode (announce : BlockAnnounce) : Bytes :=
  leBytes 8 announce.height ++ announce.digest.val

/-- Reads an announcement of 40 bytes; any other length is malformed. -/
def decode (bytes : Bytes) : Option BlockAnnounce :=
  if bytes.length = 40 then
    (FixedBytes.ofBytes? 32 (bytes.drop 8)).map fun digest =>
      { height := ofLeBytes (bytes.take 8), digest }
  else none

def ofBlock (sha256 : HashFn) (block : Block) : BlockAnnounce :=
  { height := block.header.height, digest := BlockMessage.digest sha256 block }

theorem decode_encode {announce : BlockAnnounce} (h : announce.height < 256 ^ 8) :
    decode announce.encode = some announce := by
  obtain ⟨height, digest, hdigest⟩ := announce
  have hlength : (leBytes 8 height ++ digest).length = 40 := by
    rw [List.length_append, length_leBytes, hdigest]
  have hdrop : (leBytes 8 height ++ digest).drop 8 = digest := List.drop_left' length_leBytes
  have htake : (leBytes 8 height ++ digest).take 8 = leBytes 8 height :=
    List.take_left' length_leBytes
  simp only [decode, encode, hlength, if_true, hdrop, htake]
  rw [FixedBytes.ofBytes?_val ⟨digest, hdigest⟩, Option.map_some, ofLeBytes_leBytes h]

end BlockAnnounce

/-- The broadcast layer of a node: everything any peer has sent, and the reader of messages. -/
structure BroadcastCache where
  readBlock : Bytes → Option Block
  messages : List Bytes

namespace BroadcastCache

variable {sha256 : HashFn} {cache : BroadcastCache} {block received : Block}
  {announce : BlockAnnounce}

/-- The blocks in the cache; a message that is no block is dropped. -/
def blocks (cache : BroadcastCache) : List Block := cache.messages.filterMap cache.readBlock

/-- `BlockReceiver::receive` returns any block of the cache under the digest. -/
def Receives (sha256 : HashFn) (cache : BroadcastCache) (digest : FixedBytes 32)
    (block : Block) : Prop :=
  block ∈ cache.blocks ∧ BlockMessage.digest sha256 block = digest

/-- Everything that is hashed to give blocks their digests. -/
def hashedInputs (sha256 : HashFn) (blocks : List Block) : Set Bytes :=
  { input | ∃ block ∈ blocks, input = block.data ∨ input = BlockMessage.digestInput sha256 block }

/-- Blocks with one digest agree in header and data, when their hashes do not collide. -/
theorem eq_of_digest_eq {blocks : List Block} {b b' : Block}
    (hfree : (hashedInputs sha256 blocks).InjOn sha256.digest) (hb : b ∈ blocks)
    (hb' : b' ∈ blocks) (hfits : b.header.Fits) (hfits' : b'.header.Fits)
    (h : BlockMessage.digest sha256 b = BlockMessage.digest sha256 b') :
    b.header = b'.header ∧ b.data = b'.data := by
  have hinput : BlockMessage.digestInput sha256 b = BlockMessage.digestInput sha256 b' :=
    hfree ⟨b, hb, .inr rfl⟩ ⟨b', hb', .inr rfl⟩ (congrArg Subtype.val h)
  -- the digest of the data has a fixed length, so the two parts cannot shift
  obtain ⟨hdata, hheader⟩ := List.append_inj hinput (by
    rw [sha256.length_digest, sha256.length_digest])
  constructor
  · exact Header.signingMessage_injective hfits.1 hfits'.1 hfits.2 hfits'.2 hheader
  · exact hfree ⟨b, hb, .inl rfl⟩ ⟨b', hb', .inl rfl⟩ hdata

/-- **An announced digest identifies the announced block up to its signature.** Whatever peers
have sent, the block a node receives for the announcement of `block` has its header and its data,
and is accepted exactly when its own signature verifies for that header. -/
theorem received_of_announced
    (hread : ∀ bytes b, cache.readBlock bytes = some b → b.header.Fits)
    (hfits : block.header.Fits)
    (hfree : (hashedInputs sha256 (block :: cache.blocks)).InjOn sha256.digest)
    (hannounce : BlockAnnounce.decode (BlockAnnounce.ofBlock sha256 block).encode = some announce)
    (hreceive : cache.Receives sha256 announce.digest received) :
    received.header = block.header ∧ received.data = block.data ∧
      ∀ verify, verifyBlockSignature verify received =
        received.signature.any (verify block.header.signingMessage) := by
  obtain ⟨hmem, hdigest⟩ := hreceive
  have hheight : (BlockAnnounce.ofBlock sha256 block).height < 256 ^ 8 := hfits.1
  rw [BlockAnnounce.decode_encode hheight] at hannounce
  cases hannounce
  obtain ⟨bytes, -, hbytes⟩ := List.mem_filterMap.1 hmem
  obtain ⟨hheader, hdata⟩ := eq_of_digest_eq hfree (List.mem_cons_of_mem _ hmem)
    List.mem_cons_self (hread bytes received hbytes) hfits hdigest
  refine ⟨hheader, hdata, fun verify => ?_⟩
  rw [verifyBlockSignature, hheader]
  cases received.signature <;> rfl

/-! ## A message that races the signed one -/

/-- The length before the bytes, padded or cut: inputs of different lengths do not collide. -/
def lengthHash : HashFn where
  digest bytes := (bytes.length.toUInt8 :: bytes ++ List.replicate 32 0).take 32
  length_digest bytes := by
    rw [List.length_take, List.length_append, List.length_replicate]
    exact Nat.min_eq_left (Nat.le_add_left _ _)

/-- A block with data, signed or stripped of its signature. -/
def dataBlock (signature : Option (FixedBytes 64)) : Block :=
  ⟨⟨1, .zero, .zero, 0⟩, [2, 3], signature⟩

def stripped : BroadcastCache where
  readBlock bytes := if bytes = [0] then some (dataBlock none) else none
  messages := [[0]]

theorem stripped_fits (bytes : Bytes) (b : Block) (h : stripped.readBlock bytes = some b) :
    b.header.Fits := by
  simp only [stripped, Option.ite_none_right_eq_some, Option.some.injEq] at h
  obtain ⟨-, rfl⟩ := h
  decide

theorem stripped_free (signature : Option (FixedBytes 64)) :
    (hashedInputs lengthHash (dataBlock signature :: stripped.blocks)).InjOn
      lengthHash.digest := by
  have hinputs : ∀ x ∈ hashedInputs lengthHash (dataBlock signature :: stripped.blocks),
      x = [2, 3] ∨ x = BlockMessage.digestInput lengthHash (dataBlock none) := by
    intro x hx
    obtain ⟨b, hb, hx⟩ := hx
    have hblocks : stripped.blocks = [dataBlock none] := rfl
    rw [hblocks, List.mem_cons, List.mem_singleton] at hb
    obtain rfl | rfl := hb
    · exact hx
    · exact hx
  have hne : lengthHash.digest [2, 3] ≠
      lengthHash.digest (BlockMessage.digestInput lengthHash (dataBlock none)) := by
    decide +kernel
  intro x hx y hy heq
  obtain rfl | rfl := hinputs x hx <;> obtain rfl | rfl := hinputs y hy
  · rfl
  · exact absurd heq hne
  · exact absurd heq.symm hne
  · rfl

/-- The stripped message is received for the announcement: same header, same data. -/
theorem received_of_announced_stripped :
    ∃ received, stripped.Receives lengthHash
        (BlockMessage.digest lengthHash (dataBlock (some (.zero 64)))) received ∧
      received.header = (dataBlock (some (.zero 64))).header ∧
      received.data = (dataBlock (some (.zero 64))).data ∧
      ∀ verify, verifyBlockSignature verify received = received.signature.any
        (verify (dataBlock (some (.zero 64))).header.signingMessage) := by
  have hreceive : stripped.Receives lengthHash
      (BlockMessage.digest lengthHash (dataBlock (some (.zero 64)))) (dataBlock none) :=
    ⟨List.mem_cons_self, rfl⟩
  have hannounce := BlockAnnounce.decode_encode
    (show (BlockAnnounce.ofBlock lengthHash (dataBlock (some (.zero 64)))).height < 256 ^ 8 by
      decide)
  exact ⟨_, hreceive, received_of_announced stripped_fits (by decide) (stripped_free _) hannounce
    hreceive⟩

/-- The sequencer's block is accepted, the message received for its announcement is not. -/
theorem stripped_message_received :
    ¬∀ (sha256 : HashFn) (cache : BroadcastCache) (block : Block) announce received,
      (∀ bytes b, cache.readBlock bytes = some b → b.header.Fits) → block.header.Fits →
      (hashedInputs sha256 (block :: cache.blocks)).InjOn sha256.digest →
      BlockAnnounce.decode (BlockAnnounce.ofBlock sha256 block).encode = some announce →
      cache.Receives sha256 announce.digest received →
      received = block ∧ ∀ verify, verifyBlockSignature verify block →
        verifyBlockSignature verify received := by
  intro hclaim
  have hannounce := BlockAnnounce.decode_encode
    (show (BlockAnnounce.ofBlock lengthHash (dataBlock (some (.zero 64)))).height < 256 ^ 8 by
      decide)
  have hsame := (hclaim lengthHash stripped (dataBlock (some (.zero 64))) _ (dataBlock none)
    stripped_fits (by decide) (stripped_free _) hannounce ⟨List.mem_cons_self, rfl⟩).2
      (fun _ _ => true) rfl
  cases hsame

end BroadcastCache

end Podseq.Node
