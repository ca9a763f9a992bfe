import Podseq.Lib.BcsCanonical
import Podseq.Lib.Fallible
import Podseq.Node.Block

/-! # The wire format of a batch

What the sequencer publishes and full nodes read: the BCS of a list of wire blocks, whose
signatures are byte strings of any length. The decoder lets only absent signatures and those of 64
bytes through, so that nothing is lost on the way from a wire block to a block.
-/
namespace Podseq.Node.Wire
open Podseq.Lib

/-- On-blob serialization of a block. -/
structure WireBlock where
  height : Nat
  parentHash : B256
  stateRoot : B256
  timestamp : Nat
  data : Bytes
  signature : Option Bytes
deriving DecidableEq

inductive WireError
  | serde
  | invalidBatch (message : String)
deriving DecidableEq

namespace WireBlock

def ofBlock (block : Block) : WireBlock where
  height := block.header.height
  parentHash := block.header.parentHash
  stateRoot := block.header.stateRoot
  timestamp := block.header.timestamp
  data := block.data
  signature := block.signature.map Subtype.val

/-- A signature of another length than 64 would be dropped. -/
def toBlock (w : WireBlock) : Block where
  header := ⟨w.height, w.parentHash, w.stateRoot, w.timestamp⟩
  data := w.data
  signature := w.signature.bind (FixedBytes.ofBytes? 64)

/-- The fields in the order of the struct. -/
def codec : Bcs WireBlock :=
  .record
    (.pair .u64 (.pair (.fixed 32) (.pair (.fixed 32) (.pair .u64
      (.pair .bytes (.option .bytes))))))
    (fun (height, parentHash, stateRoot, timestamp, data, signature) =>
      ⟨height, parentHash, stateRoot, timestamp, data, signature⟩)
    (fun w => (w.height, w.parentHash, w.stateRoot, w.timestamp, w.data, w.signature))
    fun _ => rfl

theorem canonical_codec : codec.Canonical := by
  have hsignature := Bcs.canonical_bytes.option
  have hdata := Bcs.canonical_bytes.pair hsignature
  have htail := (Bcs.canonical_fixed 32).pair ((Bcs.canonical_fixed 32).pair
    (Bcs.canonical_u64.pair hdata))
  exact (Bcs.canonical_u64.pair htail).record (fun _ => rfl) fun _ => rfl

end WireBlock

def wireBatch : Bcs (List WireBlock) := .seq WireBlock.codec

theorem canonical_wireBatch : wireBatch.Canonical := WireBlock.canonical_codec.seq

/-- No sequence in the batch is too long for BCS. -/
def LengthsFit (wire : List WireBlock) : Prop :=
  wire.length ≤ Bcs.maxSequenceLength ∧ ∀ w ∈ wire,
    w.data.length ≤ Bcs.maxSequenceLength ∧ ∀ sig ∈ w.signature, sig.length ≤ Bcs.maxSequenceLength

instance (wire : List WireBlock) : Decidable (LengthsFit wire) :=
  inferInstanceAs (Decidable (_ ∧ _))

/-- `encode`; `bcs::to_bytes` fails on a sequence that is too long. -/
def encode (blocks : List Block) : Except WireError Bytes :=
  let wire := blocks.map WireBlock.ofBlock
  if LengthsFit wire then .ok (wireBatch.write wire) else .error .serde

/-- One block of `decode`. -/
def checkedBlock (w : WireBlock) : Except WireError Block :=
  match w.signature with
  | some sig =>
    if sig.length ≠ 64 then
      .error (.invalidBatch ("block " ++ toString w.height ++ " signature length " ++
        toString sig.length ++ ", expected 64"))
    else .ok w.toBlock
  | none => .ok w.toBlock

def decode (bytes : Bytes) : Except WireError (List Block) :=
  match wireBatch.ofBytes bytes with
  | none => .error .serde
  | some wire =>
    if wire.isEmpty then .error (.invalidBatch "batch is empty")
    else wire.mapM checkedBlock

/-! ## Blocks and wire blocks -/

variable {w : WireBlock} {block : Block} {wire : List WireBlock} {blocks : List Block}
  {input : Bytes}

def FitsU64 (header : Header) : Prop := header.height < 256 ^ 8 ∧ header.timestamp < 256 ^ 8

theorem WireBlock.codec_fits_iff : codec.Fits w ↔
    (w.height < 256 ^ 8 ∧ w.timestamp < 256 ^ 8) ∧ w.data.length ≤ Bcs.maxSequenceLength ∧
      ∀ sig ∈ w.signature, sig.length ≤ Bcs.maxSequenceLength := by
  have hbytes : ∀ xs : Bytes, Bcs.bytes.Fits xs ↔ xs.length ≤ Bcs.maxSequenceLength := fun xs =>
    and_iff_left fun _ _ => trivial
  show (w.height < 256 ^ 8 ∧ True ∧ True ∧ w.timestamp < 256 ^ 8 ∧ Bcs.bytes.Fits w.data ∧
    ∀ sig ∈ w.signature, Bcs.bytes.Fits sig) ↔ _
  simp only [hbytes, true_and, and_assoc]

/-- A batch has an encoding when its numbers and its lengths fit. -/
theorem wireBatch_fits_iff : wireBatch.Fits wire ↔
    LengthsFit wire ∧ ∀ w ∈ wire, w.height < 256 ^ 8 ∧ w.timestamp < 256 ^ 8 := by
  show (wire.length ≤ Bcs.maxSequenceLength ∧ ∀ w ∈ wire, WireBlock.codec.Fits w) ↔ _
  simp only [WireBlock.codec_fits_iff, LengthsFit]
  constructor
  · intro h
    exact ⟨⟨h.1, fun w hw => (h.2 w hw).2⟩, fun w hw => (h.2 w hw).1⟩
  · intro h
    exact ⟨h.1.1, fun w hw => ⟨h.2 w hw, h.1.2 w hw⟩⟩

theorem WireBlock.toBlock_ofBlock (block : Block) : (ofBlock block).toBlock = block := by
  obtain ⟨header, data, signature⟩ := block
  cases signature with
  | none => rfl
  | some sig =>
    simp only [ofBlock, toBlock, Option.map_some, Option.bind_some, FixedBytes.ofBytes?_val]

theorem WireBlock.ofBlock_toBlock (h : ∀ sig ∈ w.signature, sig.length = 64) :
    ofBlock w.toBlock = w := by
  obtain ⟨height, parentHash, stateRoot, timestamp, data, signature⟩ := w
  cases signature with
  | none => rfl
  | some sig =>
    have hsig : FixedBytes.ofBytes? 64 sig = some ⟨sig, h sig rfl⟩ :=
      FixedBytes.ofBytes?_eq_some.2 rfl
    simp only [toBlock, ofBlock, Option.bind_some, hsig, Option.map_some]

theorem WireBlock.signature_ofBlock {sig : Bytes} (h : sig ∈ (ofBlock block).signature) :
    sig.length = 64 := by
  obtain ⟨sig', -, rfl⟩ := Option.map_eq_some_iff.1 h
  exact sig'.property

/-- The check lets through exactly the wire blocks of blocks. -/
theorem checkedBlock_eq_ok : checkedBlock w = .ok block ↔ w = .ofBlock block := by
  constructor
  · intro h
    have hsig : (∀ sig ∈ w.signature, sig.length = 64) ∧ w.toBlock = block := by
      unfold checkedBlock at h
      split at h
      · rename_i sig hsome
        split_ifs at h with hlength
        cases h
        refine ⟨fun sig' hsig' => ?_, rfl⟩
        cases hsome.symm.trans hsig'
        exact not_not.1 hlength
      · rename_i hnone
        cases h
        refine ⟨fun sig hsig => ?_, rfl⟩
        cases hnone.symm.trans hsig
    rw [← hsig.2, WireBlock.ofBlock_toBlock hsig.1]
  · intro h
    have hback : w.toBlock = block := h ▸ WireBlock.toBlock_ofBlock block
    unfold checkedBlock
    split
    · rename_i sig hsome
      have hlength : sig.length = 64 := WireBlock.signature_ofBlock (h ▸ hsome)
      rw [if_neg (not_not.2 hlength), hback]
    · rw [hback]

theorem mapM_checkedBlock : wire.mapM checkedBlock = .ok blocks ↔
    wire = blocks.map WireBlock.ofBlock := by
  constructor
  · intro h
    have hmap := map_eq_map_of_forall₂ (f := id) (g := WireBlock.ofBlock)
      (fun w block hw => checkedBlock_eq_ok.1 hw) (forall₂_of_mapM_eq_ok h)
    rwa [List.map_id] at hmap
  · intro h
    subst h
    induction blocks with
    | nil => rfl
    | cons block blocks ih =>
      rw [List.map_cons, List.mapM_cons, checkedBlock_eq_ok.2 rfl, ih]
      rfl

/-! ## Encoding and decoding -/

/-- What is accepted is the encoding of a batch with at least one block. -/
theorem decode_eq_ok : decode input = .ok blocks ↔
    blocks ≠ [] ∧ wireBatch.Fits (blocks.map WireBlock.ofBlock) ∧
      input = wireBatch.write (blocks.map WireBlock.ofBlock) := by
  unfold decode
  cases hread : wireBatch.ofBytes input with
  | none =>
    refine iff_of_false (fun h => by cases h) fun h => ?_
    rw [canonical_wireBatch.ofBytes_eq_some.2 h.2] at hread
    cases hread
  | some wire =>
    dsimp only
    constructor
    · intro h
      split_ifs at h with hempty
      obtain rfl := mapM_checkedBlock.1 h
      refine ⟨fun hnil => hempty ?_, canonical_wireBatch.ofBytes_eq_some.1 hread⟩
      rw [hnil]
      rfl
    · intro h
      obtain ⟨hne, hwire⟩ := h
      obtain rfl := Option.some.inj (hread.symm.trans (canonical_wireBatch.ofBytes_eq_some.2 hwire))
      have hempty : ¬(blocks.map WireBlock.ofBlock).isEmpty = true := by
        rw [List.isEmpty_iff, List.map_eq_nil_iff]
        exact hne
      rw [if_neg hempty]
      exact mapM_checkedBlock.2 rfl

theorem encode_eq_ok : encode blocks = .ok input ↔
    LengthsFit (blocks.map WireBlock.ofBlock) ∧
      input = wireBatch.write (blocks.map WireBlock.ofBlock) := by
  unfold encode
  dsimp only
  split_ifs with hfit
  · simp only [Except.ok.injEq, hfit, true_and, eq_comm]
  · simp only [hfit, false_and]

theorem fits_of_blocks (hfit : ∀ block ∈ blocks, FitsU64 block.header) :
    ∀ w ∈ blocks.map WireBlock.ofBlock, w.height < 256 ^ 8 ∧ w.timestamp < 256 ^ 8 := by
  intro w hw
  obtain ⟨block, hmem, rfl⟩ := List.mem_map.1 hw
  exact hfit block hmem

/-- A batch that encodes is decoded to itself. -/
theorem decode_encode (hne : blocks ≠ []) (hfit : ∀ block ∈ blocks, FitsU64 block.header)
    (h : encode blocks = .ok input) : decode input = .ok blocks := by
  obtain ⟨hlengths, heq⟩ := encode_eq_ok.1 h
  exact decode_eq_ok.2 ⟨hne, wireBatch_fits_iff.2 ⟨hlengths, fits_of_blocks hfit⟩, heq⟩

/-- What is decoded encodes to the same bytes. -/
theorem encode_decode (h : decode input = .ok blocks) : encode blocks = .ok input := by
  obtain ⟨-, hfits, heq⟩ := decode_eq_ok.1 h
  exact encode_eq_ok.2 ⟨(wireBatch_fits_iff.1 hfits).1, heq⟩

/-- The canonical BCS of a batch that is not empty, with signatures absent or of 64 bytes. -/
def CanonicalBatch (input : Bytes) : Prop :=
  ∃ wire : List WireBlock, wire ≠ [] ∧ wireBatch.Fits wire ∧
    (∀ w ∈ wire, ∀ sig ∈ w.signature, sig.length = 64) ∧ input = wireBatch.write wire

theorem decodes_iff : (∃ blocks, decode input = .ok blocks) ↔ CanonicalBatch input := by
  constructor
  · intro h
    obtain ⟨blocks, h⟩ := h
    obtain ⟨hne, hfits, heq⟩ := decode_eq_ok.1 h
    refine ⟨blocks.map WireBlock.ofBlock, fun hnil => hne (List.map_eq_nil_iff.1 hnil), hfits,
      fun w hw sig hsig => ?_, heq⟩
    obtain ⟨block, -, rfl⟩ := List.mem_map.1 hw
    exact WireBlock.signature_ofBlock hsig
  · intro h
    obtain ⟨wire, hne, hfits, hsig, heq⟩ := h
    have hwire : (wire.map WireBlock.toBlock).map WireBlock.ofBlock = wire := by
      rw [List.map_map]
      exact (List.map_congr_left fun w hw => WireBlock.ofBlock_toBlock (hsig w hw)).trans
        (List.map_id wire)
    refine ⟨wire.map WireBlock.toBlock, decode_eq_ok.2 ⟨?_, ?_, ?_⟩⟩
    · intro hnil
      exact hne (List.map_eq_nil_iff.1 hnil)
    · rw [hwire]
      exact hfits
    · rw [hwire]
      exact heq

/-- **The wire format is canonical.** A batch that is not empty encodes exactly if its lengths fit
BCS, and is then decoded to itself; the decoder accepts exactly the canonical encodings of such
batches with signatures absent or of 64 bytes, and what it accepts encodes to the same bytes. -/
theorem wire_format_canonical :
    (∀ blocks input, blocks ≠ [] → (∀ block ∈ blocks, FitsU64 block.header) →
      encode blocks = .ok input → decode input = .ok blocks) ∧
    (∀ blocks, (∃ input, encode blocks = .ok input) ↔
      LengthsFit (blocks.map WireBlock.ofBlock)) ∧
    ∀ input, ((∃ blocks, decode input = .ok blocks) ↔ CanonicalBatch input) ∧
      ∀ blocks, decode input = .ok blocks → encode blocks = .ok input := by
  refine ⟨fun blocks input hne hfit h => decode_encode hne hfit h, fun blocks => ?_, fun input =>
    ⟨decodes_iff, fun blocks h => encode_decode h⟩⟩
  constructor
  · intro h
    obtain ⟨input, h⟩ := h
    exact (encode_eq_ok.1 h).1
  · intro h
    exact ⟨_, encode_eq_ok.2 ⟨h, rfl⟩⟩

/-- A signed block. -/
theorem wire_format_canonical_signed : ∃ input, decode input =
    .ok [⟨⟨1, .zero, .zero, 5⟩, [1, 2, 3], some (.zero 64)⟩] := by
  obtain ⟨input, h⟩ := (wire_format_canonical.2.1
    [⟨⟨1, .zero, .zero, 5⟩, [1, 2, 3], some (.zero 64)⟩]).2 (by decide)
  refine ⟨input, wire_format_canonical.1 _ _ (List.cons_ne_nil _ _) (fun block hmem => ?_) h⟩
  cases List.mem_singleton.1 hmem
  exact ⟨by decide, by decide⟩

example : decode [0] = .error (.invalidBatch "batch is empty") := rfl

end Podseq.Node.Wire
