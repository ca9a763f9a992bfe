import Podseq.Node.FullNode

/-! # What a signed header says about the payload

The signature covers the header; what is executed is the payload in the block's data. Nothing
compares the two, so a header describes the payload applied with it exactly when the data was
not swapped for another payload.
-/
namespace Podseq.Node
open Podseq.Lib

/-- Height and timestamp are `u64`. -/
def Header.Fits (header : Header) : Prop :=
  header.height < 256 ^ 8 ∧ header.timestamp < 256 ^ 8

instance (header : Header) : Decidable header.Fits := inferInstanceAs (Decidable (_ ∧ _))

/-- The same number, parent hash, state root and timestamp. -/
def ExecutionPayload.Agrees (payload other : ExecutionPayload) : Prop :=
  payload.blockNumber = other.blockNumber ∧ payload.parentHash = other.parentHash ∧
    payload.stateRoot = other.stateRoot ∧ payload.timestamp = other.timestamp

theorem Header.describes_iff {header : Header} {payload other : ExecutionPayload}
    (h : header.Describes other) : header.Describes payload ↔ payload.Agrees other := by
  obtain ⟨hn, hp, hs, ht⟩ := h
  simp only [Describes, ExecutionPayload.Agrees, hn, hp, hs, ht]

namespace FullNodeWorld

variable {src : NodeSources} {w w' : FullNodeWorld} {n : FullNode} {block : Block}
  {payload : ExecutionPayload} {a : Action} {encode : ExecutionPayload → Option Bytes}
  {built : List ExecutionPayload}

/-- Every applied block is signed, and its payload is what its data decodes to. -/
def Checked (src : NodeSources) (w : FullNodeWorld) : Prop :=
  ∀ e ∈ w.applied, verifyBlockSignature src.verify e.1 ∧ src.decode e.1.data = some e.2

theorem Checked.cons (hw : Checked src w) (hs : verifyBlockSignature src.verify block)
    (hd : src.decode block.data = some payload) (h : w'.applied = (block, payload) :: w.applied) :
    Checked src w' := by
  intro e he
  rw [h] at he
  rcases List.mem_cons.1 he with rfl | he
  · exact ⟨hs, hd⟩
  · exact hw e he

theorem Checked.applyBlock {replies : ApplyReplies} (hw : Checked src w)
    (hs : verifyBlockSignature src.verify block) :
    Checked src (applyBlock src w n block replies).world := by
  obtain he | ⟨payload, status, hd, -, ⟨-, he⟩ | ⟨status', -, he⟩⟩ :=
    applyBlock_cases src w n block replies
  · rw [he]
    exact hw
  · rw [he]
    exact hw.cons hs hd rfl
  · rw [he]
    exact hw.cons hs hd rfl

theorem Checked.markFinalized {reply : Reply PayloadStatus} {saved : Bool} (hw : Checked src w)
    (hs : verifyBlockSignature src.verify block) :
    Checked src (markFinalized src w n block reply saved).world := by
  obtain he | ⟨payload, hd, ⟨-, he⟩ | ⟨status, -, he⟩⟩ :=
    markFinalized_cases src w n block reply saved
  · rw [he]
    exact hw
  · rw [he]
    exact hw.cons hs hd rfl
  · rw [he]
    cases saved with
    | true => exact hw.cons hs hd rfl
    | false => exact hw.cons hs hd rfl

theorem Checked.applyAndFinalize {r : SyncReplies} (hw : Checked src w)
    (hs : verifyBlockSignature src.verify block) :
    Checked src (applyAndFinalize src w n block r).world := by
  obtain he | ⟨-, -, -, he⟩ | he := applyAndFinalize_cases src w n block r
  · rw [he]
    exact hw
  · rw [he]
    exact hw.markFinalized hs
  · have happly : Checked src (FullNodeWorld.applyBlock src w n block r.apply).world :=
      hw.applyBlock hs
    rw [he]
    cases ha : FullNodeWorld.applyBlock src w n block r.apply with
    | error w' =>
      rw [ha] at happly
      exact happly
    | ok r' =>
      obtain ⟨w', n'⟩ := r'
      rw [ha] at happly
      have hmark : Checked src (FullNodeWorld.markFinalized src w' n' block r.finalize
          r.saved).world := Checked.markFinalized happly hs
      exact hmark

theorem Checked.boot {head : Reply B256} {number : Reply Nat} (hw : Checked src w) :
    Checked src (w.boot head number) := by
  obtain he | ⟨stored, state, -, -, he⟩ | ⟨hash, height, -, -, -, he⟩ := boot_cases w head number
  · rw [he]
    exact hw
  · rw [he]
    exact hw
  · rw [he]
    exact hw

theorem Checked.exec (hw : Checked src w) (h : w.exec src a = some w') : Checked src w' := by
  cases a with
  | boot head number =>
    simp only [FullNodeWorld.exec] at h
    split at h
    · cases h
      exact hw.boot
    · cases h
  | syncNext r =>
    simp only [FullNodeWorld.exec, Option.map_eq_some_iff] at h
    obtain ⟨n, -, rfl⟩ := h
    obtain he | ⟨blocks, block, -, -, -, hs, he⟩ := syncNext_cases src w n r
    · rw [he]
      exact hw
    · rw [he]
      exact hw.applyAndFinalize hs
  | pollP2p announced cached replies =>
    simp only [FullNodeWorld.exec, Option.map_eq_some_iff] at h
    obtain ⟨n, -, rfl⟩ := h
    obtain he | ⟨block, -, hs, he⟩ := pollP2p_cases src w n announced cached replies
    · rw [he]
      exact hw
    · rw [he]
      exact hw.applyBlock hs
  | _ =>
    cases h
    exact hw

theorem reachable_checked (h : Reachable (· = fresh) (enabled (exec src)) w) : Checked src w := by
  refine h.inv ?_ fun _ _ _ hw hs => Checked.exec hw hs
  rintro _ rfl
  exact fun _ h => (List.not_mem_nil h).elim

/-- The key signs headers of the payloads in `built` only. -/
def SignsOnly (src : NodeSources) (encode : ExecutionPayload → Option Bytes)
    (built : List ExecutionPayload) : Prop :=
  ∀ message signature, src.verify message signature → ∃ payload ∈ built, ∃ block,
    payloadIntoBlock encode (.ofPayload payload) = some block ∧ block.header.Fits ∧
      block.header.signingMessage = message

/-- The header of an applied block is that of a payload the sequencer built, and it describes
the payload applied with it exactly when that one agrees with the payload built. -/
theorem applied_describes_iff (hsigned : SignsOnly src encode built)
    (h : Reachable (· = fresh) (enabled (exec src)) w) (hmem : (block, payload) ∈ w.applied)
    (hfits : block.header.Fits) : ∃ original ∈ built, block.header.Describes original ∧
      (block.header.Describes payload ↔ payload.Agrees original) := by
  obtain ⟨hverify, -⟩ := reachable_checked h _ hmem
  unfold verifyBlockSignature at hverify
  split at hverify
  · obtain ⟨original, horiginal, block', hblock, hfits', hmessage⟩ := hsigned _ _ hverify
    obtain hheader := Header.signingMessage_injective hfits'.1 hfits.1 hfits'.2 hfits.2 hmessage
    have hdescribes : block.header.Describes original :=
      hheader ▸ payloadIntoBlock_describes hblock
    exact ⟨original, horiginal, hdescribes, Header.describes_iff hdescribes⟩
  · cases hverify

/-- The JSON writer on the first payload. -/
def firstEncode (payload : ExecutionPayload) : Option Bytes :=
  if payload = firstPayload then some firstBlock.data else none

theorem firstChain_signsOnly (settled : Bool) :
    SignsOnly (firstChain settled) firstEncode [firstPayload] := by
  intro message signature h
  simp only [firstChain, Bool.and_eq_true, decide_eq_true_eq] at h
  refine ⟨firstPayload, List.mem_singleton_self _, { firstBlock with signature := none }, rfl,
    by decide, ?_⟩
  exact h.1.symm

def firstSynced : FullNodeWorld :=
  (execAll (exec (firstChain true)) fresh
    [.boot (some .zero) (some 0), .syncNext (.allValid none)]).getD fresh

theorem applied_describes_first : ∃ original ∈ [firstPayload],
    firstBlock.header.Describes original ∧
      (firstBlock.header.Describes firstPayload ↔ firstPayload.Agrees original) := by
  have hrun : Run (enabled (exec (firstChain true))) fresh
      [.boot (some .zero) (some 0), .syncNext (.allValid none)] firstSynced := run_of_execAll rfl
  have hmem : (firstBlock, firstPayload) ∈ firstSynced.applied := List.mem_cons_self
  exact applied_describes_iff (firstChain_signsOnly true) ⟨_, _, rfl, hrun⟩ hmem (by decide)

def swappedPayload : ExecutionPayload :=
  { firstPayload with blockNumber := 7, stateRoot := .repeated 9, blockHash := .repeated 8 }

def swappedBlock : Block := { firstBlock with data := [2] }

/-- The same chain, where the data of both blocks decodes. -/
def relayedChain : NodeSources :=
  { firstChain false with
    decode := fun data =>
      if data = firstBlock.data then some firstPayload
      else if data = swappedBlock.data then some swappedPayload else none }

/-- A peer serves the genuine header and signature with another payload, and the node applies
both blocks. -/
theorem swapped_applied : ∃ w : FullNodeWorld,
    SignsOnly relayedChain firstEncode [firstPayload] ∧
    Reachable (· = fresh) (enabled (exec relayedChain)) w ∧
    (firstBlock, firstPayload) ∈ w.applied ∧ (swappedBlock, swappedPayload) ∈ w.applied ∧
    swappedBlock.header = firstBlock.header ∧ swappedBlock.signature = firstBlock.signature ∧
    ¬ swappedBlock.header.Describes swappedPayload := by
  have hrun : Run (enabled (exec relayedChain)) fresh
      [.boot (some .zero) (some 0), .pollP2p 1 (some firstBlock) .allValid,
        .pollP2p 1 (some swappedBlock) .allValid] _ := run_of_execAll rfl
  refine ⟨_, firstChain_signsOnly false, ⟨_, _, rfl, hrun⟩,
    List.mem_cons_of_mem _ List.mem_cons_self, List.mem_cons_self, rfl, rfl, ?_⟩
  decide

end FullNodeWorld

end Podseq.Node
