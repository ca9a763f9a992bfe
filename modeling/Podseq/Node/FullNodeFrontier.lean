import Podseq.Node.FullNode

/-! # The DA-verified frontier of a full node

Every step moves the frontier by one block, read from the blob settled for its height. What is
left is where the frontier starts: the state file remembers it, and without the file the head
of the execution client is taken for it.
-/
namespace Podseq.Node
open Podseq.Lib

namespace FullNodeWorld

variable {src : NodeSources} {w w' : FullNodeWorld} {n n' : FullNode} {block : Block}
  {height : Nat} {hash : B256} {a : Action}

/-- The blob settled for `height` holds a signed block of that height with this payload. -/
def ReadFromDa (src : NodeSources) (height : Nat) (hash : B256) : Prop :=
  ∃ blocks block payload, src.batchOf height = some blocks ∧ block ∈ blocks ∧
    block.header.height = height ∧ verifyBlockSignature src.verify block ∧
    src.decode block.data = some payload ∧ payload.blockHash = hash

/-- Every height up to `height` was read and finalized, and `hash` is the block of the last
one. No block was settled for height 0. -/
def Real (w : FullNodeWorld) (height : Nat) (hash : B256) : Prop :=
  (∀ h, 1 ≤ h → h ≤ height → ∃ x, (h, x) ∈ w.verified) ∧
    (height = 0 ∨ (height, hash) ∈ w.verified)

theorem Real.mono (h : w.Real height hash) (hsub : w.verified ⊆ w'.verified) :
    w'.Real height hash :=
  ⟨fun k hk hle => (h.1 k hk hle).imp fun _ hx => hsub hx, h.2.imp_right fun hx => hsub hx⟩

/-- Reading the next block moves the frontier. -/
theorem Real.next (h : w.Real height hash) {next : B256} (hsub : w.verified ⊆ w'.verified)
    (hnext : (height + 1, next) ∈ w'.verified) : w'.Real (height + 1) next := by
  refine ⟨fun k hk hle => ?_, .inr hnext⟩
  rcases Nat.lt_or_ge height k with hlt | hge
  · obtain rfl : k = height + 1 := by omega
    exact ⟨next, hnext⟩
  · exact (h.1 k hk hge).imp fun _ hx => hsub hx

/-- The frontier in memory and the one on disk are real. -/
structure Frontier (src : NodeSources) (w : FullNodeWorld) : Prop where
  read : ∀ e ∈ w.verified, ReadFromDa src e.1 e.2
  node : ∀ {n}, w.node = some n → w.Real n.syncedHeight n.finalized
  disk : ∀ {stored state}, w.disk.load = some stored → parseForkchoice stored = some state →
    w.Real stored.height state.finalizedBlockHash

theorem fresh_frontier : Frontier src fresh :=
  ⟨fun _ h => (List.not_mem_nil h).elim, (nomatch ·), (nomatch ·)⟩

/-- The frontier is about the node's own cursor, the disk and the blocks read. -/
theorem Frontier.congr (hw : Frontier src w) (hdisk : w'.disk = w.disk)
    (hverified : w'.verified = w.verified)
    (hnode : ∀ {n'}, w'.node = some n' → ∃ n, w.node = some n ∧
      n'.syncedHeight = n.syncedHeight ∧ n'.finalized = n.finalized) : Frontier src w' := by
  have hsub : w.verified ⊆ w'.verified := hverified ▸ List.Subset.refl _
  refine ⟨fun e he => hw.read e (hverified ▸ he), fun hn => ?_, fun hl hp => ?_⟩
  · obtain ⟨n, hn, hs, hf⟩ := hnode hn
    rw [hs, hf]
    exact (hw.node hn).mono hsub
  · exact (hw.disk (hdisk ▸ hl) hp).mono hsub

theorem Frontier.applyBlock {replies : ApplyReplies} (hw : Frontier src w)
    (hn : w.node = some n) :
    Frontier src (applyBlock src w n block replies).world ∧
    ∀ {w' n'}, FullNodeWorld.applyBlock src w n block replies = .ok (w', n') →
      w'.node = some n' ∧ n'.syncedHeight = n.syncedHeight := by
  obtain he | ⟨payload, status, -, -, ⟨-, he⟩ | ⟨status', -, he⟩⟩ :=
    applyBlock_cases src w n block replies
  · rw [he]
    exact ⟨hw, (nomatch ·)⟩
  · rw [he]
    refine ⟨hw.congr rfl rfl fun hn' => ?_, (nomatch ·)⟩
    cases hn'
    exact ⟨n, hn, rfl, rfl⟩
  · rw [he]
    refine ⟨hw.congr rfl rfl fun hn' => ?_, fun hok => ?_⟩
    · cases hn'
      exact ⟨n, hn, rfl, rfl⟩
    · cases hok
      exact ⟨rfl, rfl⟩

/-- Finalizing the block read for the next height. -/
theorem Frontier.markFinalized {reply : Reply PayloadStatus} {saved : Bool}
    (hw : Frontier src w) (hn : w.node = some n)
    (hheight : block.header.height = n.syncedHeight + 1)
    (hread : ∀ payload, src.decode block.data = some payload →
      ReadFromDa src block.header.height payload.blockHash) :
    Frontier src (markFinalized src w n block reply saved).world := by
  obtain he | ⟨payload, hd, hcase⟩ := markFinalized_cases src w n block reply saved
  · rw [he]
    exact hw
  have hsub : w.verified ⊆ (block.header.height, payload.blockHash) :: w.verified :=
    List.subset_cons_self ..
  -- The frontier after the block, in any world that remembers it.
  have hreal : ∀ {w' : FullNodeWorld},
      w'.verified = (block.header.height, payload.blockHash) :: w.verified →
      w'.Real block.header.height payload.blockHash := by
    intro w' hv
    rw [hheight]
    refine (hw.node hn).next (hv ▸ hsub) ?_
    rw [hv, ← hheight]
    exact List.mem_cons_self
  have hall : ∀ e ∈ (block.header.height, payload.blockHash) :: w.verified,
      ReadFromDa src e.1 e.2 := by
    intro e he'
    rcases List.mem_cons.1 he' with rfl | he'
    · exact hread payload hd
    · exact hw.read e he'
  obtain ⟨-, he⟩ | ⟨status, -, he⟩ := hcase
  · rw [he]
    refine ⟨hall, fun hn' => ?_, fun hl hp => (hw.disk hl hp).mono hsub⟩
    cases hn'
    exact hreal rfl
  · rw [he]
    cases saved with
    | true =>
      refine ⟨hall, fun hn' => ?_, fun hl hp => ?_⟩
      · cases hn'
        exact hreal rfl
      · cases hl
        rw [parseForkchoice_stored] at hp
        cases hp
        exact hreal rfl
    | false =>
      refine ⟨hall, fun hn' => ?_, fun hl hp => (hw.disk hl hp).mono hsub⟩
      cases hn'
      exact hreal rfl

theorem Frontier.applyAndFinalize {replies : SyncReplies} (hw : Frontier src w)
    (hn : w.node = some n) (hheight : block.header.height = n.syncedHeight + 1)
    (hread : ∀ payload, src.decode block.data = some payload →
      ReadFromDa src block.header.height payload.blockHash) :
    Frontier src (applyAndFinalize src w n block replies).world := by
  obtain he | ⟨-, -, -, he⟩ | he := applyAndFinalize_cases src w n block replies
  · rw [he]
    exact hw
  · rw [he]
    exact hw.markFinalized hn hheight hread
  · have happly : Frontier src (FullNodeWorld.applyBlock src w n block replies.apply).world ∧ _ :=
      hw.applyBlock hn
    obtain ⟨hworld, hnode⟩ := happly
    rw [he]
    cases ha : FullNodeWorld.applyBlock src w n block replies.apply with
    | error w' =>
      rw [ha] at hworld
      exact hworld
    | ok r =>
      obtain ⟨w', n'⟩ := r
      rw [ha] at hworld
      obtain ⟨hn', hsynced⟩ := hnode ha
      exact hworld.markFinalized hn' (hsynced ▸ hheight) hread

theorem Frontier.syncNext {replies : SyncReplies} (hw : Frontier src w) (hn : w.node = some n) :
    Frontier src (w.syncNext src n replies).world := by
  obtain he | ⟨blocks, block, hbatch, hmem, hheight, hsigned, he⟩ :=
    syncNext_cases src w n replies
  · rw [he]
    exact hw
  · rw [he]
    refine hw.applyAndFinalize hn hheight fun payload hd => ?_
    exact ⟨blocks, block, payload, hheight ▸ hbatch, hmem, rfl, hsigned, hd, rfl⟩

theorem Frontier.pollP2p {announced : Nat} {cached : Option Block} {replies : ApplyReplies}
    (hw : Frontier src w) (hn : w.node = some n) :
    Frontier src (w.pollP2p src n announced cached replies).world := by
  obtain he | ⟨block, -, -, he⟩ := pollP2p_cases src w n announced cached replies
  · rw [he]
    exact hw
  · rw [he]
    exact (hw.applyBlock hn).1

/-- A node that starts without a readable state file starts at a head whose block, and all
before it, were read from settled blobs. -/
def realStart (w : FullNodeWorld) : Action → Prop
  | .boot (some head) (some number) =>
    w.disk.load.bind parseForkchoice = none → w.Real number head
  | _ => True

theorem Frontier.boot {head : Reply B256} {number : Reply Nat} (hw : Frontier src w)
    (hok : w.realStart (.boot head number)) : Frontier src (w.boot head number) := by
  obtain he | ⟨stored, state, hl, hp, he⟩ | ⟨hash, height, hnone, rfl, rfl, he⟩ :=
    boot_cases w head number
  · rw [he]
    exact hw
  · rw [he]
    refine ⟨hw.read, fun hn => ?_, hw.disk⟩
    cases hn
    exact hw.disk hl hp
  · rw [he]
    refine ⟨hw.read, fun hn => ?_, hw.disk⟩
    cases hn
    exact hok hnone

theorem Frontier.exec (hw : Frontier src w) (hok : w.realStart a)
    (h : w.exec src a = some w') : Frontier src w' := by
  cases a with
  | boot head number =>
    simp only [FullNodeWorld.exec] at h
    split at h
    · cases h
      exact hw.boot hok
    · cases h
  | crash =>
    cases h
    exact ⟨hw.read, (nomatch ·), hw.disk⟩
  | loseFile | tearFile =>
    cases h
    exact ⟨hw.read, hw.node, (nomatch ·)⟩
  | syncNext replies =>
    simp only [FullNodeWorld.exec, Option.map_eq_some_iff] at h
    obtain ⟨n, hn, rfl⟩ := h
    exact hw.syncNext hn
  | pollP2p announced cached replies =>
    simp only [FullNodeWorld.exec, Option.map_eq_some_iff] at h
    obtain ⟨n, hn, rfl⟩ := h
    exact hw.pollP2p hn

/-- Every height at or below the synced one was read from the blob settled for it, and the
finalized block is the one read last. -/
theorem frontier_real (h : Reachable (· = fresh) (guarded realStart (enabled (exec src))) w)
    (hn : w.node = some n) :
    (∀ height, 1 ≤ height → height ≤ n.syncedHeight → ∃ hash, (height, hash) ∈ w.verified) ∧
    (n.syncedHeight = 0 ∨ (n.syncedHeight, n.finalized) ∈ w.verified) ∧
    ∀ e ∈ w.verified, ReadFromDa src e.1 e.2 := by
  have hw : Frontier src w := by
    refine h.inv ?_ fun _ _ _ hw hs => hw.exec hs.1 hs.2
    rintro _ rfl
    exact fresh_frontier
  exact ⟨(hw.node hn).1, (hw.node hn).2, hw.read⟩

/-- A node starts at genesis and syncs one block. -/
theorem frontier_real_first : ∃ (w : FullNodeWorld) (n : FullNode), w.node = some n ∧
    n.syncedHeight = 1 ∧ (n.syncedHeight, n.finalized) ∈ w.verified ∧
    ReadFromDa (firstChain true) 1 n.finalized := by
  have hrun : Run (guarded realStart (enabled (exec (firstChain true)))) fresh
      [.boot (some .zero) (some 0), .syncNext (.allValid none)] _ :=
    .cons ⟨fun _ => ⟨fun _ _ _ => by omega, .inl rfl⟩, rfl⟩ <| .cons ⟨trivial, rfl⟩ .nil
  obtain ⟨-, hlast, hread⟩ := frontier_real ⟨_, _, rfl, hrun⟩ rfl
  have hmem := hlast.resolve_left (by decide)
  exact ⟨_, _, rfl, rfl, hmem, hread _ hmem⟩

/-- A block that came from a peer, and was never settled, is final after a restart without a
state file. -/
theorem adopted_not_read : ∃ (w : FullNodeWorld) (n : FullNode),
    Reachable (· = fresh) (enabled (exec (firstChain false))) w ∧ w.node = some n ∧
    n.syncedHeight = 1 ∧ n.finalized = firstPayload.blockHash ∧
    w.verified = [] ∧ ∀ hash, ¬ ReadFromDa (firstChain false) 1 hash := by
  have hrun : Run (enabled (exec (firstChain false))) fresh
      [.boot (some .zero) (some 0), .pollP2p 1 (some firstBlock) .allValid, .crash,
        .boot (some firstPayload.blockHash) (some 1)] _ := run_of_execAll rfl
  refine ⟨_, _, ⟨_, _, rfl, hrun⟩, rfl, rfl, rfl, rfl, fun hash hread => ?_⟩
  obtain ⟨blocks, -, -, hbatch, -⟩ := hread
  cases hbatch

end FullNodeWorld

end Podseq.Node
