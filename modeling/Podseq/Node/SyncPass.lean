import Podseq.Lib.Fallible
import Podseq.Node.FullNode

/-! # A whole pass of the settlement sync

A pass reads the commitments above the cursor one after the other and keeps the blob that it read
last, since neighbouring heights often share one. It finalizes the settled blocks in the order of
their heights, up to where it fails.
-/
namespace Podseq.Node
open Podseq.Lib

abbrev BlobId := FixedBytes 32

/-- What a node reads of the chain: the sequencer's key, the JSON reader, the blob settled for a
height and the blocks in a blob. -/
structure SettledChain where
  verify : Bytes → FixedBytes 64 → Bool
  decode : Bytes → Option ExecutionPayload
  commitmentAt : Nat → Option BlobId
  blob : BlobId → List Block

namespace SettledChain

def sources (c : SettledChain) : NodeSources where
  verify := c.verify
  decode := c.decode
  batchOf height := (c.commitmentAt height).map c.blob

def blockAt (c : SettledChain) (height : Nat) : Option Block := do
  let id ← c.commitmentAt height
  (c.blob id).find? fun block => block.header.height = height

/-- The height and the hash of the block settled for a height. -/
def mark (c : SettledChain) (height : Nat) : Option (Nat × B256) := do
  let block ← c.blockAt height
  let payload ← c.decode block.data
  return (height, payload.blockHash)

end SettledChain

/-- The replies to the requests of a pass. -/
structure PassReplies where
  latest : Reply Nat
  /-- The UID of the commitments table was read. -/
  tableUid : Bool
  /-- The commitment of a height was read. -/
  committed : Nat → Bool
  /-- A blob was fetched. -/
  fetched : BlobId → Bool
  next : Nat → SyncReplies

/-- The replies to the iteration for a height, when it fetches the blob itself. -/
def PassReplies.forHeight (r : PassReplies) (c : SettledChain) (height : Nat) : SyncReplies :=
  { r.next height with fetched := r.committed height && (c.commitmentAt height).any r.fetched }

namespace FullNodeWorld

/-- An iteration, once it has the blocks of the batch. -/
def syncBlock (src : NodeSources) (w : FullNodeWorld) (n : FullNode) (height : Nat)
    (blocks : List Block) (replies : SyncReplies) : Outcome :=
  match blocks.find? (fun block => block.header.height = height) with
  | none => .error w
  | some block =>
    if verifyBlockSignature src.verify block then applyAndFinalize src w n block replies
    else .error w

def readCommitment (c : SettledChain) (r : PassReplies) (height : Nat) : Option BlobId :=
  if r.committed height then c.commitmentAt height else none

def fetch (c : SettledChain) (r : PassReplies) (id : BlobId) : Option (List Block) :=
  if r.fetched id then some (c.blob id) else none

/-- The blocks of a blob, from `cached_blob` when it is the one that was read last. -/
def lookup (c : SettledChain) (r : PassReplies) (cached : Option (BlobId × List Block))
    (id : BlobId) : Option (List Block) :=
  match cached with
  | some (last, blocks) => if last = id then some blocks else fetch c r id
  | none => fetch c r id

/-- The loop of `sync_from_settlement` over the `k` heights from `height` on. -/
def syncFrom (c : SettledChain) (r : PassReplies) : Nat → Nat → Option (BlobId × List Block) →
    FullNodeWorld → FullNode → Outcome
  | 0, _, _, w, n => .ok (w, n)
  | k + 1, height, cached, w, n =>
    match readCommitment c r height with
    | none => .error w
    | some id =>
      match lookup c r cached id with
      | none => .error w
      | some blocks => do
        let (w, n) ← syncBlock c.sources w n height blocks (r.next height)
        syncFrom c r k (height + 1) (some (id, blocks)) w n

/-- `sync_from_settlement`; `tableKnown` tells whether an earlier pass has read the UID of the
table. -/
def syncFromSettlement (c : SettledChain) (r : PassReplies) (tableKnown : Bool)
    (w : FullNodeWorld) (n : FullNode) : Outcome :=
  match r.latest with
  | none => .error w
  | some latest =>
    if latest ≤ n.syncedHeight then .ok (w, n)
    else if tableKnown || r.tableUid then
      syncFrom c r (latest - n.syncedHeight) (n.syncedHeight + 1) none w n
    else .error w

/-! ## What an iteration finalizes -/

variable {src : NodeSources} {c : SettledChain} {r : PassReplies} {w w' : FullNodeWorld}
  {n n' : FullNode} {block : Block} {blocks : List Block} {height start k : Nat}
  {replies : SyncReplies} {tableKnown : Bool}

/-- The cursor and the blocks finalized are as they were. -/
def Stays (w : FullNodeWorld) (n : FullNode) (w' : FullNodeWorld) : Prop :=
  ∃ n', w'.node = some n' ∧ n'.syncedHeight = n.syncedHeight ∧ w'.verified = w.verified

/-- The block was marked finalized, and the cursor is at it. -/
def Marks (src : NodeSources) (w : FullNodeWorld) (block : Block) (w' : FullNodeWorld)
    (n' : FullNode) : Prop :=
  ∃ payload, src.decode block.data = some payload ∧ w'.node = some n' ∧
    n'.syncedHeight = block.header.height ∧
    w'.verified = (block.header.height, payload.blockHash) :: w.verified

theorem applyBlock_stays (block : Block) (replies : ApplyReplies) (hn : w.node = some n) :
    Stays w n (applyBlock src w n block replies).world ∧
    ∀ w' n', applyBlock src w n block replies = .ok (w', n') → w'.node = some n' := by
  obtain he | ⟨payload, status, -, -, ⟨-, he⟩ | ⟨status', -, he⟩⟩ :=
    applyBlock_cases src w n block replies
  · rw [he]
    exact ⟨⟨n, hn, rfl, rfl⟩, fun w' n' hok => by cases hok⟩
  · rw [he]
    exact ⟨⟨_, rfl, rfl, rfl⟩, fun w' n' hok => by cases hok⟩
  · rw [he]
    refine ⟨⟨_, rfl, rfl, rfl⟩, fun w' n' hok => ?_⟩
    cases hok
    rfl

theorem markFinalized_marks (src : NodeSources) (w : FullNodeWorld) (n : FullNode)
    (block : Block) (reply : Reply PayloadStatus) (saved : Bool) :
    markFinalized src w n block reply saved = .error w ∨
    (∃ w' n', markFinalized src w n block reply saved = .error w' ∧ Marks src w block w' n') ∨
    ∃ w' n', markFinalized src w n block reply saved = .ok (w', n') ∧ Marks src w block w' n' := by
  obtain he | ⟨payload, hd, ⟨-, he⟩ | ⟨status, -, he⟩⟩ :=
    markFinalized_cases src w n block reply saved
  · exact .inl he
  · exact .inr (.inl ⟨_, _, he, payload, hd, rfl, rfl, rfl⟩)
  · refine .inr (.inr ⟨_, _, he, payload, hd, ?_, rfl, ?_⟩) <;> cases saved <;> rfl

/-- A settled block is marked, unless an error comes before. -/
theorem applyAndFinalize_marks (src : NodeSources) (block : Block) (replies : SyncReplies)
    (hn : w.node = some n) :
    (∃ w', applyAndFinalize src w n block replies = .error w' ∧
      (Stays w n w' ∨ ∃ n', Marks src w block w' n')) ∨
    ∃ w' n', applyAndFinalize src w n block replies = .ok (w', n') ∧ Marks src w block w' n' := by
  obtain he | ⟨-, -, -, he⟩ | he := applyAndFinalize_cases src w n block replies
  · exact .inl ⟨w, he, .inl ⟨n, hn, rfl, rfl⟩⟩
  · rw [he]
    obtain he | ⟨w', n', he, hm⟩ | hok :=
      markFinalized_marks src w n block replies.finalize replies.saved
    · exact .inl ⟨w, he, .inl ⟨n, hn, rfl, rfl⟩⟩
    · exact .inl ⟨w', he, .inr ⟨n', hm⟩⟩
    · exact .inr hok
  · rw [he]
    obtain ⟨hstays, hnode⟩ := @applyBlock_stays src w n block replies.apply hn
    obtain ⟨w₁, he₁⟩ | ⟨⟨w₁, n₁⟩, he₁⟩ := error_or_ok (applyBlock src w n block replies.apply)
    · rw [he₁] at hstays ⊢
      exact .inl ⟨w₁, rfl, .inl hstays⟩
    · have hn₁ := hnode w₁ n₁ he₁
      rw [he₁] at hstays ⊢
      obtain ⟨n₁', hn₁', hheight, hverified⟩ := hstays
      have hsame : w₁.verified = w.verified := hverified
      rw [ok_bind]
      obtain he₂ | ⟨w₂, n₂, he₂, hm⟩ | ⟨w₂, n₂, he₂, hm⟩ :=
        markFinalized_marks src w₁ n₁ block replies.finalize replies.saved
      · exact .inl ⟨w₁, he₂, .inl ⟨n₁', hn₁', hheight, hverified⟩⟩
      · rw [Marks, hsame] at hm
        exact .inl ⟨w₂, he₂, .inr ⟨n₂, hm⟩⟩
      · rw [Marks, hsame] at hm
        exact .inr ⟨w₂, n₂, he₂, hm⟩

/-! ## What a pass finalizes -/

/-- The node has marked the settled blocks of the heights after `start`, in order, up to its
cursor. -/
def Finalized (c : SettledChain) (start : Nat) (w : FullNodeWorld) (n : FullNode) : Prop :=
  w.node = some n ∧ start ≤ n.syncedHeight ∧ w.verified.reverse.map some =
    (List.range' (start + 1) (n.syncedHeight - start)).map c.mark

theorem Stays.finalized (h : Stays w n w') (hw : Finalized c start w n) :
    ∃ n', Finalized c start w' n' := by
  obtain ⟨n', hn', hheight, hverified⟩ := h
  refine ⟨n', hn', ?_, ?_⟩
  · rw [hheight]
    exact hw.2.1
  · rw [hheight, hverified]
    exact hw.2.2

theorem Marks.finalized (h : Marks c.sources w block w' n') (hw : Finalized c start w n)
    (hblock : c.blockAt (n.syncedHeight + 1) = some block)
    (hheight : block.header.height = n.syncedHeight + 1) : Finalized c start w' n' := by
  obtain ⟨payload, hdecode, hn', hcursor, hverified⟩ := h
  obtain ⟨-, hle, hmarks⟩ := hw
  have hmark : c.mark (n.syncedHeight + 1) = some (n.syncedHeight + 1, payload.blockHash) := by
    have hdecode' : c.decode block.data = some payload := hdecode
    simp [SettledChain.mark, hblock, hdecode']
  refine ⟨hn', by omega, ?_⟩
  -- the heights marked so far, and the one after the cursor
  have hcount : n'.syncedHeight - start = (n.syncedHeight - start) + 1 := by omega
  have hlast : start + 1 + (n.syncedHeight - start) = n.syncedHeight + 1 := by omega
  rw [hverified, hcount, List.range'_concat, Nat.one_mul, hlast, List.reverse_cons,
    List.map_append, List.map_append, hmarks, List.map_singleton, List.map_singleton, hmark,
    hheight]

/-- The block of an iteration is the one settled for the height after the cursor. -/
theorem syncBlock_finalized {id : BlobId} (replies : SyncReplies) (hw : Finalized c start w n)
    (hid : c.commitmentAt (n.syncedHeight + 1) = some id) :
    (∃ w' n', syncBlock c.sources w n (n.syncedHeight + 1) (c.blob id) replies = .error w' ∧
      Finalized c start w' n') ∨
    ∃ w' n', syncBlock c.sources w n (n.syncedHeight + 1) (c.blob id) replies = .ok (w', n') ∧
      n'.syncedHeight = n.syncedHeight + 1 ∧ Finalized c start w' n' := by
  unfold syncBlock
  split
  · exact .inl ⟨w, n, rfl, hw⟩
  · rename_i block hfind
    have hheight : block.header.height = n.syncedHeight + 1 := by
      simpa using List.find?_some hfind
    have hblock : c.blockAt (n.syncedHeight + 1) = some block := by
      simp only [SettledChain.blockAt, hid]
      exact hfind
    split
    · obtain ⟨w', he, hstays | ⟨n', hm⟩⟩ | ⟨w', n', he, hm⟩ :=
        applyAndFinalize_marks c.sources block replies hw.1
      · obtain ⟨n', hn'⟩ := hstays.finalized hw
        exact .inl ⟨w', n', he, hn'⟩
      · exact .inl ⟨w', n', he, hm.finalized hw hblock hheight⟩
      · have hw' := hm.finalized hw hblock hheight
        obtain ⟨-, -, -, hcursor, -⟩ := hm
        exact .inr ⟨w', n', he, hcursor.trans hheight, hw'⟩
    · exact .inl ⟨w, n, rfl, hw⟩

/-- After an iteration the cursor is at its height. -/
theorem syncBlock_cursor (hn : w.node = some n)
    (h : syncBlock src w n height blocks replies = .ok (w', n')) :
    w'.node = some n' ∧ n'.syncedHeight = height := by
  unfold syncBlock at h
  split at h
  · cases h
  · rename_i block hfind
    have hheight : block.header.height = height := by
      simpa using List.find?_some hfind
    split at h
    · obtain ⟨w₁, he, -⟩ | ⟨w₁, n₁, he, payload, -, hnode, hcursor, -⟩ :=
        applyAndFinalize_marks src block replies hn
      · rw [he] at h
        cases h
      · rw [he] at h
        cases h
        exact ⟨hnode, hcursor.trans hheight⟩
    · cases h

/-- A cache that holds the blob under its id, which can be fetched. -/
def CacheOk (c : SettledChain) (r : PassReplies) (cached : Option (BlobId × List Block)) : Prop :=
  ∀ id blocks, cached = some (id, blocks) → r.fetched id ∧ blocks = c.blob id

/-- The cache answers as the store does. -/
theorem lookup_eq {cached : Option (BlobId × List Block)} {id : BlobId}
    (h : CacheOk c r cached) : lookup c r cached id = fetch c r id := by
  unfold lookup
  split
  · rename_i last blocks
    split
    · rename_i heq
      obtain ⟨hfetched, rfl⟩ := h last blocks rfl
      rw [fetch, ← heq, if_pos hfetched]
    · rfl
  · rfl

theorem fetch_eq_some {id : BlobId} (h : fetch c r id = some blocks) :
    r.fetched id ∧ blocks = c.blob id := by
  rw [fetch, Option.ite_none_right_eq_some] at h
  exact ⟨h.1, (Option.some.inj h.2).symm⟩

theorem cacheOk_fetched {id : BlobId} (h : fetch c r id = some blocks) :
    CacheOk c r (some (id, blocks)) := by
  intro id' blocks' heq
  cases heq
  exact fetch_eq_some h

theorem syncFrom_finalized {cached : Option (BlobId × List Block)} (hcache : CacheOk c r cached)
    (hw : Finalized c start w n) :
    ∃ n', Finalized c start (syncFrom c r k (n.syncedHeight + 1) cached w n).world n' := by
  induction k generalizing cached w n with
  | zero => exact ⟨n, hw⟩
  | succ k ih =>
    rw [syncFrom, readCommitment]
    split
    · exact ⟨n, hw⟩
    · rename_i id hid
      have hid' : c.commitmentAt (n.syncedHeight + 1) = some id := by
        rw [Option.ite_none_right_eq_some] at hid
        exact hid.2
      rw [lookup_eq hcache]
      split
      · exact ⟨n, hw⟩
      · rename_i blocks hfetch
        have hnext := cacheOk_fetched hfetch
        obtain ⟨-, rfl⟩ := fetch_eq_some hfetch
        obtain ⟨w', n', he, hw'⟩ | ⟨w', n', he, hcursor, hw'⟩ :=
          syncBlock_finalized (r.next (n.syncedHeight + 1)) hw hid'
        · rw [he]
          exact ⟨n', hw'⟩
        · rw [he, ok_bind, ← hcursor]
          exact ih hnext hw'

/-- A pass marks the next settled blocks, in order. -/
theorem syncFromSettlement_finalized (hw : Finalized c start w n) :
    ∃ n', Finalized c start (syncFromSettlement c r tableKnown w n).world n' := by
  unfold syncFromSettlement
  split
  · exact ⟨n, hw⟩
  · split
    · exact ⟨n, hw⟩
    · split
      · exact syncFrom_finalized (fun id blocks h => by cases h) hw
      · exact ⟨n, hw⟩

/-! ## The cached blob -/

/-- The loop as iterations that fetch the blob of each height anew. -/
def refetchFrom (c : SettledChain) (r : PassReplies) : Nat → FullNodeWorld → FullNode → Outcome
  | 0, w, n => .ok (w, n)
  | k + 1, w, n => do
    let (w, n) ← w.syncNext c.sources n (r.forHeight c (n.syncedHeight + 1))
    refetchFrom c r k w n

theorem syncNext_forHeight : w.syncNext c.sources n (r.forHeight c (n.syncedHeight + 1)) =
    match readCommitment c r (n.syncedHeight + 1) with
    | none => .error w
    | some id =>
      match fetch c r id with
      | none => .error w
      | some blocks => syncBlock c.sources w n (n.syncedHeight + 1) blocks
          (r.next (n.syncedHeight + 1)) := by
  unfold syncNext readCommitment
  simp only [PassReplies.forHeight, SettledChain.sources]
  cases r.committed (n.syncedHeight + 1) with
  | false => cases c.commitmentAt (n.syncedHeight + 1) <;> rfl
  | true =>
    cases c.commitmentAt (n.syncedHeight + 1) with
    | none => rfl
    | some id =>
      simp only [Option.map_some, Option.any_some, Bool.true_and, if_true, fetch]
      cases r.fetched id <;> rfl

/-- Reusing the blob that was read last changes nothing. -/
theorem syncFrom_eq_refetchFrom {cached : Option (BlobId × List Block)}
    (hcache : CacheOk c r cached) (hn : w.node = some n) :
    syncFrom c r k (n.syncedHeight + 1) cached w n = refetchFrom c r k w n := by
  induction k generalizing cached w n with
  | zero => rfl
  | succ k ih =>
    rw [syncFrom, refetchFrom, syncNext_forHeight]
    split
    · rfl
    · rename_i id hid
      rw [lookup_eq hcache]
      split
      · rfl
      · rename_i blocks hfetch
        obtain ⟨w', he⟩ | ⟨⟨w', n'⟩, he⟩ := error_or_ok
          (syncBlock c.sources w n (n.syncedHeight + 1) blocks (r.next (n.syncedHeight + 1)))
        · rw [he]
          rfl
        · obtain ⟨hnode, hcursor⟩ := syncBlock_cursor hn he
          rw [he, ok_bind, ok_bind, ← hcursor]
          exact ih (cacheOk_fetched hfetch) hnode

end FullNodeWorld

end Podseq.Node
