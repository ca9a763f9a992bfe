import Podseq.Node.FullNode

/-! # The pointers of a full node after a failed engine call

`apply_block` and `mark_finalized` assign the pointers first and send the fork choice after, so a
fork choice that fails leaves them moved.
-/
namespace Podseq.Node
open Podseq.Lib

namespace FullNodeWorld

variable {src : NodeSources} {w w' : FullNodeWorld} {n : FullNode}

/-- A call of one of the two functions, with the replies it gets. -/
inductive PointerCall
  | applyBlock (block : Block) (replies : ApplyReplies)
  | markFinalized (block : Block) (reply : Reply PayloadStatus) (saved : Bool)

inductive EngineMethod
  | newPayloadV4
  | forkchoiceUpdatedV3

namespace PointerCall

def block : PointerCall → Block
  | .applyBlock block _ => block
  | .markFinalized block _ _ => block

def outcome (src : NodeSources) (w : FullNodeWorld) (n : FullNode) : PointerCall → Outcome
  | .applyBlock block replies => FullNodeWorld.applyBlock src w n block replies
  | .markFinalized block reply saved => FullNodeWorld.markFinalized src w n block reply saved

/-- The node with the pointers the call assigns for a block with this hash. -/
def assigned (n : FullNode) (hash : B256) : PointerCall → FullNode
  | .applyBlock block _ => n.advanced hash block.header.height
  | .markFinalized block _ _ => n.settled hash block.header.height

/-- The engine call inside that returned an error. -/
inductive EngineError (src : NodeSources) : PointerCall → EngineMethod → Prop
  | submit {block : Block} {replies : ApplyReplies} {payload : ExecutionPayload}
    (hd : src.decode block.data = some payload) (hreply : replies.newPayload = none) :
    EngineError src (.applyBlock block replies) .newPayloadV4
  | advance {block : Block} {replies : ApplyReplies} {payload : ExecutionPayload}
    {status : PayloadStatus} (hd : src.decode block.data = some payload)
    (hreply : replies.newPayload = some status) (hchoice : replies.forkchoice = none) :
    EngineError src (.applyBlock block replies) .forkchoiceUpdatedV3
  | finalize {block : Block} {saved : Bool} {payload : ExecutionPayload}
    (hd : src.decode block.data = some payload) :
    EngineError src (.markFinalized block none saved) .forkchoiceUpdatedV3

/-- The fork choice does not fail, or the pointers already are what the call makes them. -/
def Safe (src : NodeSources) (n : FullNode) (call : PointerCall) : Prop :=
  EngineError src call .forkchoiceUpdatedV3 →
    ∀ payload, src.decode call.block.data = some payload →
      call.assigned n payload.blockHash = n

/-- What a call leaves behind when one of its engine calls fails. -/
theorem node_of_engineError (call : PointerCall) {method : EngineMethod}
    (h : EngineError src call method) :
    (call.outcome src w n).world.node = (match method with
      | .newPayloadV4 => w.node
      | .forkchoiceUpdatedV3 => (src.decode call.block.data).map fun payload =>
          call.assigned n payload.blockHash) := by
  cases h with
  | submit hd hreply =>
    simp only [outcome, FullNodeWorld.applyBlock, hd, hreply]
    rfl
  | advance hd hreply hchoice =>
    simp only [outcome, FullNodeWorld.applyBlock, hd, hreply, hchoice, block]
    rfl
  | finalize hd =>
    simp only [outcome, FullNodeWorld.markFinalized, hd, block]
    rfl

theorem decode_of_engineError {call : PointerCall} {method : EngineMethod}
    (h : EngineError src call method) : ∃ payload, src.decode call.block.data = some payload := by
  cases h with
  | submit hd _ => exact ⟨_, hd⟩
  | advance hd _ _ => exact ⟨_, hd⟩
  | finalize hd => exact ⟨_, hd⟩

/-- A block of another height is never already the finalized one. -/
theorem not_safe_of_height {block : Block} {saved : Bool} {payload : ExecutionPayload}
    (hd : src.decode block.data = some payload) (hheight : block.header.height ≠ n.syncedHeight) :
    ¬Safe src n (.markFinalized block none saved) := by
  intro hsafe
  have hsame := hsafe (.finalize hd) payload hd
  exact hheight (congrArg FullNode.syncedHeight hsame)

/-- The pointers survive a failed engine call exactly when the call is safe. -/
theorem intact_iff (hn : w.node = some n) (call : PointerCall) :
    ((∃ method, EngineError src call method) → (call.outcome src w n).world.node = some n) ↔
      call.Safe src n := by
  constructor
  · intro h herr payload hd
    have hnode := call.node_of_engineError (w := w) (n := n) herr
    rw [h ⟨_, herr⟩, hd] at hnode
    exact (Option.some.inj hnode).symm
  · intro hsafe herr
    obtain ⟨method, herr⟩ := herr
    rw [call.node_of_engineError herr]
    cases method with
    | newPayloadV4 => exact hn
    | forkchoiceUpdatedV3 =>
      obtain ⟨payload, hd⟩ := decode_of_engineError herr
      show (src.decode call.block.data).map _ = some n
      rw [hd]
      exact congrArg some (hsafe herr payload hd)

end PointerCall

/-- Applying a block fails without moving the node when the call is safe. -/
theorem applyBlock_error (hn : w.node = some n) {block : Block} {replies : ApplyReplies}
    (hsafe : (PointerCall.applyBlock block replies).Safe src n)
    (h : applyBlock src w n block replies = .error w') : w'.node = some n := by
  obtain he | ⟨payload, status, hd, hp, ⟨hchoice, he⟩ | ⟨status', -, he⟩⟩ :=
    applyBlock_cases src w n block replies
  · cases h.symm.trans he
    exact hn
  · cases h.symm.trans he
    exact congrArg some (hsafe (.advance hd hp hchoice) payload hd)
  · cases h.symm.trans he

/-- A block that was applied was decoded, and the frontier did not move. -/
theorem applyBlock_ok {block : Block} {replies : ApplyReplies} {n' : FullNode}
    (h : applyBlock src w n block replies = .ok (w', n')) :
    (∃ payload, src.decode block.data = some payload) ∧ n'.syncedHeight = n.syncedHeight := by
  obtain he | ⟨payload, status, hd, -, ⟨-, he⟩ | ⟨status', -, he⟩⟩ :=
    applyBlock_cases src w n block replies
  · cases h.symm.trans he
  · cases h.symm.trans he
  · cases h.symm.trans he
    exact ⟨⟨payload, hd⟩, rfl⟩

/-- A safe finalization of the next block fails only on data that cannot be decoded. -/
theorem markFinalized_error {block : Block} {reply : Reply PayloadStatus} {saved : Bool}
    (hheight : block.header.height = n.syncedHeight + 1)
    (hsafe : (PointerCall.markFinalized block reply saved).Safe src n)
    (h : markFinalized src w n block reply saved = .error w') :
    src.decode block.data = none ∧ w' = w := by
  cases hd : src.decode block.data with
  | none =>
    simp only [markFinalized, hd] at h
    cases h
    exact ⟨rfl, rfl⟩
  | some payload =>
    cases reply with
    | none =>
      refine absurd hsafe (PointerCall.not_safe_of_height hd ?_)
      rw [hheight]
      exact Nat.succ_ne_self _
    | some status =>
      simp only [markFinalized, hd] at h
      cases h

/-- The calls an iteration makes for the settled block of the next height are safe. -/
def SafeIteration (src : NodeSources) (n : FullNode) (r : SyncReplies) : Prop :=
  ∀ blocks block n', src.batchOf (n.syncedHeight + 1) = some blocks → block ∈ blocks →
    block.header.height = n.syncedHeight + 1 → n'.syncedHeight = n.syncedHeight →
    (PointerCall.applyBlock block r.apply).Safe src n ∧
      (PointerCall.markFinalized block r.finalize r.saved).Safe src n'

/-- An iteration whose calls are safe fails without moving the node. -/
theorem syncNext_error (hn : w.node = some n) {r : SyncReplies} (hsafe : SafeIteration src n r)
    (h : w.syncNext src n r = .error w') : w'.node = some n := by
  obtain he | ⟨blocks, block, hbatch, hmem, hheight, -, he⟩ := syncNext_cases src w n r
  · cases h.symm.trans he
    exact hn
  have hcalls := hsafe blocks block
  rw [he] at h
  obtain he | ⟨payload, -, -, he⟩ | he := applyAndFinalize_cases src w n block r
  · cases h.symm.trans he
    exact hn
  · rw [he] at h
    obtain ⟨-, rfl⟩ := markFinalized_error hheight (hcalls n hbatch hmem hheight rfl).2 h
    exact hn
  · rw [he] at h
    cases ha : applyBlock src w n block r.apply with
    | error w₁ =>
      rw [ha] at h
      cases h
      exact applyBlock_error hn (hcalls n hbatch hmem hheight rfl).1 ha
    | ok p =>
      obtain ⟨w₁, n₁⟩ := p
      rw [ha] at h
      obtain ⟨⟨payload, hd⟩, hsynced⟩ := applyBlock_ok ha
      -- the block was decoded when it was applied, so its finalization does not fail
      have hfinal := (hcalls n₁ hbatch hmem hheight hsynced).2
      have hnone := (markFinalized_error (hsynced ▸ hheight) hfinal h).1
      rw [hd] at hnone
      cases hnone

/-- **The cursor survives a failed call exactly when the fork choice has nothing to move.** In every
state, a failed engine call of `apply_block` or `mark_finalized` leaves all pointers as they were
exactly if it was not the fork choice, or the pointers already had the values the call assigns. The
finalization of the next block never has them: it survives only without a failure. And an
iteration of the sync that fails while its calls are safe is retried at the same height. -/
theorem cursor_intact_iff (hn : w.node = some n) :
    (∀ call : PointerCall,
      ((∃ method, call.EngineError src method) → (call.outcome src w n).world.node = some n) ↔
        call.Safe src n) ∧
    (∀ block reply saved, block.header.height = n.syncedHeight + 1 →
      ((PointerCall.markFinalized block reply saved).Safe src n ↔
        ¬∃ method, (PointerCall.markFinalized block reply saved).EngineError src method)) ∧
    ∀ r w', SafeIteration src n r → w.syncNext src n r = .error w' → w'.node = some n := by
  refine ⟨PointerCall.intact_iff hn, fun block reply saved hheight => ?_, fun r w' hsafe h =>
    syncNext_error hn hsafe h⟩
  constructor
  · intro hsafe herr
    obtain ⟨method, ⟨⟩ | ⟨⟩ | hd⟩ := herr
    refine PointerCall.not_safe_of_height hd ?_ hsafe
    rw [hheight]
    exact Nat.succ_ne_self _
  · intro hnone herr
    exact absurd ⟨_, herr⟩ hnone

/-- The submission of the first block fails. -/
theorem cursor_intact_iff_first :
    (PointerCall.outcome (firstChain true) (fresh.set ⟨0, .zero, 0, .zero, .zero⟩)
      ⟨0, .zero, 0, .zero, .zero⟩ (.applyBlock firstBlock ⟨none, none⟩)).world.node =
      some ⟨0, .zero, 0, .zero, .zero⟩ := by
  refine ((cursor_intact_iff rfl).1 _).2 (fun herr => ?_) ⟨_, .submit rfl rfl⟩
  cases herr with
  | advance _ hreply _ => cases hreply

/-- The fork choice that finalizes the first block fails: the node takes the block for synced, and
the next sync asks for height 2. -/
theorem failed_finalize_skips : ∃ (w : FullNodeWorld) (n : FullNode) (call : PointerCall)
    (r : SyncReplies),
    Reachable (· = fresh) (enabled (exec (firstChain true))) w ∧ w.node = some n ∧
    call.EngineError (firstChain true) .forkchoiceUpdatedV3 ∧
    (call.outcome (firstChain true) w n).world.node =
      some { n with safe := .repeated 1, finalized := .repeated 1, syncedHeight := 1 } ∧
    n.syncedHeight = 0 ∧
    ∃ w' n', w.syncNext (firstChain true) n r = .error w' ∧ w'.node = some n' ∧
      n'.syncedHeight + 1 = 2 := by
  have hrun : Run (enabled (exec (firstChain true))) fresh [.boot (some .zero) (some 0)] _ :=
    run_of_execAll rfl
  exact ⟨_, _, .markFinalized firstBlock none true, ⟨true, some none, .allValid, none, true⟩,
    ⟨_, _, rfl, hrun⟩, rfl, .finalize rfl, rfl, rfl, _, _, rfl, rfl, rfl⟩

end FullNodeWorld

end Podseq.Node
