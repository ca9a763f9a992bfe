import Podseq.Lib.Runs
import Podseq.Node.EngineApi

/-! # The full node

The node applies blocks that peers announce to its head, and finalizes blocks that it reads
from the blobs settled on chain. Whatever the execution client replies is an input of the step
that asks for it; the world remembers the verdicts, and which blocks were read from settled
blobs. Between two steps the process may crash and its state file may be lost.
-/
namespace Podseq.Node
open Podseq.Lib

inductive StateFile
  | missing
  | unreadable
  | written (stored : StoredState)

/-- `StateStore::load().ok().flatten()`. -/
def StateFile.load : StateFile → Option StoredState
  | .written stored => some stored
  | _ => none

/-- `parse_forkchoice`: all three hashes, or nothing. -/
def parseForkchoice (stored : StoredState) : Option ForkchoiceState := do
  let head ← parseHash stored.head
  let safe ← parseHash stored.safe
  let finalized ← parseHash stored.finalized
  return ⟨head, safe, finalized⟩

/-- What the node takes from outside: the sequencer's key, the JSON reader, and the batch in
the blob settled for a height (commitments are never replaced). -/
structure NodeSources where
  verify : Bytes → FixedBytes 64 → Bool
  decode : Bytes → Option ExecutionPayload
  batchOf : Nat → Option (List Block)

structure FullNode where
  syncedHeight : Nat
  head : B256
  headHeight : Nat
  safe : B256
  finalized : B256
deriving DecidableEq

def FullNode.forkchoice (n : FullNode) : ForkchoiceState := ⟨n.head, n.safe, n.finalized⟩

def FullNode.advanced (n : FullNode) (hash : B256) (height : Nat) : FullNode :=
  { n with head := hash, headHeight := height }

def FullNode.settled (n : FullNode) (hash : B256) (height : Nat) : FullNode :=
  { n with safe := hash, finalized := hash, syncedHeight := height }

def FullNode.stored (n : FullNode) (timestamp : Nat) : StoredState where
  head := formatHash n.head
  safe := formatHash n.safe
  finalized := formatHash n.finalized
  height := n.syncedHeight
  timestamp := timestamp

theorem parseForkchoice_stored (n : FullNode) (timestamp : Nat) :
    parseForkchoice (n.stored timestamp) = some n.forkchoice := by
  simp [parseForkchoice, FullNode.stored, FullNode.forkchoice]

/-- The replies to the requests of `apply_block`. -/
structure ApplyReplies where
  newPayload : Reply PayloadStatus
  forkchoice : Reply PayloadStatus

/-- The replies to the requests of one iteration of `sync_from_settlement`. -/
structure SyncReplies where
  /-- The commitment and the blob were read. -/
  fetched : Bool
  blockByNumber : Reply (Option B256)
  apply : ApplyReplies
  finalize : Reply PayloadStatus
  /-- The state file was written. -/
  saved : Bool

structure FullNodeWorld where
  /-- The running process, once its set-up is over. -/
  node : Option FullNode
  disk : StateFile
  /-- The client's verdicts on submitted payloads. -/
  payloads : List (B256 × PayloadStatus)
  /-- The client's verdicts on fork choices. -/
  forkchoices : List (ForkchoiceState × PayloadStatus)
  /-- The blocks finalized after they were read from the blob settled for their height. -/
  verified : List (Nat × B256)
  /-- The heads of the execution client that a start without a state file adopted. -/
  adopted : List (Nat × B256)
  /-- The blocks submitted or finalized, each with the payload decoded from its data. -/
  applied : List (Block × ExecutionPayload)

namespace FullNodeWorld

def set (w : FullNodeWorld) (n : FullNode) : FullNodeWorld := { w with node := some n }

/-- The client answered the submission of `block`. -/
def answeredPayload (w : FullNodeWorld) (block : Block) (payload : ExecutionPayload)
    (status : PayloadStatus) : FullNodeWorld :=
  { w with
    payloads := (payload.blockHash, status) :: w.payloads
    applied := (block, payload) :: w.applied }

def finalizing (w : FullNodeWorld) (block : Block) (payload : ExecutionPayload) :
    FullNodeWorld :=
  { w with
    verified := (block.header.height, payload.blockHash) :: w.verified
    applied := (block, payload) :: w.applied }

def answeredForkchoice (w : FullNodeWorld) (state : ForkchoiceState) (status : PayloadStatus) :
    FullNodeWorld :=
  { w with forkchoices := (state, status) :: w.forkchoices }

/-- The world after a step of the node, and the node unless the step returned an error. -/
abbrev Outcome := Except FullNodeWorld (FullNodeWorld × FullNode)

def Outcome.world : Outcome → FullNodeWorld
  | .ok (w, _) => w
  | .error w => w

/-- `apply_block`: the head moves once the payload was submitted, whatever the verdict. -/
def applyBlock (src : NodeSources) (w : FullNodeWorld) (n : FullNode) (block : Block)
    (replies : ApplyReplies) : Outcome :=
  match src.decode block.data, replies.newPayload with
  | none, _ => .error w
  | some _, none => .error w
  | some payload, some status =>
    let n := n.advanced payload.blockHash block.header.height
    let w := (w.answeredPayload block payload status).set n
    match replies.forkchoice with
    | none => .error w
    | some status => .ok (w.answeredForkchoice n.forkchoice status, n)

/-- `mark_finalized`; a snapshot that could not be saved is only logged. -/
def markFinalized (src : NodeSources) (w : FullNodeWorld) (n : FullNode) (block : Block)
    (reply : Reply PayloadStatus) (saved : Bool) : Outcome :=
  match src.decode block.data with
  | none => .error w
  | some payload =>
    let n := n.settled payload.blockHash block.header.height
    let w := (w.finalizing block payload).set n
    match reply with
    | none => .error w
    | some status =>
      let w := w.answeredForkchoice n.forkchoice status
      .ok (if saved then { w with disk := .written (n.stored block.header.timestamp) } else w, n)

/-- `apply_and_finalize`: a block that the client has at that height is not submitted again. -/
def applyAndFinalize (src : NodeSources) (w : FullNodeWorld) (n : FullNode) (block : Block)
    (replies : SyncReplies) : Outcome :=
  match src.decode block.data with
  | none => .error w
  | some payload =>
    if block.header.height ≤ n.headHeight then
      match replies.blockByNumber with
      | none => .error w
      | some here =>
        if here = some payload.blockHash then
          markFinalized src w n block replies.finalize replies.saved
        else do
          let (w, n) ← applyBlock src w n block replies.apply
          markFinalized src w n block replies.finalize replies.saved
    else do
      let (w, n) ← applyBlock src w n block replies.apply
      markFinalized src w n block replies.finalize replies.saved

/-- One iteration of the loop of `sync_from_settlement`, for the height after the synced one;
an error ends the pass, and the next pass starts over from the synced height. -/
def syncNext (w : FullNodeWorld) (src : NodeSources) (n : FullNode) (replies : SyncReplies) :
    Outcome :=
  let height := n.syncedHeight + 1
  match src.batchOf height, replies.fetched with
  | some blocks, true =>
    match blocks.find? (fun block => block.header.height = height) with
    | none => .error w
    | some block =>
      if verifyBlockSignature src.verify block then applyAndFinalize src w n block replies
      else .error w
  | _, _ => .error w

/-- `poll_p2p` for an announced height and the block in the cache under its digest. -/
def pollP2p (w : FullNodeWorld) (src : NodeSources) (n : FullNode) (announced : Nat)
    (cached : Option Block) (replies : ApplyReplies) : Outcome :=
  if announced ≤ n.syncedHeight then .ok (w, n)
  else match cached with
    | none => .ok (w, n)
    | some block =>
      if verifyBlockSignature src.verify block then applyBlock src w n block replies
      else .error w

/-- `new` and the start of `run`: the pointers are those of the state file, or else the head
of the execution client, which is then taken for safe, finalized and synced. -/
def boot (w : FullNodeWorld) (head : Reply B256) (number : Reply Nat) : FullNodeWorld :=
  match w.disk.load.bind fun stored =>
    (parseForkchoice stored).map fun state => (stored.height, state) with
  | some (height, state) => w.set
      ⟨height, state.headBlockHash, height, state.safeBlockHash, state.finalizedBlockHash⟩
  | none =>
    match head, number with
    | some head, some number =>
      { w.set ⟨number, head, number, head, head⟩ with adopted := (number, head) :: w.adopted }
    | _, _ => w

inductive Action
  | boot (head : Reply B256) (number : Reply Nat)
  | crash
  | loseFile
  | tearFile
  | syncNext (replies : SyncReplies)
  | pollP2p (announced : Nat) (cached : Option Block) (replies : ApplyReplies)

def exec (src : NodeSources) (w : FullNodeWorld) : Action → Option FullNodeWorld
  | .boot head number => match w.node with
    | none => some (w.boot head number)
    | some _ => none
  | .crash => some { w with node := none }
  | .loseFile => some { w with disk := .missing }
  | .tearFile => some { w with disk := .unreadable }
  | .syncNext replies => w.node.map fun n => (w.syncNext src n replies).world
  | .pollP2p announced cached replies =>
    w.node.map fun n => (w.pollP2p src n announced cached replies).world

def fresh : FullNodeWorld := ⟨none, .missing, [], [], [], [], []⟩

/-! ## What applying and finalizing do -/

/-- Applying a block moves the head only. -/
theorem applyBlock_cases (src : NodeSources) (w : FullNodeWorld) (n : FullNode) (block : Block)
    (replies : ApplyReplies) :
    applyBlock src w n block replies = .error w ∨
    ∃ payload status, src.decode block.data = some payload ∧
      replies.newPayload = some status ∧
      let n' := n.advanced payload.blockHash block.header.height
      let w' := (w.answeredPayload block payload status).set n'
      (replies.forkchoice = none ∧ applyBlock src w n block replies = .error w') ∨
      ∃ status', replies.forkchoice = some status' ∧ applyBlock src w n block replies =
        .ok (w'.answeredForkchoice n'.forkchoice status', n') := by
  unfold applyBlock
  split
  · exact .inl rfl
  · exact .inl rfl
  · refine .inr ⟨_, _, ‹_›, ‹_›, ?_⟩
    dsimp only
    split
    · exact .inl ⟨‹_›, rfl⟩
    · exact .inr ⟨_, ‹_›, rfl⟩

/-- What a settled block does to the pointers, the record of blocks read and the disk. -/
theorem markFinalized_cases (src : NodeSources) (w : FullNodeWorld) (n : FullNode)
    (block : Block) (reply : Reply PayloadStatus) (saved : Bool) :
    markFinalized src w n block reply saved = .error w ∨
    ∃ payload, src.decode block.data = some payload ∧
      let n' := n.settled payload.blockHash block.header.height
      let w' := (w.finalizing block payload).set n'
      (reply = none ∧ markFinalized src w n block reply saved = .error w') ∨
      ∃ status, reply = some status ∧ markFinalized src w n block reply saved =
        .ok (if saved then { w'.answeredForkchoice n'.forkchoice status with
          disk := .written (n'.stored block.header.timestamp) }
          else w'.answeredForkchoice n'.forkchoice status, n') := by
  unfold markFinalized
  split
  · exact .inl rfl
  · refine .inr ⟨_, ‹_›, ?_⟩
    dsimp only
    split
    · exact .inl ⟨rfl, rfl⟩
    · exact .inr ⟨_, rfl, rfl⟩

/-- The two ways in which a settled block is finalized: as the block the client has at its
height, or after it was submitted. -/
theorem applyAndFinalize_cases (src : NodeSources) (w : FullNodeWorld) (n : FullNode)
    (block : Block) (r : SyncReplies) :
    applyAndFinalize src w n block r = .error w ∨
    (∃ payload, src.decode block.data = some payload ∧
      r.blockByNumber = some (some payload.blockHash) ∧
      applyAndFinalize src w n block r = markFinalized src w n block r.finalize r.saved) ∨
    applyAndFinalize src w n block r = (do
      let (w, n) ← applyBlock src w n block r.apply
      markFinalized src w n block r.finalize r.saved) := by
  unfold applyAndFinalize
  split
  · exact .inl rfl
  · rename_i payload hd
    split
    · split
      · exact .inl rfl
      · rename_i here hhere
        split
        · rename_i heq
          exact .inr (.inl ⟨payload, hd, heq ▸ hhere, rfl⟩)
        · exact .inr (.inr rfl)
    · exact .inr (.inr rfl)

/-- An iteration fails without a trace, or works on a signed block of the next height out of
the batch settled for it. -/
theorem syncNext_cases (src : NodeSources) (w : FullNodeWorld) (n : FullNode)
    (r : SyncReplies) :
    w.syncNext src n r = .error w ∨
    ∃ blocks block, src.batchOf (n.syncedHeight + 1) = some blocks ∧ block ∈ blocks ∧
      block.header.height = n.syncedHeight + 1 ∧ verifyBlockSignature src.verify block ∧
      w.syncNext src n r = applyAndFinalize src w n block r := by
  unfold syncNext
  dsimp only
  split
  · rename_i blocks hbatch _
    split
    · exact .inl rfl
    · rename_i block hfind
      split
      · exact .inr ⟨blocks, block, hbatch, List.mem_of_find?_eq_some hfind,
          by simpa using List.find?_some hfind, ‹_›, rfl⟩
      · exact .inl rfl
  · exact .inl rfl

/-- A poll changes nothing, or applies a signed block. -/
theorem pollP2p_cases (src : NodeSources) (w : FullNodeWorld) (n : FullNode) (announced : Nat)
    (cached : Option Block) (replies : ApplyReplies) :
    (w.pollP2p src n announced cached replies).world = w ∨
    ∃ block, cached = some block ∧ verifyBlockSignature src.verify block ∧
      w.pollP2p src n announced cached replies = applyBlock src w n block replies := by
  unfold pollP2p
  split
  · exact .inl rfl
  · split
    · exact .inl rfl
    · split
      · exact .inr ⟨_, rfl, ‹_›, rfl⟩
      · exact .inl rfl

/-- A start either resumes from the file or adopts the client's head. -/
theorem boot_cases (w : FullNodeWorld) (head : Reply B256) (number : Reply Nat) :
    w.boot head number = w ∨
    (∃ stored state, w.disk.load = some stored ∧ parseForkchoice stored = some state ∧
      w.boot head number = w.set ⟨stored.height, state.headBlockHash, stored.height,
        state.safeBlockHash, state.finalizedBlockHash⟩) ∨
    ∃ hash height, w.disk.load.bind parseForkchoice = none ∧ head = some hash ∧
      number = some height ∧ w.boot head number = { w.set ⟨height, hash, height, hash, hash⟩ with
        adopted := (height, hash) :: w.adopted } := by
  unfold boot
  split
  · rename_i height state hload
    simp only [Option.bind_eq_some_iff, Option.map_eq_some_iff, Prod.mk.injEq] at hload
    obtain ⟨stored, hl, state', hp, rfl, rfl⟩ := hload
    exact .inr (.inl ⟨stored, state', hl, hp, rfl⟩)
  · rename_i hload
    split
    · refine .inr (.inr ⟨_, _, ?_, rfl, rfl, rfl⟩)
      cases hl : w.disk.load with
      | none => rfl
      | some stored => simpa [hl] using hload
    · exact .inl rfl

end FullNodeWorld

/-! ## A chain of one block -/

def firstPayload : ExecutionPayload where
  parentHash := .zero
  stateRoot := .repeated 2
  blockNumber := 1
  timestamp := 5
  blockHash := .repeated 1
  transactions := []
  rest := []

def firstBlock : Block where
  header := ⟨1, .zero, .repeated 2, 5⟩
  data := [1]
  signature := some ⟨List.replicate 64 7, rfl⟩

/-- The sequencer signed this block only; `settled` tells whether it was settled. -/
def firstChain (settled : Bool) : NodeSources where
  verify message signature :=
    message = firstBlock.header.signingMessage && some signature = firstBlock.signature
  decode data := if data = firstBlock.data then some firstPayload else none
  batchOf height := if settled && height = 1 then some [firstBlock] else none

def ApplyReplies.allValid : ApplyReplies := ⟨some .valid, some .valid⟩

def SyncReplies.allValid (here : Option B256) : SyncReplies :=
  ⟨true, some here, .allValid, some .valid, true⟩

end Podseq.Node
