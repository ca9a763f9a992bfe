import Podseq.Move.Settlement
import Podseq.Node.BlockTimes
import Podseq.Node.EngineApi
import Podseq.Node.ObservedBlock
import Podseq.Node.PendingStore

/-! # The sequencer

One process runs three tasks that share the pointers, the disk and a queue of blocks: the
producer, the finalizer and the poller of the inbox. A step is one read or write of shared
state, one exchange with the execution client, the publisher or the chain, or a crash; a call
of the contract lands at some later time, or never. What the processes sent and wrote is kept
as history beside the state. Every store operation is atomic here.
-/
namespace Podseq.Node
open Podseq.Lib Podseq.Move

structure SequencerEnv where
  tree : BlockTree
  genesisHash : Option B256
  /-- The JSON writer and reader of payloads. -/
  encode : ExecutionPayload → Option Bytes
  decode : Bytes → Option ExecutionPayload
  sign : Header → Option (FixedBytes 64)
  /-- The blob id of a published batch. -/
  blobId : List Block → Bytes
  hash : HashFn
  daBatchSize : Nat
  /-- The timed flush is configured. -/
  daFlush : Bool

/-- A block on its way to the DA layer. -/
structure PendingBlock where
  block : Block
  blockHash : B256
  height : Nat
deriving DecidableEq

/-- The block files, the latest write of a height first; `none` is a file that does not decode,
after a torn write. -/
structure BlockStore where
  files : List (Nat × Option Block)

namespace BlockStore

def put (store : BlockStore) (block : Block) : BlockStore :=
  ⟨(block.header.height, some block) :: store.files⟩

/-- A write that was cut short. -/
def tear (store : BlockStore) (height : Nat) : BlockStore := ⟨(height, none) :: store.files⟩

def get (store : BlockStore) (height : Nat) : Option Block := (store.files.lookup height).join

def latestHeight (store : BlockStore) : Option Nat := (store.files.map Prod.fst).max?

variable {store : BlockStore} {block : Block} {height : Nat}

theorem get_put :
    (store.put block).get height = if height = block.header.height then some block
      else store.get height := by
  unfold get put
  rw [List.lookup_cons]
  by_cases h : height = block.header.height
  · simp [h]
  · simp [h, beq_false_of_ne h]

theorem get_tear {torn : Nat} :
    (store.tear torn).get height = if height = torn then none else store.get height := by
  unfold get tear
  rw [List.lookup_cons]
  by_cases h : height = torn
  · simp [h]
  · simp [h, beq_false_of_ne h]

end BlockStore

/-- What survives a crash. -/
structure SequencerDisk where
  blocks : BlockStore
  pending : PendingStore
  state : Option StoredState
  inbox : InboxStore

/-- One transaction that settles a block. -/
structure SettleCall where
  block : Block
  blobId : Bytes
  cursor : Nat
deriving DecidableEq

/-- Where a pass of `produce_block` stands. -/
inductive Producer
  | idle
  /-- `Engine::build`: the fork choice of the pointers read. -/
  | building (s : ChainState)
  | fetching (s : ChainState)
  /-- `Engine::accept`: the payload, then the fork choice that moves the head; `tried` once a
  fork choice was sent. -/
  | submitting (s : ChainState) (payload : ExecutionPayload)
  | accepting (s : ChainState) (payload : ExecutionPayload) (tried : Bool)
  | accepted (s : ChainState) (payload : ExecutionPayload)
  | converting (payload : ExecutionPayload)
  | storing (payload : ExecutionPayload) (p : PendingBlock)
  | observing (payload : ExecutionPayload) (p : PendingBlock) (rest : List (Nat × NonceRecord))
  | marking (p : PendingBlock)
  | reading (p : PendingBlock)
  | saving (p : PendingBlock) (stored : StoredState)
  | broadcasting (p : PendingBlock)
  | sending (p : PendingBlock)

/-- Where the finalizer stands; a `blob` is the one `flush_batch` is settling, and `none` means
that the rest of the batch is finalized locally. -/
inductive Finalizer
  | receiving
  | publishing
  | gating (blob : Bytes)
  | committing (blob : Bytes)
  | submitting (blob : Bytes) (tracked : Option Nat)
  | awaiting (blob : Bytes) (call : SettleCall)
  /-- `advance_finalized`, before and after it read the head. -/
  | advancing (blob : Option Bytes) (p : PendingBlock)
  | finalizing (blob : Option Bytes) (p : PendingBlock) (head : B256) (tried : Bool)
  | confirmed (blob : Option Bytes) (p : PendingBlock)
  | clearing (blob : Bytes) (p : PendingBlock)
  | reading (blob : Bytes) (p : PendingBlock)
  | saving (blob : Bytes) (stored : StoredState)
  | draining

structure SequencerProcess where
  state : ChainState
  /-- The heights `recover_pending` has yet to look at. -/
  recovering : List Nat
  producer : Producer
  /-- Queued and not yet received, oldest first. -/
  channel : List PendingBlock
  batch : List PendingBlock
  batchBytes : Nat
  finalizer : Finalizer
  shuttingDown : Bool
  /-- The shutdown ended a flush, after which the loop may receive one more block. -/
  interrupted : Bool
  /-- The head the process started from. -/
  base : B256
  /-- The blocks `produce_block` queued, latest first. -/
  sent : List PendingBlock
  /-- A pass has failed after the client accepted its block. -/
  failed : Bool
  /-- A block was queued after such a failure. -/
  resumed : Bool

structure SequencerWorld where
  process : Option SequencerProcess
  disk : SequencerDisk
  registry : Registry
  inbox : Inbox
  /-- Settle transactions that were sent and have not been executed. -/
  inFlight : List SettleCall
  /-- The transactions submitted to the inbox, in nonce order. -/
  submissions : List Bytes
  /-- The fork choices the client received, latest first. -/
  received : List ForkchoiceState
  /-- The blocks broadcast to peers, and those handed to the finalizer. -/
  broadcast : List Block
  queued : List Block
  published : List (List Block)
  /-- The settle calls, each with the registry it was sent to. -/
  issued : List (SettleCall × Registry)
  /-- The settle calls that executed, and the blocks that were settled by one. -/
  executed : List SettleCall
  settled : List Block
  /-- The block the node's own chain ends in, or ended in when the process died: its head, or
  the block it is having accepted. -/
  tip : Option B256

namespace SequencerProcess

def pass (p : SequencerProcess) (producer : Producer) : SequencerProcess := { p with producer }

/-- The pass returns an error after the client accepted its block. -/
def abandon (p : SequencerProcess) : SequencerProcess :=
  { p with producer := .idle, failed := true }

def finalize (p : SequencerProcess) (finalizer : Finalizer) : SequencerProcess :=
  { p with finalizer }

/-- `flush_batch` sees the shutdown before a settlement. -/
def interrupt (p : SequencerProcess) : SequencerProcess :=
  { p with finalizer := .draining, batchBytes := 0, interrupted := true }

end SequencerProcess

namespace SequencerWorld

def run (w : SequencerWorld) (p : SequencerProcess) : SequencerWorld := { w with process := some p }

def receive (w : SequencerWorld) (fc : ForkchoiceState) : SequencerWorld :=
  { w with received := fc :: w.received }

def write (w : SequencerWorld) (disk : SequencerDisk) : SequencerWorld := { w with disk }

def moveTip (w : SequencerWorld) (hash : B256) : SequencerWorld := { w with tip := some hash }

/-- `payload_into_block` and `sign_header`. -/
def signedBlock (env : SequencerEnv) (payload : ExecutionPayload) : Option Block := do
  let block ← payloadIntoBlock env.encode (.ofPayload payload)
  let signature ← env.sign block.header
  return { block with signature := some signature }

/-! ## The producer -/

inductive ProduceAction
  | start (now : Nat)
  | forkchoice (reply : Reply PayloadStatus)
  | getPayload (reply : Reply ExecutionPayload)
  | newPayload (reply : Reply PayloadStatus)
  /-- The next operation of the pass succeeds. -/
  | work
  /-- It fails; `torn` when it leaves half a file behind. -/
  | fail (torn : Bool)

/-- One step of `produce_block`. A fork choice that is answered SYNCING is sent again, until the
client settles or the pass gives up. -/
def produce (env : SequencerEnv) (w : SequencerWorld) (p : SequencerProcess) (a : ProduceAction) :
    Option (SequencerWorld × SequencerProcess) :=
  match p.producer, a with
  | .idle, .start now =>
    if p.recovering = [] ∧ p.shuttingDown = false then
      some (w, p.pass (.building { p.state with timestamp := nextTimestamp p.state.timestamp now }))
    else none
  -- a client that is syncing is asked again; any other answer gives the pass up
  | .building s, .forkchoice reply =>
    let w := w.receive ⟨s.head, s.safe, s.finalized⟩
    match reply with
    | some .valid => some (w, p.pass (.fetching s))
    | some .syncing => some (w, p.pass (.building s))
    | _ => some (w, p.pass .idle)
  | .fetching s, .getPayload (some payload) =>
    if env.tree.Built s.head payload then some (w, p.pass (.submitting s payload)) else none
  | .submitting s payload, .newPayload reply =>
    if reply = some .valid then
      some (w.moveTip payload.blockHash, p.pass (.accepting s payload false))
    else some (w, p.pass .idle)
  | .accepting s payload _, .forkchoice reply =>
    let w := w.receive ⟨payload.blockHash, s.safe, s.finalized⟩
    match reply with
    | some .valid => some (w, p.pass (.accepted s payload))
    | some .syncing => some (w, p.pass (.accepting s payload true))
    | _ => some (w.moveTip s.head, p.pass .idle)
  -- only now do the head and the timestamp move in memory
  | .accepted s payload, .work =>
    some (w, { p with
      state := { p.state with head := payload.blockHash, timestamp := s.timestamp }
      producer := .converting payload })
  | .converting payload, .work =>
    (signedBlock env payload).map fun block =>
      (w, p.pass (.storing payload ⟨block, payload.blockHash, payload.blockNumber⟩))
  | .storing payload b, .work =>
    some (w.write { w.disk with blocks := w.disk.blocks.put b.block },
      p.pass (.observing payload b w.disk.inbox.snapshot))
  | .observing payload b (entry :: rest), .work =>
    match InboxTracker.observeStep noFaults b.height (payload.transactions.map env.hash.digest)
        (w.disk.inbox, []) entry with
    | ((inbox, _), .ok ()) =>
      some (w.write { w.disk with inbox }, p.pass (.observing payload b rest))
    -- an error is logged and ends the loop
    | (_, .error _) => some (w, p.pass (.marking b))
  | .observing _ b [], .work => some (w, p.pass (.marking b))
  | .marking b, .work =>
    some (w.write { w.disk with pending := w.disk.pending.mark b.height }, p.pass (.reading b))
  | .reading b, .work =>
    some (w, p.pass (.saving b (p.state.stored (w.disk.blocks.latestHeight.getD b.height))))
  | .saving b stored, .work =>
    some (w.write { w.disk with state := some stored }, p.pass (.broadcasting b))
  | .broadcasting b, .work =>
    some ({ w with broadcast := b.block :: w.broadcast }, p.pass (.sending b))
  | .sending b, .work =>
    some ({ w with queued := b.block :: w.queued },
      { p with
        producer := .idle
        channel := p.channel ++ [b]
        sent := b :: p.sent
        resumed := p.resumed || p.failed })
  -- a failure before the client has accepted the block just ends the pass
  | .building _, .fail _ => some (w, p.pass .idle)
  | .fetching _, .fail _ => some (w, p.pass .idle)
  | .submitting _ _, .fail _ => some (w, p.pass .idle)
  | .accepting s _ _, .fail _ => some (w.moveTip s.head, p.pass .idle)
  | .converting _, .fail _ => some (w, p.abandon)
  | .storing _ b, .fail torn =>
    some (if torn then w.write { w.disk with blocks := w.disk.blocks.tear b.block.header.height }
      else w, p.abandon)
  -- markers that cannot be written are logged, and the pass goes on
  | .observing _ b _, .fail _ => some (w, p.pass (.marking b))
  | .marking _, .fail _ => some (w, p.abandon)
  | .saving _ _, .fail _ => some (w, p.abandon)
  | _, _ => none

/-! ## The finalizer -/

inductive FinalizeAction
  | receive
  | timer
  | publish (published : Bool)
  /-- The shutdown flag was seen. -/
  | interrupt
  | gate (readable : Bool)
  | readCursor (readable : Bool)
  | call
  | reply (confirmed : Bool)
  | readHead
  | forkchoice (reply : Reply PayloadStatus)
  | fail
  | record
  | clear (cleared : Bool)
  | snapshot
  | save (saved : Bool)

/-- `advance_finalized` failed: `flush_batch` puts the block back and returns, the local
finalization goes on to the next block. -/
def finalizeFailed (p : SequencerProcess) (blob : Option Bytes) (b : PendingBlock) :
    SequencerProcess :=
  match blob with
  | some _ => { p with finalizer := .receiving, batch := b :: p.batch }
  | none => p.finalize .draining

/-- The loop of `flush_batch` goes on to the next block, or ends. -/
def nextSettlement (p : SequencerProcess) (blob : Bytes) : SequencerProcess :=
  match p.batch with
  | [] => { p with finalizer := .receiving, batchBytes := 0 }
  | _ :: _ => p.finalize (.gating blob)

/-- The transaction that `commit_with_inbox` sends. -/
def settleCall (w : SequencerWorld) (b : PendingBlock) (blob : Bytes) (tracked : Option Nat) :
    SettleCall where
  block := b.block
  blobId := blob
  cursor := InboxTracker.commitCursor w.inbox.includedCount (tracked.getD w.inbox.includedCount)

/-- One step of `finalize_blocks`, `flush_batch` and what they call. -/
def finalize (env : SequencerEnv) (w : SequencerWorld) (p : SequencerProcess) (a : FinalizeAction) :
    Option (SequencerWorld × SequencerProcess) :=
  match p.finalizer, a with
  | .receiving, .receive =>
    match p.channel with
    | [] => none
    | b :: channel =>
      let batchBytes := saturatingAdd p.batchBytes b.block.data.length
      some (w, { p with
        channel
        batch := p.batch ++ [b]
        batchBytes
        finalizer := if env.daBatchSize ≤ batchBytes then .publishing else .receiving })
  | .receiving, .timer =>
    if env.daFlush ∧ p.batch ≠ [] then some (w, p.finalize .publishing) else none
  | .receiving, .interrupt =>
    if p.shuttingDown ∧ p.batch ≠ [] then some (w, p.finalize .draining) else none
  | .publishing, .publish published =>
    if published then
      let blocks := p.batch.map (·.block)
      some ({ w with published := blocks :: w.published },
        p.finalize (.gating (env.blobId blocks)))
    else some (w, p)
  | .publishing, .interrupt =>
    if p.shuttingDown then some (w, p.finalize .receiving) else none
  | .gating blob, .gate readable =>
    match p.batch with
    | [] => none
    | b :: _ =>
      -- an unreadable gate fails open
      if readable → InboxTracker.haltCheck b.block.header.height w.disk.inbox = .clear then
        some (w, p.finalize (.committing blob))
      else none
  | .gating _, .interrupt => if p.shuttingDown then some (w, p.interrupt) else none
  | .committing blob, .readCursor readable =>
    some (w, p.finalize (.submitting blob
      (if readable then some (InboxTracker.settleCursor w.disk.inbox) else none)))
  | .committing _, .interrupt => if p.shuttingDown then some (w, p.interrupt) else none
  | .submitting blob tracked, .call =>
    match p.batch with
    | [] => none
    | b :: _ =>
      let call := w.settleCall b blob tracked
      some ({ w with inFlight := call :: w.inFlight, issued := (call, w.registry) :: w.issued },
        p.finalize (.awaiting blob call))
  | .submitting blob _, .fail => some (w, p.finalize (.committing blob))
  | .awaiting blob call, .reply confirmed =>
    if confirmed then
      match p.batch with
      | [] => none
      | b :: batch =>
        if call ∈ w.executed then
          some (w, { p with batch, finalizer := .advancing (some blob) b })
        else none
    else some (w, p.finalize (.committing blob))
  | .draining, .receive =>
    match p.batch, p.channel with
    | b :: batch, _ => some (w, { p with batch, finalizer := .advancing none b })
    -- back in the loop, whose branch for the shutdown asks for a batch
    | [], b :: channel =>
      if p.interrupted then
        some (w, { p with
          channel
          batch := [b]
          batchBytes := saturatingAdd p.batchBytes b.block.data.length
          interrupted := false })
      else none
    | [], [] => none
  | .advancing blob b, .readHead => some (w, p.finalize (.finalizing blob b p.state.head false))
  | .finalizing blob b head _, .forkchoice reply =>
    let w := w.receive ⟨head, b.blockHash, b.blockHash⟩
    match reply with
    | some .valid => some (w, p.finalize (.confirmed blob b))
    | some .syncing => some (w, p.finalize (.finalizing blob b head true))
    | _ => some (w, finalizeFailed p blob b)
  | .finalizing blob b _ _, .fail => some (w, finalizeFailed p blob b)
  | .confirmed blob b, .record =>
    some (w, { p with
      state := { p.state with safe := b.blockHash, finalized := b.blockHash }
      finalizer := match blob with
        | some blob => .clearing blob b
        | none => .draining })
  | .clearing blob b, .clear cleared =>
    some (if cleared then
        w.write { w.disk with pending := w.disk.pending.clear b.height }
      else w, p.finalize (.reading blob b))
  | .reading blob b, .snapshot =>
    some (w, p.finalize (.saving blob
      (p.state.stored (w.disk.blocks.latestHeight.getD b.height))))
  | .saving blob stored, .save saved =>
    some (if saved then w.write { w.disk with state := some stored } else w,
      nextSettlement p blob)
  | _, _ => none

/-! ## The whole node -/

inductive Action
  /-- The start of `run`: `discovered` is the head the client reports. -/
  | boot (discovered : B256) (now : Nat) (pendingReadable : Bool)
  /-- One height of `recover_pending`; `cleared` when a marker without its block was dropped. -/
  | recover (cleared : Bool)
  | crash
  | shutdown
  | produce (a : ProduceAction)
  | finalize (a : FinalizeAction)
  /-- One nonce of the poller's `sync`. -/
  | track (nonce deadlineBlocks atHeight : Nat)
  /-- The client has a receipt for a pending nonce. -/
  | receipt (nonce height : Nat)
  | submit (now : Nat) (txBytes : Bytes)
  | stageWindowChange (newWindowMs delayMs now : Nat)
  | cancelWindowChange
  /-- A settle transaction executes, unless the chain does not admit it. -/
  | land (call : SettleCall) (admitted : Bool)

def bootState (env : SequencerEnv) (w : SequencerWorld) (discovered : B256) (now : Nat) :
    ChainState :=
  match w.disk.state with
  | some stored => .restore stored
  | none =>
    let head := env.genesisHash.getD discovered
    ⟨head, head, head, now⟩

def boot (env : SequencerEnv) (w : SequencerWorld) (discovered : B256) (now : Nat)
    (pendingReadable : Bool) : SequencerWorld :=
  let state := w.bootState env discovered now
  (w.moveTip state.head).run
    { state
      recovering := if pendingReadable then w.disk.pending.heights else []
      producer := .idle
      channel := []
      batch := []
      batchBytes := 0
      finalizer := .receiving
      shuttingDown := false
      interrupted := false
      base := state.head
      sent := []
      failed := false
      resumed := false }

/-- The block on disk is queued again, under the hash its payload carries; a marker whose block
is gone is dropped. -/
def recover (env : SequencerEnv) (w : SequencerWorld) (p : SequencerProcess) (cleared : Bool) :
    Option (SequencerWorld × SequencerProcess) :=
  match p.recovering with
  | [] => none
  | height :: recovering =>
    let p := { p with recovering }
    match (w.disk.blocks.get height).bind fun block =>
      (env.decode block.data).map fun payload => (block, payload.blockHash) with
    | some (block, blockHash) =>
      some ({ w with queued := block :: w.queued },
        { p with channel := p.channel ++ [⟨block, blockHash, height⟩] })
    | none =>
      some (if cleared then
          w.write { w.disk with pending := w.disk.pending.clear height }
        else w, p)

/-- The settle transaction runs `do_settle`; one that aborts has no effects. -/
def land (w : SequencerWorld) (call : SettleCall) (admitted : Bool) : SequencerWorld :=
  let w := { w with inFlight := w.inFlight.erase call }
  let header := call.block.header
  if admitted then
    match Settlement.doSettle w.registry w.inbox call.blobId header.height
        (settleBlockTs header.timestamp) call.cursor with
    | .ok (registry, inbox) =>
      { w with
        registry
        inbox
        executed := call :: w.executed
        settled := if header.height = w.registry.latestHeight then w.settled
          else call.block :: w.settled }
    | .error _ => w
  else w

def exec (env : SequencerEnv) (w : SequencerWorld) : Action → Option SequencerWorld
  | .boot discovered now pendingReadable =>
    match w.process with
    | none => some (w.boot env discovered now pendingReadable)
    | some _ => none
  | .recover cleared => do
    let p ← w.process
    let (w, p) ← w.recover env p cleared
    return w.run p
  | .crash => some { w with process := none }
  | .shutdown => do
    let p ← w.process
    match p.producer with
    | .idle => return w.run { p with shuttingDown := true }
    | _ => none
  | .produce a => do
    let p ← w.process
    let (w, p) ← w.produce env p a
    return w.run p
  | .finalize a => do
    let p ← w.process
    let (w, p) ← w.finalize env p a
    return w.run p
  | .track nonce deadlineBlocks atHeight => do
    let _ ← w.process
    let (inbox, _) ← (InboxTracker.trackEntry env.hash atHeight
      (saturatingAdd atHeight deadlineBlocks) w.disk.inbox nonce
      (w.inbox.pending nonce)).toOption
    return w.write { w.disk with inbox }
  | .receipt nonce height => do
    let _ ← w.process
    let inbox ← (InboxTracker.observeInclusion nonce height w.disk.inbox).toOption
    return w.write { w.disk with inbox }
  | .submit now txBytes => do
    let inbox ← (w.inbox.submit now txBytes).toOption
    return { w with inbox, submissions := w.submissions ++ [txBytes] }
  | .stageWindowChange newWindowMs delayMs now => do
    let inbox ← (w.inbox.stageWindowChange newWindowMs delayMs now).toOption
    return { w with inbox }
  | .cancelWindowChange => do
    let inbox ← w.inbox.cancelWindowChange.toOption
    return { w with inbox }
  | .land call admitted =>
    if call ∈ w.inFlight then some (w.land call admitted) else none

def fresh : SequencerWorld where
  process := none
  disk := ⟨⟨[]⟩, .empty, none, .fresh⟩
  registry := Settlement.initializeRegistry 0
  inbox := Inbox.initializeInbox 1
  inFlight := []
  submissions := []
  received := []
  broadcast := []
  queued := []
  published := []
  issued := []
  executed := []
  settled := []
  tip := none

end SequencerWorld

/-! ## A small deployment

Blocks 1, 2 and 3 on genesis, the first with a transaction, and another block 1 without it. -/

def smallPayload (hash parent : UInt8) (number : Nat) (transactions : List Bytes) :
    ExecutionPayload where
  parentHash := .repeated parent
  stateRoot := .repeated 0
  blockNumber := number
  timestamp := number
  blockHash := .repeated hash
  transactions := transactions
  rest := []

def payload1 : ExecutionPayload := smallPayload 1 0 1 [[7]]
def payload2 : ExecutionPayload := smallPayload 2 1 2 []
def payload3 : ExecutionPayload := smallPayload 3 2 3 []
def otherPayload1 : ExecutionPayload := smallPayload 11 0 1 []

def smallPayloads : List ExecutionPayload := [payload1, payload2, payload3, otherPayload1]

def smallTree : BlockTree := .ofPayloads smallPayloads (by decide)

/-- A payload is written as the first byte of its hash. -/
def smallEnv (blobId : List Block → Bytes) : SequencerEnv where
  tree := smallTree
  genesisHash := some (.repeated 0)
  encode payload := some (payload.blockHash.val.take 1)
  decode data := smallPayloads.find? fun payload => payload.blockHash.val.take 1 = data
  sign _ := some (FixedBytes.zero 64)
  blobId := blobId
  hash := paddingHash
  daBatchSize := 1
  daFlush := true

namespace SequencerWorld

def passToFile (payload : ExecutionPayload) : List Action :=
  [.produce (.start 0), .produce (.forkchoice (some .valid)),
    .produce (.getPayload (some payload)), .produce (.newPayload (some .valid)),
    .produce (.forkchoice (some .valid)), .produce .work, .produce .work, .produce .work]

def block1 : Block := (signedBlock (smallEnv fun _ => []) payload1).get rfl

def block2 : Block := (signedBlock (smallEnv fun _ => []) payload2).get rfl

def otherBlock1 : Block := (signedBlock (smallEnv fun _ => []) otherPayload1).get rfl

/-- The finalizer publishes what it received and sends the first settle call. -/
def publishAndCall : List Action :=
  [.finalize .receive, .finalize (.publish true), .finalize (.gate true),
    .finalize (.readCursor true), .finalize .call]

def wholePass (payload : ExecutionPayload) : List Action :=
  passToFile payload ++ List.replicate 6 (.produce .work)

end SequencerWorld

end Podseq.Node
