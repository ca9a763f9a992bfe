import Podseq.Move.InboxHistory
import Podseq.Node.BlockTimes
import Podseq.Node.ObservedBlock

/-! # Force inclusion across the inbox, the markers and the L2

`submit` takes any bytes that are not empty, the poller offers them to the pool of the L2, and
only what the execution client executes gets into a block and is marked. The gate and the
contract look at the markers alone: the contract prunes through the cursor, and the cursor counts
markers.
-/
namespace Podseq.Node
open Podseq.Lib Podseq.Move

/-- The execution client: which transactions its pool admits and which it can execute, by the
state of its accounts. The pool admits what can be executed now. -/
structure ExecutionClient (σ : Type) where
  execute : σ → Bytes → Option σ
  admits : σ → Bytes → Bool
  admits_of_execute : ∀ s tx, (execute s tx).isSome → admits s tx

namespace ForcedInclusion

/-! ## The L2 -/

/-- The L2: the state of the accounts, the transactions executed, by their hash and with the
height of their block, and the pool. -/
structure L2 (σ : Type) where
  accounts : σ
  executed : List (Bytes × Nat)
  pool : List Bytes

variable {σ : Type}

/-- `eth_getTransactionReceipt`, as far as the height. -/
def L2.receipt (l2 : L2 σ) (txHash : Bytes) : Option Nat := l2.executed.lookup txHash

/-- `eth_sendRawTransaction`; a transaction that the pool already has is an error. -/
def L2.send (client : ExecutionClient σ) (l2 : L2 σ) (tx : Bytes) : Option (L2 σ) :=
  if l2.pool.contains tx then none
  else if client.admits l2.accounts tx then some { l2 with pool := tx :: l2.pool }
  else none

/-- Executes a transaction of the pool in the block at `height`. A transaction is executed once:
it spends its nonce. -/
def L2.executeTx (H : HashFn) (client : ExecutionClient σ) (height : Nat) (l2 : L2 σ)
    (tx : Bytes) : Option (L2 σ) :=
  if l2.pool.contains tx ∧ l2.receipt (H.digest tx) = none then
    (client.execute l2.accounts tx).map fun accounts =>
      { accounts, executed := (H.digest tx, height) :: l2.executed, pool := l2.pool.erase tx }
  else none

/-! ## The joint state -/

/-- The inbox and its clock, the markers and the block budget of the tracker, the L2, and what
the node keeps: how many blocks are settled, the timestamps of those that wait, in seconds, the
last timestamp and the clock of its host. -/
structure ForcedChain (σ : Type) where
  history : InboxHistory
  store : InboxStore
  deadlineBlocks : Nat
  l2 : L2 σ
  settled : Nat
  awaiting : List Nat
  timestamp : Nat
  unixNow : Nat

namespace ForcedChain

def inbox (s : ForcedChain σ) : Inbox := s.history.chain.inbox

def height (s : ForcedChain σ) : Nat := s.settled + s.awaiting.length

def nextTimestamp (s : ForcedChain σ) : Nat := Node.nextTimestamp s.timestamp s.unixNow

end ForcedChain

/-! ## The steps of the sequencer -/

/-- The poller on one pending submission: a mined one is marked, another is sent. An error ends
the pass. -/
def pollSubmission (client : ExecutionClient σ) (submission : TrackedSubmission)
    (s : L2 σ × InboxStore) : Option (L2 σ × InboxStore) :=
  match s.1.receipt submission.txHash with
  | some height =>
    (InboxTracker.observeInclusion submission.nonce height s.2).toOption.map (s.1, ·)
  | none => (s.1.send client submission.txBytes).map (·, s.2)

def pollSubmissions (client : ExecutionClient σ) :
    List TrackedSubmission → L2 σ × InboxStore → L2 σ × InboxStore
  | [], s => s
  | submission :: rest, s =>
    match pollSubmission client submission s with
    | some s => pollSubmissions client rest s
    | none => s

/-- One pass of the poller. The block budget follows the window when that can be read. -/
def poll (H : HashFn) (client : ExecutionClient σ) (blockTimeMs : Nat) (windowRead : Bool)
    (s : ForcedChain σ) : ForcedChain σ :=
  let deadlineBlocks :=
    if windowRead then InboxTracker.deadlineBlocksFor
      (s.inbox.effectiveWindowMs s.history.chain.now) blockTimeMs
    else s.deadlineBlocks
  match InboxTracker.sync H s.inbox deadlineBlocks s.height s.store with
  | .error _ => { s with deadlineBlocks }
  | .ok store =>
    match InboxTracker.pendingSubmissions store with
    | .error _ => { s with deadlineBlocks, store }
    | .ok submissions =>
      let (l2, store) := pollSubmissions client submissions (s.l2, store)
      { s with deadlineBlocks, l2, store }

/-- Builds a block of transactions of the pool and marks it; an error of the marks is logged. -/
def produce (H : HashFn) (client : ExecutionClient σ) (txs : List Bytes) (s : ForcedChain σ) :
    Option (ForcedChain σ) :=
  let height := s.height + 1
  (txs.foldlM (L2.executeTx H client height) s.l2).map fun l2 =>
    { s with
      l2
      store := (InboxTracker.observeTransactions H noFaults height txs s.store).1
      awaiting := s.awaiting ++ [s.nextTimestamp]
      timestamp := s.nextTimestamp }

/-- Settles the oldest block that waits, behind the gate, with the cursor of the markers. -/
def settle (s : ForcedChain σ) : Option (ForcedChain σ) :=
  match s.awaiting with
  | [] => none
  | timestamp :: awaiting =>
    if InboxTracker.haltCheck (s.settled + 1) s.store = .clear then
      (s.history.step (.enforceSettle (timestamp * 1000)
        (InboxTracker.commitCursor s.inbox.includedCount (InboxTracker.settleCursor s.store)))).map
        fun history => { s with history, settled := s.settled + 1, awaiting }
    else none

inductive Action
  -- the sequencer
  | poll (windowRead : Bool)
  | produce (txs : List Bytes)
  | settle
  -- everyone else: calls on the inbox, the clock of the host, and the pool
  | call (c : InboxChain.Call)
  | hostClock (unixNow : Nat)
  | send (tx : Bytes)
  | evict (tx : Bytes)

def Action.bySequencer : Action → Bool
  | .poll _ | .produce _ | .settle => true
  | .call _ | .hostClock _ | .send _ | .evict _ => false

def step (H : HashFn) (client : ExecutionClient σ) (blockTimeMs : Nat) (s : ForcedChain σ) :
    Action → Option (ForcedChain σ)
  | .poll windowRead => some (poll H client blockTimeMs windowRead s)
  | .produce txs => produce H client txs s
  | .settle => settle s
  -- the inbox is settled by the sequencer alone
  | .call (.enforceSettle _ _) => none
  | .call c => (s.history.step c).map fun history => { s with history }
  | .hostClock unixNow => some { s with unixNow }
  | .send tx => (s.l2.send client tx).map fun l2 => { s with l2 }
  | .evict tx => some { s with l2 := { s.l2 with pool := s.l2.pool.erase tx } }

structure Start (s : ForcedChain σ) : Prop where
  history : InboxHistory.Start s.history
  store : s.store = .fresh
  executed : s.l2.executed = []
  settled : s.settled = 0
  awaiting : s.awaiting = []

end ForcedInclusion

end Podseq.Node
