import Podseq.Node.SequencerSteps

/-! # The flush timer of the finalizer

The loop of `finalize_blocks` keeps a batch, its size in bytes and a timer as three variables.
The sequencer runs here under a clock: the timer is armed and disarmed as the loop does it, and
its branch is taken only once the deadline has passed. When each block arrived, and which blocks
left the batch in which flush, is kept as history.
-/
namespace Podseq.Node
open Podseq.Lib Podseq.Move

/-- `FlushTimer`; `due` is its field `at`. -/
structure FlushTimer where
  flushAfter : Option Nat
  due : Option Nat
deriving DecidableEq, Repr

namespace FlushTimer

def new (flushAfter : Option Nat) : FlushTimer := ⟨flushAfter, none⟩

/-- Arming again inside the same batch is a no-op. -/
def arm (timer : FlushTimer) (now : Nat) : FlushTimer :=
  match timer.due with
  | none => { timer with due := timer.flushAfter.map (now + ·) }
  | some _ => timer

def disarm (timer : FlushTimer) : FlushTimer := { timer with due := none }

def deadline (timer : FlushTimer) : Option Nat := timer.due

end FlushTimer

abbrev Arrival := PendingBlock × Nat

def dataBytes (arrivals : List Arrival) : Nat := (arrivals.map (·.1.block.data.length)).sum

/-- The sequencer under the clock of its process. -/
structure TimedSequencer where
  world : SequencerWorld
  now : Nat
  timer : FlushTimer
  /-- What the finalizer has received since its process started. -/
  arrived : List Arrival
  /-- Of these, what left in flushes that are over, what left in the flush under way, and what
  has not left. -/
  gone : List Arrival
  flushed : List Arrival
  kept : List Arrival
  /-- The blocks whose finalization the client has confirmed. -/
  confirmed : List B256

namespace TimedSequencer

/-- `flush_batch` has returned if the loop is back at its head: an empty batch disarms the
timer. -/
def returned (t : TimedSequencer) (p : SequencerProcess) : TimedSequencer :=
  match p.finalizer with
  | .receiving =>
    { t with
      timer := if p.batch = [] then t.timer.disarm else t.timer
      gone := t.gone ++ t.flushed
      flushed := [] }
  | _ => t

/-- What a step of the finalizer from `p` to `p'` does to the timer and the history. -/
def note (t : TimedSequencer) (a : SequencerWorld.FinalizeAction) (p p' : SequencerProcess) :
    TimedSequencer :=
  match p.finalizer with
  | .receiving =>
    match a, p.channel with
    | .receive, b :: _ =>
      { t with
        timer := if p.batch = [] then t.timer.arm t.now else t.timer
        arrived := t.arrived ++ [(b, t.now)]
        kept := t.kept ++ [(b, t.now)] }
    | _, _ => t
  | .finalizing _ b _ _ =>
    match a with
    | .forkchoice (some .valid) => { t with confirmed := b.blockHash :: t.confirmed }
    | _ => t.returned p'
  -- the block is finalized and will not be put back
  | .confirmed _ _ => { t with flushed := t.flushed ++ t.kept.take 1, kept := t.kept.drop 1 }
  | .publishing => t.returned p'
  | .saving _ _ => t.returned p'
  | _ => t

/-- What a step to `w` does to the timer and the history; a new process starts with neither. -/
def after (t : TimedSequencer) (a : SequencerWorld.Action) (w : SequencerWorld) :
    TimedSequencer :=
  match a, t.world.process, w.process with
  | .boot _ _ _, _, _ =>
    { t with
      world := w, timer := .new t.timer.flushAfter, arrived := [], gone := [], flushed := []
      kept := [] }
  | .finalize f, some p, some p' => { t.note f p p' with world := w }
  | _, _, _ => { t with world := w }

/-- The timer branch of the loop is taken once the deadline has passed. -/
def Timely (t : TimedSequencer) : SequencerWorld.Action → Prop
  | .finalize .timer => ∃ due ∈ t.timer.deadline, due ≤ t.now
  | _ => True

instance (t : TimedSequencer) (a : SequencerWorld.Action) : Decidable (t.Timely a) := by
  unfold Timely
  split <;> infer_instance

inductive Action
  | wait (elapsed : Nat)
  | act (a : SequencerWorld.Action)

/-- A step of the sequencer whose configuration agrees with the timer's. -/
def exec (env : SequencerEnv) (t : TimedSequencer) : Action → Option TimedSequencer
  | .wait elapsed => some { t with now := t.now + elapsed }
  | .act a =>
    if t.Timely a then
      (t.world.exec { env with daFlush := t.timer.flushAfter.isSome } a).map (t.after a)
    else none

def fresh (flushAfter : Option Nat) : TimedSequencer :=
  ⟨.fresh, 0, .new flushAfter, [], [], [], [], []⟩

/-! ## What the loop should keep -/

def oldest (arrivals : List Arrival) : Option Nat := arrivals.head?.map Prod.snd

def deadlineOf (t : TimedSequencer) (batch : List Arrival) : Option Nat :=
  t.timer.flushAfter.bind fun after => (oldest batch).map (· + after)

/-- A block is settled by a call that was executed. -/
def Settled (t : TimedSequencer) (b : PendingBlock) : Prop :=
  ∃ call ∈ t.world.executed, call.block = b.block

/-- The bookkeeping of the loop: the blocks that arrived are those that left, which are settled
and finalized, and then the batch; the bytes are those of the batch; and the timer has the
deadline of the batch. -/
structure Bookkept (t : TimedSequencer) (p : SequencerProcess) : Prop where
  blocks : ∃ gone kept, t.arrived = gone ++ kept ∧ kept.map Prod.fst = p.batch ∧
    (∀ a ∈ gone, t.Settled a.1 ∧ a.1.blockHash ∈ t.confirmed) ∧
    t.timer.deadline = t.deadlineOf kept
  bytes : p.batchBytes = (p.batch.map (·.block.data.length)).sum

/-- At its head, until shutdown is requested. -/
def Balanced (t : TimedSequencer) : Prop :=
  ∀ p, t.world.process = some p → p.finalizer = .receiving → p.shuttingDown = false →
    t.Bookkept p

/-- `advance_finalized` fails for the block in hand. -/
def FailsAdvance : SequencerWorld.FinalizeAction → Prop
  | .fail => True
  | .forkchoice reply => reply ≠ some .valid ∧ reply ≠ some .syncing
  | _ => False

instance (a : SequencerWorld.FinalizeAction) : Decidable (FailsAdvance a) := by
  unfold FailsAdvance
  split <;> infer_instance

/-- What left in the flush under way has no part in the bytes, and arrived when the rest did or
has no part in a deadline; in particular, nothing left. -/
def Traceless (t : TimedSequencer) : Prop :=
  saturatingAdd (dataBytes t.flushed) (dataBytes t.kept) = dataBytes t.kept ∧
    (t.timer.flushAfter = none ∨ oldest (t.flushed ++ t.kept) = oldest t.kept)

instance (t : TimedSequencer) : Decidable t.Traceless := inferInstanceAs (Decidable (_ ∧ _))

/-- Until shutdown is requested, `advance_finalized` fails in a flush only where the blocks that
already left in it leave no trace. -/
def FailsEarly (t : TimedSequencer) : Action → Prop
  | .act (.finalize a) => ∀ p blob b head tried, t.world.process = some p →
      p.shuttingDown = false → p.finalizer = .finalizing (some blob) b head tried →
      FailsAdvance a → t.Traceless
  | _ => True

end TimedSequencer

end Podseq.Node
