import Podseq.Node.Sequencer

/-! # What one step of the sequencer does

The producer and the finalizer are inverted once: each successful step is one of the cases
below, with the phase it starts in and everything it changes.
-/
namespace Podseq.Node
open Podseq.Lib Podseq.Move

/-- The pass has not had a block accepted yet. -/
inductive Producer.Early : Producer → Prop
  | building {s : ChainState} : Early (.building s)
  | fetching {s : ChainState} : Early (.fetching s)
  | submitting {s : ChainState} {payload : ExecutionPayload} : Early (.submitting s payload)

namespace SequencerWorld

variable {env : SequencerEnv} {w w' : SequencerWorld} {p p' : SequencerProcess}

/-! ## The producer -/

inductive ProduceStep (env : SequencerEnv) (w : SequencerWorld) (p : SequencerProcess) :
    ProduceAction → SequencerWorld → SequencerProcess → Prop
  | start {now : Nat} (hphase : p.producer = .idle) (hrecovered : p.recovering = [])
      (hup : p.shuttingDown = false) :
      ProduceStep env w p (.start now) w
        (p.pass (.building { p.state with timestamp := nextTimestamp p.state.timestamp now }))
  | buildAsked {reply : Reply PayloadStatus} {s : ChainState} {next : Producer}
      (hphase : p.producer = .building s)
      (hnext : next = .fetching s ∨ next = .building s ∨ next = .idle) :
      ProduceStep env w p (.forkchoice reply) (w.receive ⟨s.head, s.safe, s.finalized⟩)
        (p.pass next)
  | fetched {s : ChainState} {payload : ExecutionPayload} (hphase : p.producer = .fetching s)
      (hbuilt : env.tree.Built s.head payload) :
      ProduceStep env w p (.getPayload (some payload)) w (p.pass (.submitting s payload))
  | gaveUp {a : ProduceAction} (hphase : Producer.Early p.producer) :
      ProduceStep env w p a w (p.pass .idle)
  | submitted {s : ChainState} {payload : ExecutionPayload}
      (hphase : p.producer = .submitting s payload) :
      ProduceStep env w p (.newPayload (some .valid)) (w.moveTip payload.blockHash)
        (p.pass (.accepting s payload false))
  | acceptAsked {reply : Reply PayloadStatus} {s : ChainState} {payload : ExecutionPayload}
      {tried : Bool} {next : Producer} (hphase : p.producer = .accepting s payload tried)
      (hnext : next = .accepted s payload ∨ next = .accepting s payload true) :
      ProduceStep env w p (.forkchoice reply)
        (w.receive ⟨payload.blockHash, s.safe, s.finalized⟩) (p.pass next)
  | acceptRefused {reply : Reply PayloadStatus} {s : ChainState} {payload : ExecutionPayload}
      {tried : Bool} (hphase : p.producer = .accepting s payload tried)
      (hreply : reply ≠ some .valid ∧ reply ≠ some .syncing) :
      ProduceStep env w p (.forkchoice reply)
        ((w.receive ⟨payload.blockHash, s.safe, s.finalized⟩).moveTip s.head) (p.pass .idle)
  | acceptFailed {torn : Bool} {s : ChainState} {payload : ExecutionPayload} {tried : Bool}
      (hphase : p.producer = .accepting s payload tried) :
      ProduceStep env w p (.fail torn) (w.moveTip s.head) (p.pass .idle)
  | advanced {s : ChainState} {payload : ExecutionPayload}
      (hphase : p.producer = .accepted s payload) :
      ProduceStep env w p .work w { p with
        state := { p.state with head := payload.blockHash, timestamp := s.timestamp }
        producer := .converting payload }
  | converted {payload : ExecutionPayload} {block : Block}
      (hphase : p.producer = .converting payload) (hblock : signedBlock env payload = some block) :
      ProduceStep env w p .work w
        (p.pass (.storing payload ⟨block, payload.blockHash, payload.blockNumber⟩))
  | stored {payload : ExecutionPayload} {b : PendingBlock}
      (hphase : p.producer = .storing payload b) :
      ProduceStep env w p .work (w.write { w.disk with blocks := w.disk.blocks.put b.block })
        (p.pass (.observing payload b w.disk.inbox.snapshot))
  | observed {payload : ExecutionPayload} {b : PendingBlock} {entry : Nat × NonceRecord}
      {rest : List (Nat × NonceRecord)} {inbox : InboxStore} {marked : List Nat}
      (hphase : p.producer = .observing payload b (entry :: rest))
      (hobserve : InboxTracker.observeStep noFaults b.height
        (payload.transactions.map env.hash.digest) (w.disk.inbox, []) entry =
          ((inbox, marked), .ok ())) :
      ProduceStep env w p .work (w.write { w.disk with inbox })
        (p.pass (.observing payload b rest))
  | observedAll {a : ProduceAction} {payload : ExecutionPayload} {b : PendingBlock}
      {rest : List (Nat × NonceRecord)} (hphase : p.producer = .observing payload b rest) :
      ProduceStep env w p a w (p.pass (.marking b))
  | marked {b : PendingBlock} (hphase : p.producer = .marking b) :
      ProduceStep env w p .work
        (w.write { w.disk with pending := w.disk.pending.mark b.height }) (p.pass (.reading b))
  | snapshot {b : PendingBlock} (hphase : p.producer = .reading b) :
      ProduceStep env w p .work w
        (p.pass (.saving b (p.state.stored (w.disk.blocks.latestHeight.getD b.height))))
  | saved {b : PendingBlock} {stored : StoredState} (hphase : p.producer = .saving b stored) :
      ProduceStep env w p .work (w.write { w.disk with state := some stored })
        (p.pass (.broadcasting b))
  | broadcast {b : PendingBlock} (hphase : p.producer = .broadcasting b) :
      ProduceStep env w p .work { w with broadcast := b.block :: w.broadcast }
        (p.pass (.sending b))
  | sent {b : PendingBlock} (hphase : p.producer = .sending b) :
      ProduceStep env w p .work { w with queued := b.block :: w.queued } { p with
        producer := .idle
        channel := p.channel ++ [b]
        sent := b :: p.sent
        resumed := p.resumed || p.failed }
  | abandoned {torn : Bool} (hphase : (∃ payload, p.producer = .converting payload) ∨
        (∃ payload b, p.producer = .storing payload b) ∨ (∃ b, p.producer = .marking b) ∨
        ∃ b stored, p.producer = .saving b stored) :
      ProduceStep env w p (.fail torn) w p.abandon
  | torn {payload : ExecutionPayload} {b : PendingBlock}
      (hphase : p.producer = .storing payload b) :
      ProduceStep env w p (.fail true)
        (w.write { w.disk with blocks := w.disk.blocks.tear b.block.header.height }) p.abandon

section
variable {a : ProduceAction}

/-- The steps up to a payload. -/
theorem build_step (h : w.produce env p a = some (w', p'))
    (hphase : p.producer = .idle ∨ ∃ s, p.producer = .building s ∨ p.producer = .fetching s) :
    ProduceStep env w p a w' p' := by
  unfold produce at h
  obtain hphase | ⟨s, hphase | hphase⟩ := hphase <;> rw [hphase] at h <;> cases a <;>
    simp only [reduceCtorEq] at h
  case inl.start =>
    split at h
    · rename_i hready
      cases h
      exact .start hphase hready.1 hready.2
    · cases h
  case inr.inl.forkchoice =>
    split at h
    · cases h
      exact .buildAsked hphase (.inl rfl)
    · cases h
      exact .buildAsked hphase (.inr (.inl rfl))
    · cases h
      exact .buildAsked hphase (.inr (.inr rfl))
  case inr.inl.fail =>
    cases h
    exact .gaveUp (hphase ▸ .building)
  case inr.inr.getPayload reply =>
    cases reply with
    | none => cases h
    | some payload =>
      simp only [Option.ite_none_right_eq_some] at h
      obtain ⟨hbuilt, heq⟩ := h
      cases heq
      exact .fetched hphase hbuilt
  case inr.inr.fail =>
    cases h
    exact .gaveUp (hphase ▸ .fetching)

/-- The steps of `Engine::accept`, and the move of the head. -/
theorem accept_step (h : w.produce env p a = some (w', p'))
    (hphase : ∃ s payload, p.producer = .submitting s payload ∨
      (∃ tried, p.producer = .accepting s payload tried) ∨ p.producer = .accepted s payload) :
    ProduceStep env w p a w' p' := by
  unfold produce at h
  obtain ⟨s, payload, hphase | ⟨tried, hphase⟩ | hphase⟩ := hphase <;> rw [hphase] at h <;>
    cases a <;> simp only [reduceCtorEq] at h
  case inl.newPayload =>
    split at h
    · rename_i hreply
      cases h
      subst hreply
      exact .submitted hphase
    · cases h
      exact .gaveUp (hphase ▸ .submitting)
  case inl.fail =>
    cases h
    exact .gaveUp (hphase ▸ .submitting)
  case inr.inl.forkchoice =>
    split at h
    · cases h
      exact .acceptAsked hphase (.inl rfl)
    · cases h
      exact .acceptAsked hphase (.inr rfl)
    · rename_i hvalid hsyncing
      cases h
      exact .acceptRefused hphase ⟨hvalid, hsyncing⟩
  case inr.inl.fail =>
    cases h
    exact .acceptFailed hphase
  case inr.inr.work =>
    cases h
    exact .advanced hphase

/-- The steps from a payload to a block on disk. -/
theorem store_step (h : w.produce env p a = some (w', p'))
    (hphase : ∃ payload, p.producer = .converting payload ∨ ∃ b, p.producer = .storing payload b) :
    ProduceStep env w p a w' p' := by
  unfold produce at h
  obtain ⟨payload, hphase | ⟨b, hphase⟩⟩ := hphase <;> rw [hphase] at h <;> cases a <;>
    simp only [reduceCtorEq] at h
  case inl.work =>
    simp only [Option.map_eq_some_iff] at h
    obtain ⟨block, hblock, heq⟩ := h
    cases heq
    exact .converted hphase hblock
  case inl.fail =>
    cases h
    exact .abandoned (.inl ⟨_, hphase⟩)
  case inr.work =>
    cases h
    exact .stored hphase
  case inr.fail torn =>
    cases torn with
    | true =>
      cases h
      exact .torn hphase
    | false =>
      cases h
      exact .abandoned (.inr (.inl ⟨_, _, hphase⟩))

/-- The steps of `observe_transactions`. -/
theorem observe_step {payload : ExecutionPayload} {b : PendingBlock}
    {rest : List (Nat × NonceRecord)} (h : w.produce env p a = some (w', p'))
    (hphase : p.producer = .observing payload b rest) : ProduceStep env w p a w' p' := by
  unfold produce at h
  rw [hphase] at h
  cases rest <;> cases a <;> simp only [reduceCtorEq] at h
  case nil.work | nil.fail | cons.fail =>
    cases h
    exact .observedAll hphase
  case cons.work =>
    split at h
    · cases h
      exact .observed hphase ‹_›
    · cases h
      exact .observedAll hphase

/-- The steps from the marker to the channel. -/
theorem announce_step (h : w.produce env p a = some (w', p'))
    (hphase : ∃ b, p.producer = .marking b ∨ p.producer = .reading b ∨
      (∃ stored, p.producer = .saving b stored) ∨ p.producer = .broadcasting b ∨
      p.producer = .sending b) : ProduceStep env w p a w' p' := by
  unfold produce at h
  obtain ⟨b, hphase | hphase | ⟨stored, hphase⟩ | hphase | hphase⟩ := hphase <;>
    rw [hphase] at h <;> cases a <;> simp only [reduceCtorEq] at h <;> cases h
  · exact .marked hphase
  · exact .abandoned (.inr (.inr (.inl ⟨_, hphase⟩)))
  · exact .snapshot hphase
  · exact .saved hphase
  · exact .abandoned (.inr (.inr (.inr ⟨_, _, hphase⟩)))
  · exact .broadcast hphase
  · exact .sent hphase

theorem produce_step (h : w.produce env p a = some (w', p')) : ProduceStep env w p a w' p' := by
  cases hphase : p.producer with
  | idle => exact build_step h (.inl hphase)
  | building s => exact build_step h (.inr ⟨s, .inl hphase⟩)
  | fetching s => exact build_step h (.inr ⟨s, .inr hphase⟩)
  | submitting s payload => exact accept_step h ⟨s, payload, .inl hphase⟩
  | accepting s payload tried => exact accept_step h ⟨s, payload, .inr (.inl ⟨tried, hphase⟩)⟩
  | accepted s payload => exact accept_step h ⟨s, payload, .inr (.inr hphase)⟩
  | converting payload => exact store_step h ⟨payload, .inl hphase⟩
  | storing payload b => exact store_step h ⟨payload, .inr ⟨b, hphase⟩⟩
  | observing payload b rest => exact observe_step h hphase
  | marking b => exact announce_step h ⟨b, .inl hphase⟩
  | reading b => exact announce_step h ⟨b, .inr (.inl hphase)⟩
  | saving b stored => exact announce_step h ⟨b, .inr (.inr (.inl ⟨stored, hphase⟩))⟩
  | broadcasting b => exact announce_step h ⟨b, .inr (.inr (.inr (.inl hphase)))⟩
  | sending b => exact announce_step h ⟨b, .inr (.inr (.inr (.inr hphase)))⟩

end

/-! ## The finalizer -/

inductive FinalizeStep (env : SequencerEnv) (w : SequencerWorld) (p : SequencerProcess) :
    FinalizeAction → SequencerWorld → SequencerProcess → Prop
  | received {b : PendingBlock} {channel : List PendingBlock} {batchBytes : Nat}
      {next : Finalizer} (hphase : p.finalizer = .receiving) (hchannel : p.channel = b :: channel)
      (hnext : next = .publishing ∨ next = .receiving) :
      FinalizeStep env w p .receive w
        { p with channel, batch := p.batch ++ [b], batchBytes, finalizer := next }
  | timed (hphase : p.finalizer = .receiving) :
      FinalizeStep env w p .timer w (p.finalize .publishing)
  | stopReceiving (hphase : p.finalizer = .receiving) (hdown : p.shuttingDown) :
      FinalizeStep env w p .interrupt w (p.finalize .draining)
  | published (hphase : p.finalizer = .publishing) :
      FinalizeStep env w p (.publish true)
        { w with published := p.batch.map (·.block) :: w.published }
        (p.finalize (.gating (env.blobId (p.batch.map (·.block)))))
  | publishFailed (hphase : p.finalizer = .publishing) : FinalizeStep env w p (.publish false) w p
  | stopPublishing (hphase : p.finalizer = .publishing) (hdown : p.shuttingDown) :
      FinalizeStep env w p .interrupt w (p.finalize .receiving)
  | gated {readable : Bool} {blob : Bytes} {b : PendingBlock} {batch : List PendingBlock}
      (hphase : p.finalizer = .gating blob) (hbatch : p.batch = b :: batch)
      (hclear : readable → InboxTracker.haltCheck b.block.header.height w.disk.inbox = .clear) :
      FinalizeStep env w p (.gate readable) w (p.finalize (.committing blob))
  | stopSettling {blob : Bytes}
      (hphase : p.finalizer = .gating blob ∨ p.finalizer = .committing blob)
      (hdown : p.shuttingDown) :
      FinalizeStep env w p .interrupt w p.interrupt
  | cursorRead {readable : Bool} {blob : Bytes} (hphase : p.finalizer = .committing blob) :
      FinalizeStep env w p (.readCursor readable) w (p.finalize (.submitting blob
        (if readable then some (InboxTracker.settleCursor w.disk.inbox) else none)))
  | called {blob : Bytes} {tracked : Option Nat} {b : PendingBlock} {batch : List PendingBlock}
      (hphase : p.finalizer = .submitting blob tracked) (hbatch : p.batch = b :: batch) :
      FinalizeStep env w p .call
        { w with
          inFlight := w.settleCall b blob tracked :: w.inFlight
          issued := (w.settleCall b blob tracked, w.registry) :: w.issued }
        (p.finalize (.awaiting blob (w.settleCall b blob tracked)))
  | retried {a : FinalizeAction} {blob : Bytes}
      (hphase : (∃ tracked, p.finalizer = .submitting blob tracked) ∨
        ∃ call, p.finalizer = .awaiting blob call) :
      FinalizeStep env w p a w (p.finalize (.committing blob))
  | confirmed {blob : Bytes} {call : SettleCall} {b : PendingBlock} {batch : List PendingBlock}
      (hphase : p.finalizer = .awaiting blob call) (hbatch : p.batch = b :: batch)
      (hcall : call ∈ w.executed) :
      FinalizeStep env w p (.reply true) w { p with batch, finalizer := .advancing (some blob) b }
  | drained {b : PendingBlock} {batch : List PendingBlock} (hphase : p.finalizer = .draining)
      (hbatch : p.batch = b :: batch) :
      FinalizeStep env w p .receive w { p with batch, finalizer := .advancing none b }
  | drainReceived {b : PendingBlock} {channel : List PendingBlock} {batchBytes : Nat}
      (hphase : p.finalizer = .draining) (hbatch : p.batch = [])
      (hchannel : p.channel = b :: channel) :
      FinalizeStep env w p .receive w
        { p with channel, batch := [b], batchBytes, finalizer := .draining, interrupted := false }
  | headRead {blob : Option Bytes} {b : PendingBlock} (hphase : p.finalizer = .advancing blob b) :
      FinalizeStep env w p .readHead w (p.finalize (.finalizing blob b p.state.head false))
  | asked {reply : Reply PayloadStatus} {blob : Option Bytes} {b : PendingBlock} {head : B256}
      {tried : Bool} {next : Finalizer} (hphase : p.finalizer = .finalizing blob b head tried)
      (hnext : next = .confirmed blob b ∨ next = .finalizing blob b head true) :
      FinalizeStep env w p (.forkchoice reply) (w.receive ⟨head, b.blockHash, b.blockHash⟩)
        (p.finalize next)
  | refused {reply : Reply PayloadStatus} {blob : Option Bytes} {b : PendingBlock} {head : B256}
      {tried : Bool} (hphase : p.finalizer = .finalizing blob b head tried)
      (hreply : reply ≠ some .valid ∧ reply ≠ some .syncing) :
      FinalizeStep env w p (.forkchoice reply) (w.receive ⟨head, b.blockHash, b.blockHash⟩)
        (finalizeFailed p blob b)
  | failed {blob : Option Bytes} {b : PendingBlock} {head : B256} {tried : Bool}
      (hphase : p.finalizer = .finalizing blob b head tried) :
      FinalizeStep env w p .fail w (finalizeFailed p blob b)
  | recorded {blob : Option Bytes} {b : PendingBlock} {next : Finalizer}
      (hphase : p.finalizer = .confirmed blob b)
      (hnext : (∃ blob', blob = some blob' ∧ next = .clearing blob' b) ∨ next = .draining) :
      FinalizeStep env w p .record w { p with
        state := { p.state with safe := b.blockHash, finalized := b.blockHash }
        finalizer := next }
  | cleared {blob : Bytes} {b : PendingBlock} (hphase : p.finalizer = .clearing blob b) :
      FinalizeStep env w p (.clear true)
        (w.write { w.disk with pending := w.disk.pending.clear b.height })
        (p.finalize (.reading blob b))
  | clearFailed {blob : Bytes} {b : PendingBlock} (hphase : p.finalizer = .clearing blob b) :
      FinalizeStep env w p (.clear false) w (p.finalize (.reading blob b))
  | snapshot {blob : Bytes} {b : PendingBlock} (hphase : p.finalizer = .reading blob b) :
      FinalizeStep env w p .snapshot w (p.finalize (.saving blob
        (p.state.stored (w.disk.blocks.latestHeight.getD b.height))))
  | saved {blob : Bytes} {stored : StoredState} (hphase : p.finalizer = .saving blob stored) :
      FinalizeStep env w p (.save true) (w.write { w.disk with state := some stored })
        (nextSettlement p blob)
  | saveFailed {blob : Bytes} {stored : StoredState} (hphase : p.finalizer = .saving blob stored) :
      FinalizeStep env w p (.save false) w (nextSettlement p blob)

section
variable {a : FinalizeAction}

/-- The steps that fill and publish a batch. -/
theorem batch_step (h : w.finalize env p a = some (w', p'))
    (hphase : p.finalizer = .receiving ∨ p.finalizer = .publishing) :
    FinalizeStep env w p a w' p' := by
  unfold finalize at h
  obtain hphase | hphase := hphase <;> rw [hphase] at h <;> cases a <;>
    simp only [reduceCtorEq] at h
  case inl.receive =>
    split at h
    · cases h
    · rename_i hchannel
      cases h
      refine .received hphase hchannel ?_
      split
      · exact .inl rfl
      · exact .inr rfl
  case inl.timer =>
    split at h
    · cases h
      exact .timed hphase
    · cases h
  case inl.interrupt =>
    split at h
    · rename_i hdown
      cases h
      exact .stopReceiving hphase hdown.1
    · cases h
  case inr.publish published =>
    cases published with
    | true =>
      cases h
      exact .published hphase
    | false =>
      cases h
      exact .publishFailed hphase
  case inr.interrupt =>
    split at h
    · cases h
      exact .stopPublishing hphase ‹_›
    · cases h

/-- The steps before a settle call is sent. -/
theorem gate_step (h : w.finalize env p a = some (w', p'))
    (hphase : ∃ blob, p.finalizer = .gating blob ∨ p.finalizer = .committing blob) :
    FinalizeStep env w p a w' p' := by
  unfold finalize at h
  obtain ⟨blob, hphase | hphase⟩ := hphase <;> rw [hphase] at h <;> cases a <;>
    simp only [reduceCtorEq] at h
  case inl.gate =>
    split at h
    · cases h
    · rename_i hbatch
      split at h
      · cases h
        exact .gated hphase hbatch ‹_›
      · cases h
  case inl.interrupt =>
    split at h
    · cases h
      exact .stopSettling (.inl hphase) ‹_›
    · cases h
  case inr.interrupt =>
    split at h
    · cases h
      exact .stopSettling (.inr hphase) ‹_›
    · cases h
  case inr.readCursor =>
    cases h
    exact .cursorRead hphase

/-- The steps of a settle call. -/
theorem call_step (h : w.finalize env p a = some (w', p'))
    (hphase : ∃ blob, (∃ tracked, p.finalizer = .submitting blob tracked) ∨
      ∃ call, p.finalizer = .awaiting blob call) : FinalizeStep env w p a w' p' := by
  unfold finalize at h
  obtain ⟨blob, ⟨tracked, hphase⟩ | ⟨call, hphase⟩⟩ := hphase <;> rw [hphase] at h <;> cases a <;>
    simp only [reduceCtorEq] at h
  case inl.call =>
    split at h
    · cases h
    · rename_i hbatch
      cases h
      exact .called hphase hbatch
  case inl.fail =>
    cases h
    exact .retried (.inl ⟨_, hphase⟩)
  case inr.reply confirmed =>
    cases confirmed with
    | true =>
      simp only [if_true] at h
      split at h
      · cases h
      · rename_i hbatch
        split at h
        · cases h
          exact .confirmed hphase hbatch ‹_›
        · cases h
    | false =>
      cases h
      exact .retried (.inr ⟨_, hphase⟩)

/-- The steps of `advance_finalized`. -/
theorem advance_step (h : w.finalize env p a = some (w', p'))
    (hphase : ∃ blob b, p.finalizer = .advancing blob b ∨
      (∃ head tried, p.finalizer = .finalizing blob b head tried) ∨
      p.finalizer = .confirmed blob b) : FinalizeStep env w p a w' p' := by
  unfold finalize at h
  obtain ⟨blob, b, hphase | ⟨head, tried, hphase⟩ | hphase⟩ := hphase <;> rw [hphase] at h <;>
    cases a <;> simp only [reduceCtorEq] at h
  case inl.readHead =>
    cases h
    exact .headRead hphase
  case inr.inl.forkchoice =>
    split at h
    · cases h
      exact .asked hphase (.inl rfl)
    · cases h
      exact .asked hphase (.inr rfl)
    · rename_i hvalid hsyncing
      cases h
      exact .refused hphase ⟨hvalid, hsyncing⟩
  case inr.inl.fail =>
    cases h
    exact .failed hphase
  case inr.inr.record =>
    cases h
    refine .recorded hphase ?_
    cases blob with
    | some blob => exact .inl ⟨blob, rfl, rfl⟩
    | none => exact .inr rfl

/-- The steps of `finalize_buffered_locally`, and what comes behind an interrupted flush. -/
theorem drain_step (h : w.finalize env p a = some (w', p'))
    (hphase : p.finalizer = .draining) : FinalizeStep env w p a w' p' := by
  unfold finalize at h
  rw [hphase] at h
  cases a <;> simp only [reduceCtorEq] at h
  split at h
  · rename_i hbatch
    cases h
    exact .drained hphase hbatch
  · rename_i hbatch hchannel
    split at h
    · cases h
      exact .drainReceived hphase hbatch hchannel
    · cases h
  · cases h

/-- The steps that end a settlement. -/
theorem persist_step (h : w.finalize env p a = some (w', p'))
    (hphase : ∃ blob, (∃ b, p.finalizer = .clearing blob b ∨ p.finalizer = .reading blob b) ∨
      ∃ stored, p.finalizer = .saving blob stored) : FinalizeStep env w p a w' p' := by
  unfold finalize at h
  obtain ⟨blob, ⟨b, hphase | hphase⟩ | ⟨stored, hphase⟩⟩ := hphase <;> rw [hphase] at h <;>
    cases a <;> simp only [reduceCtorEq] at h
  case inl.inl.clear cleared =>
    cases cleared with
    | true =>
      cases h
      exact .cleared hphase
    | false =>
      cases h
      exact .clearFailed hphase
  case inl.inr.snapshot =>
    cases h
    exact .snapshot hphase
  case inr.save saved =>
    cases saved with
    | true =>
      cases h
      exact .saved hphase
    | false =>
      cases h
      exact .saveFailed hphase

theorem finalize_step (h : w.finalize env p a = some (w', p')) : FinalizeStep env w p a w' p' := by
  cases hphase : p.finalizer with
  | receiving => exact batch_step h (.inl hphase)
  | publishing => exact batch_step h (.inr hphase)
  | gating blob => exact gate_step h ⟨blob, .inl hphase⟩
  | committing blob => exact gate_step h ⟨blob, .inr hphase⟩
  | submitting blob tracked => exact call_step h ⟨blob, .inl ⟨tracked, hphase⟩⟩
  | awaiting blob call => exact call_step h ⟨blob, .inr ⟨call, hphase⟩⟩
  | advancing blob b => exact advance_step h ⟨blob, b, .inl hphase⟩
  | finalizing blob b head tried =>
    exact advance_step h ⟨blob, b, .inr (.inl ⟨head, tried, hphase⟩)⟩
  | confirmed blob b => exact advance_step h ⟨blob, b, .inr (.inr hphase)⟩
  | clearing blob b => exact persist_step h ⟨blob, .inl ⟨b, .inl hphase⟩⟩
  | reading blob b => exact persist_step h ⟨blob, .inl ⟨b, .inr hphase⟩⟩
  | saving blob stored => exact persist_step h ⟨blob, .inr ⟨stored, hphase⟩⟩
  | draining => exact drain_step h hphase

end

/-! ## The other steps -/

/-- A recovery step queues the block of a pending height, or drops its marker. -/
theorem recover_cases {cleared : Bool} (h : w.recover env p cleared = some (w', p')) :
    ∃ height recovering, p.recovering = height :: recovering ∧
      ((∃ block payload, w.disk.blocks.get height = some block ∧
          env.decode block.data = some payload ∧
          w' = { w with queued := block :: w.queued } ∧
          p' = { p with
            recovering
            channel := p.channel ++ [⟨block, payload.blockHash, height⟩] }) ∨
        ((w' = w ∨ w' = w.write { w.disk with pending := w.disk.pending.clear height }) ∧
          p' = { p with recovering })) := by
  unfold recover at h
  split at h
  · cases h
  · rename_i height recovering hrecovering
    refine ⟨height, recovering, hrecovering, ?_⟩
    dsimp only at h
    split at h
    · rename_i block blockHash hblock
      simp only [Option.bind_eq_some_iff, Option.map_eq_some_iff, Prod.mk.injEq] at hblock
      obtain ⟨block, hget, payload, hdecode, rfl, rfl⟩ := hblock
      cases h
      exact .inl ⟨block, payload, hget, hdecode, rfl, rfl⟩
    · cases cleared with
      | true =>
        cases h
        exact .inr ⟨.inr rfl, rfl⟩
      | false =>
        cases h
        exact .inr ⟨.inl rfl, rfl⟩

/-- A settle transaction leaves flight without an effect, or it repeats the latest height, or it
settles the next one. -/
theorem land_cases (w : SequencerWorld) (call : SettleCall) (admitted : Bool) :
    w.land call admitted = { w with inFlight := w.inFlight.erase call } ∨
    (call.block.header.height = w.registry.latestHeight ∧
      w.registry.commitments call.block.header.height = some call.blobId ∧
      w.land call admitted = { w with
        inFlight := w.inFlight.erase call, executed := call :: w.executed }) ∨
    ∃ inbox, call.block.header.height = w.registry.latestHeight + 1 ∧
      w.inbox.enforceSettle (settleBlockTs call.block.header.timestamp) call.cursor = .ok inbox ∧
      w.land call admitted = { w with
        inFlight := w.inFlight.erase call
        registry := { w.registry with
          commitments := Function.update w.registry.commitments call.block.header.height
            (some call.blobId)
          latestHeight := call.block.header.height }
        inbox
        executed := call :: w.executed
        settled := call.block :: w.settled } := by
  unfold land
  dsimp only
  split
  · split
    · rename_i registry inbox hsettle
      obtain ⟨hheight, hblob, rfl, rfl⟩ | ⟨hheight, hs, rfl⟩ := Settlement.doSettle_cases hsettle
      · refine .inr (.inl ⟨hheight, hblob, ?_⟩)
        rw [if_pos hheight]
      · refine .inr (.inr ⟨inbox, hheight, hs, ?_⟩)
        rw [if_neg (by omega)]
    · exact .inl rfl
  · exact .inl rfl

/-- The steps of the whole node. -/
inductive Step (env : SequencerEnv) (w : SequencerWorld) : Action → SequencerWorld → Prop
  | boot {discovered : B256} {now : Nat} {pendingReadable : Bool} (hdown : w.process = none) :
      Step env w (.boot discovered now pendingReadable)
        (w.boot env discovered now pendingReadable)
  | recover {cleared : Bool} {p p' : SequencerProcess} {w' : SequencerWorld}
      (hp : w.process = some p) (h : w.recover env p cleared = some (w', p')) :
      Step env w (.recover cleared) (w'.run p')
  | crash : Step env w .crash { w with process := none }
  | shutdown {p : SequencerProcess} (hp : w.process = some p) (hidle : p.producer = .idle) :
      Step env w .shutdown (w.run { p with shuttingDown := true })
  | produce {a : ProduceAction} {p p' : SequencerProcess} {w' : SequencerWorld}
      (hp : w.process = some p) (h : ProduceStep env w p a w' p') :
      Step env w (.produce a) (w'.run p')
  | finalize {a : FinalizeAction} {p p' : SequencerProcess} {w' : SequencerWorld}
      (hp : w.process = some p) (h : FinalizeStep env w p a w' p') :
      Step env w (.finalize a) (w'.run p')
  | tracked {nonce deadlineBlocks atHeight : Nat} {inbox : InboxStore}
      {submission : Option TrackedSubmission} (hup : w.process.isSome)
      (h : InboxTracker.trackEntry env.hash atHeight
        (saturatingAdd atHeight deadlineBlocks) w.disk.inbox nonce
        (w.inbox.pending nonce) = .ok (inbox, submission)) :
      Step env w (.track nonce deadlineBlocks atHeight) (w.write { w.disk with inbox })
  | receipt {nonce height : Nat} {inbox : InboxStore} (hup : w.process.isSome)
      (h : InboxTracker.observeInclusion nonce height w.disk.inbox = .ok inbox) :
      Step env w (.receipt nonce height) (w.write { w.disk with inbox })
  | submitted {now : Nat} {txBytes : Bytes} {inbox : Inbox}
      (h : w.inbox.submit now txBytes = .ok inbox) :
      Step env w (.submit now txBytes)
        { w with inbox, submissions := w.submissions ++ [txBytes] }
  | windowed {a : Action} {inbox : Inbox} (h : Inbox.SameQueue w.inbox inbox) :
      Step env w a { w with inbox }
  | landed {call : SettleCall} {admitted : Bool} (hmem : call ∈ w.inFlight) :
      Step env w (.land call admitted) (w.land call admitted)

theorem exec_step {a : Action} (h : enabled (exec env) w a w') : Step env w a w' := by
  unfold enabled at h
  cases a with
  | boot discovered now pendingReadable =>
    simp only [exec] at h
    split at h
    · cases h
      exact .boot ‹_›
    · cases h
  | recover cleared =>
    simp only [exec, Option.bind_eq_bind, Option.bind_eq_some_iff, Option.pure_def,
      Option.some.injEq] at h
    obtain ⟨p, hp, ⟨w', p'⟩, hr, rfl⟩ := h
    exact .recover hp hr
  | crash =>
    cases h
    exact .crash
  | shutdown =>
    simp only [exec, Option.bind_eq_bind, Option.bind_eq_some_iff, Option.pure_def] at h
    obtain ⟨p, hp, h⟩ := h
    split at h
    · cases h
      exact .shutdown hp ‹_›
    · cases h
  | produce a =>
    simp only [exec, Option.bind_eq_bind, Option.bind_eq_some_iff, Option.pure_def,
      Option.some.injEq] at h
    obtain ⟨p, hp, ⟨w', p'⟩, hr, rfl⟩ := h
    exact .produce hp (produce_step hr)
  | finalize a =>
    simp only [exec, Option.bind_eq_bind, Option.bind_eq_some_iff, Option.pure_def,
      Option.some.injEq] at h
    obtain ⟨p, hp, ⟨w', p'⟩, hr, rfl⟩ := h
    exact .finalize hp (finalize_step hr)
  | track nonce deadlineBlocks atHeight =>
    simp only [exec, Option.bind_eq_bind, Option.bind_eq_some_iff, Option.pure_def,
      Option.some.injEq, toOption_eq_some] at h
    obtain ⟨p, hp, ⟨inbox, submission⟩, ht, rfl⟩ := h
    exact .tracked (by rw [hp]; rfl) ht
  | receipt nonce height =>
    simp only [exec, Option.bind_eq_bind, Option.bind_eq_some_iff, Option.pure_def,
      Option.some.injEq, toOption_eq_some] at h
    obtain ⟨p, hp, inbox, ho, rfl⟩ := h
    exact .receipt (by rw [hp]; rfl) ho
  | submit now txBytes =>
    simp only [exec, Option.bind_eq_bind, Option.bind_eq_some_iff, Option.pure_def,
      Option.some.injEq, toOption_eq_some] at h
    obtain ⟨inbox, hs, rfl⟩ := h
    exact .submitted hs
  | stageWindowChange newWindowMs delayMs now =>
    simp only [exec, Option.bind_eq_bind, Option.bind_eq_some_iff, Option.pure_def,
      Option.some.injEq, toOption_eq_some] at h
    obtain ⟨inbox, hs, rfl⟩ := h
    exact .windowed (Inbox.stageWindowChange_sameQueue hs)
  | cancelWindowChange =>
    simp only [exec, Option.bind_eq_bind, Option.bind_eq_some_iff, Option.pure_def,
      Option.some.injEq, toOption_eq_some] at h
    obtain ⟨inbox, hs, rfl⟩ := h
    exact .windowed (Inbox.cancelWindowChange_sameQueue hs)
  | land call admitted =>
    simp only [exec, Option.ite_none_right_eq_some, Option.some.injEq] at h
    obtain ⟨hmem, rfl⟩ := h
    exact .landed hmem

/-! ## The block under way -/

/-- `b` was made of `payload`. -/
structure MadeOf (env : SequencerEnv) (payload : ExecutionPayload) (b : PendingBlock) : Prop where
  block : signedBlock env payload = some b.block
  blockHash : b.blockHash = payload.blockHash
  height : b.height = payload.blockNumber

theorem signedBlock_height {payload : ExecutionPayload} {block : Block}
    (h : signedBlock env payload = some block) : block.header.height = payload.blockNumber := by
  simp only [signedBlock, payloadIntoBlock, Option.bind_eq_bind, Option.bind_eq_some_iff,
    Option.map_eq_some_iff, Option.pure_def, Option.some.injEq] at h
  obtain ⟨block, ⟨data, -, rfl⟩, signature, -, rfl⟩ := h
  rfl

/-- The phase of the producer fits a process whose head is `head`: the pointers read still have
that head, and the block under way is the head once it was accepted. -/
def Fits (env : SequencerEnv) (head : B256) : Producer → Prop
  | .idle => True
  | .building s => s.head = head
  | .fetching s => s.head = head
  | .submitting s payload => s.head = head ∧ env.tree.Built head payload
  | .accepting s payload _ => s.head = head ∧ env.tree.Built head payload
  | .accepted s payload => s.head = head ∧ env.tree.Built head payload
  | .converting payload => payload.blockHash = head ∧ env.tree.payloadOf head = some payload
  | .storing payload b => (payload.blockHash = head ∧ env.tree.payloadOf head = some payload) ∧
      MadeOf env payload b
  | .observing payload b _ =>
    (payload.blockHash = head ∧ env.tree.payloadOf head = some payload) ∧
      MadeOf env payload b
  | .marking b => MadeHead b
  | .reading b => MadeHead b
  | .saving b _ => MadeHead b
  | .broadcasting b => MadeHead b
  | .sending b => MadeHead b
where
  MadeHead (b : PendingBlock) : Prop := ∃ payload,
    (payload.blockHash = head ∧ env.tree.payloadOf head = some payload) ∧
      MadeOf env payload b

theorem Fits.produce {a : ProduceAction} (hf : Fits env p.state.head p.producer)
    (h : ProduceStep env w p a w' p') : Fits env p'.state.head p'.producer := by
  cases h with
  | start => exact rfl
  | buildAsked hphase hnext =>
    rw [hphase] at hf
    obtain rfl | rfl | rfl := hnext
    · exact hf
    · exact hf
    · trivial
  | fetched hphase hbuilt =>
    rw [hphase] at hf
    exact ⟨hf, Eq.subst (motive := fun head => env.tree.Built head _) hf hbuilt⟩
  | submitted hphase | stored hphase | observed hphase | marked hphase | snapshot hphase
  | saved hphase | broadcast hphase =>
    rw [hphase] at hf
    exact hf
  | acceptAsked hphase hnext =>
    rw [hphase] at hf
    obtain rfl | rfl := hnext
    · exact hf
    · exact hf
  | advanced hphase =>
    rw [hphase] at hf
    exact ⟨rfl, hf.2.1⟩
  | converted hphase hblock =>
    rw [hphase] at hf
    exact ⟨hf, hblock, rfl, rfl⟩
  | observedAll hphase =>
    rw [hphase] at hf
    exact ⟨_, hf⟩
  | gaveUp | acceptRefused | acceptFailed | sent | abandoned | torn => trivial

/-- The finalizer leaves the head and the producer alone. -/
theorem FinalizeStep.frame {a : FinalizeAction} (h : FinalizeStep env w p a w' p') :
    p'.state.head = p.state.head ∧ p'.producer = p.producer ∧ p'.base = p.base ∧
      p'.sent = p.sent ∧ p'.failed = p.failed ∧ p'.resumed = p.resumed ∧
      p'.recovering = p.recovering := by
  cases h with
  | @refused _ blob _ _ _ => cases blob <;> exact ⟨rfl, rfl, rfl, rfl, rfl, rfl, rfl⟩
  | @failed blob _ _ _ => cases blob <;> exact ⟨rfl, rfl, rfl, rfl, rfl, rfl, rfl⟩
  | saved | saveFailed =>
    unfold nextSettlement
    split <;> exact ⟨rfl, rfl, rfl, rfl, rfl, rfl, rfl⟩
  | _ => exact ⟨rfl, rfl, rfl, rfl, rfl, rfl, rfl⟩

theorem recover_frame {cleared : Bool} (h : w.recover env p cleared = some (w', p')) :
    p'.state = p.state ∧ p'.producer = p.producer ∧ p'.base = p.base ∧ p'.sent = p.sent ∧
      p'.failed = p.failed ∧ p'.resumed = p.resumed := by
  obtain ⟨height, recovering, -, ⟨block, payload, -, -, -, rfl⟩ | ⟨-, rfl⟩⟩ := recover_cases h
  · exact ⟨rfl, rfl, rfl, rfl, rfl, rfl⟩
  · exact ⟨rfl, rfl, rfl, rfl, rfl, rfl⟩

/-- The blocks that left the producer and the files of blocks are the same in `w'`. -/
structure SameBlocks (w w' : SequencerWorld) : Prop where
  broadcast : w'.broadcast = w.broadcast
  queued : w'.queued = w.queued
  files : w'.disk.blocks = w.disk.blocks

theorem FinalizeStep.sameBlocks {a : FinalizeAction} (h : FinalizeStep env w p a w' p') :
    SameBlocks w w' := by
  cases h <;> exact ⟨rfl, rfl, rfl⟩

/-- The producer leaves the finalizer and the chain alone. -/
theorem ProduceStep.frame {a : ProduceAction} (h : ProduceStep env w p a w' p') :
    p'.batch = p.batch ∧ p'.finalizer = p.finalizer ∧ w'.registry = w.registry ∧
      w'.inbox = w.inbox ∧ w'.inFlight = w.inFlight ∧ w'.issued = w.issued ∧
      w'.executed = w.executed ∧ w'.settled = w.settled ∧ w'.submissions = w.submissions := by
  cases h <;> exact ⟨rfl, rfl, rfl, rfl, rfl, rfl, rfl, rfl, rfl⟩

theorem recover_finalizer {cleared : Bool} (h : w.recover env p cleared = some (w', p')) :
    p'.batch = p.batch ∧ p'.finalizer = p.finalizer ∧ w'.registry = w.registry ∧
      w'.inbox = w.inbox ∧ w'.inFlight = w.inFlight ∧ w'.issued = w.issued ∧
      w'.executed = w.executed ∧ w'.settled = w.settled ∧ w'.submissions = w.submissions := by
  obtain ⟨height, recovering, -, ⟨block, payload, -, -, rfl, rfl⟩ | ⟨hw', rfl⟩⟩ := recover_cases h
  · exact ⟨rfl, rfl, rfl, rfl, rfl, rfl, rfl, rfl, rfl⟩
  · obtain rfl | rfl := hw' <;> exact ⟨rfl, rfl, rfl, rfl, rfl, rfl, rfl, rfl, rfl⟩

/-- What a landing transaction leaves alone. -/
theorem land_frame (w : SequencerWorld) (call : SettleCall) (admitted : Bool) :
    SameBlocks w (w.land call admitted) ∧ (w.land call admitted).process = w.process ∧
      (w.land call admitted).disk = w.disk ∧ (w.land call admitted).published = w.published ∧
      (w.land call admitted).tip = w.tip ∧
      (w.land call admitted).submissions = w.submissions ∧
      (w.land call admitted).received = w.received ∧
      (w.land call admitted).issued = w.issued := by
  obtain he | ⟨-, -, he⟩ | ⟨inbox, -, -, he⟩ := land_cases w call admitted
  all_goals
    rw [he]
    exact ⟨⟨rfl, rfl, rfl⟩, rfl, rfl, rfl, rfl, rfl, rfl, rfl⟩

/-- What every start of a process satisfies and every step of a process keeps holds of the
process in each reachable state. -/
theorem process_inv {I : SequencerProcess → Prop}
    (hboot : ∀ (w : SequencerWorld) discovered now readable p,
      (w.boot env discovered now readable).process = some p → I p)
    (hrecover : ∀ (w : SequencerWorld) p cleared w' p', I p →
      w.recover env p cleared = some (w', p') → I p')
    (hshutdown : ∀ p : SequencerProcess, I p → I { p with shuttingDown := true })
    (hproduce : ∀ w p a w' p', I p → ProduceStep env w p a w' p' → I p')
    (hfinalize : ∀ w p a w' p', I p → FinalizeStep env w p a w' p' → I p')
    (h : Reachable (· = fresh) (enabled (exec env)) w) :
    ∀ p, w.process = some p → I p := by
  refine h.inv (I := fun w => ∀ p, w.process = some p → I p) ?_ ?_
  · rintro _ rfl p hp
    cases hp
  · intro w a w' hw hs p' hp'
    cases exec_step hs with
    | boot => exact hboot w _ _ _ p' hp'
    | recover hp h =>
      cases hp'
      exact hrecover _ _ _ _ _ (hw _ hp) h
    | crash => cases hp'
    | shutdown hp =>
      cases hp'
      exact hshutdown _ (hw _ hp)
    | produce hp h =>
      cases hp'
      exact hproduce _ _ _ _ _ (hw _ hp) h
    | finalize hp h =>
      cases hp'
      exact hfinalize _ _ _ _ _ (hw _ hp) h
    | tracked | receipt | submitted | windowed => exact hw p' hp'
    | landed => exact hw p' ((land_frame w _ _).2.1 ▸ hp')

theorem reachable_fits (h : Reachable (· = fresh) (enabled (exec env)) w)
    (hp : w.process = some p) : Fits env p.state.head p.producer := by
  refine process_inv (I := fun p => Fits env p.state.head p.producer) ?_ ?_ ?_ ?_ ?_ h p hp
  · intro w discovered now readable p hp
    cases hp
    trivial
  · intro w p cleared w' p' hf hr
    obtain ⟨hstate, hproducer, -⟩ := recover_frame hr
    rwa [hstate, hproducer]
  · intro p hf
    exact hf
  · intro w p a w' p' hf hs
    exact hf.produce hs
  · intro w p a w' p' hf hs
    obtain ⟨hhead, hproducer, -⟩ := hs.frame
    rwa [hhead, hproducer]

/-- No pass runs before the recovery is over. -/
theorem reachable_recovered (h : Reachable (· = fresh) (enabled (exec env)) w)
    (hp : w.process = some p) : p.producer = .idle ∨ p.recovering = [] := by
  refine process_inv (I := fun p => p.producer = .idle ∨ p.recovering = []) ?_ ?_ ?_ ?_ ?_ h p hp
  · intro w discovered now readable p hp
    cases hp
    exact .inl rfl
  · intro w p cleared w' p' hI hr
    obtain ⟨height, recovering, hrecovering, -⟩ := recover_cases hr
    obtain ⟨-, hproducer, -⟩ := recover_frame hr
    rcases hI with hidle | hnil
    · exact .inl (hproducer.trans hidle)
    · rw [hnil] at hrecovering
      cases hrecovering
  · exact fun p hI => hI
  · intro w p a w' p' hI hs
    have hnil : p.producer ≠ .idle → p.recovering = [] := hI.resolve_left
    cases hs with
    | start _ hrecovered => exact .inr hrecovered
    | gaveUp hphase => exact .inl rfl
    | abandoned hphase => exact .inl rfl
    | buildAsked hphase | fetched hphase | submitted hphase | acceptAsked hphase
    | acceptRefused hphase | acceptFailed hphase | advanced hphase | converted hphase
    | stored hphase | observed hphase | observedAll hphase | marked hphase | snapshot hphase
    | saved hphase | broadcast hphase | sent hphase | torn hphase =>
      exact .inr (hnil (by rw [hphase]; exact Producer.noConfusion))
  · intro w p a w' p' hI hs
    obtain ⟨-, hproducer, -, -, -, -, hrecovering⟩ := hs.frame
    rwa [hproducer, hrecovering]

end SequencerWorld

end Podseq.Node
