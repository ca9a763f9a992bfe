import Podseq.Node.GenuineBlocks

/-! # No block is forgotten

A block leaves the node after its file and its marker are on disk, and the marker goes when the
height is settled. Whatever crashes in between, the next start finds the block again: only a file
that was cut short under a marker would be dropped with it. A mark and a clear are one step each
here; `JsonStores` is about changes of the markers' file that overlap, where a mark can get lost.
-/
namespace Podseq.Node
open Podseq.Lib Podseq.Move

namespace SequencerWorld

variable {env : SequencerEnv} {w w' : SequencerWorld} {p p' : SequencerProcess} {height : Nat}

/-- The block of the height is on disk, and its payload can be read. -/
def OnDisk (env : SequencerEnv) (w : SequencerWorld) (height : Nat) : Prop :=
  ∃ block payload, w.disk.blocks.get height = some block ∧ env.decode block.data = some payload

/-- The height is settled, or its marker is on disk. -/
def Remembered (w : SequencerWorld) (height : Nat) : Prop :=
  height ≤ w.registry.latestHeight ∨ height ∈ w.disk.pending.heights

/-- What the producer has done for the block under way. -/
def Prepared (env : SequencerEnv) (w : SequencerWorld) : Producer → Prop
  | .observing _ b _ => OnDisk env w b.height
  | .marking b => OnDisk env w b.height
  | .reading b => Remembered w b.height
  | .saving b _ => Remembered w b.height
  | .broadcasting b => Remembered w b.height
  | .sending b => Remembered w b.height
  | _ => True

/-- The block whose settlement was confirmed. -/
def Finalizer.confirming : Finalizer → Option PendingBlock
  | .advancing (some _) b => some b
  | .finalizing (some _) b _ _ => some b
  | .confirmed (some _) b => some b
  | .clearing _ b => some b
  | _ => none

/-- What holds of a running process. -/
structure Processes (env : SequencerEnv) (w : SequencerWorld) (p : SequencerProcess) : Prop where
  producer : Prepared env w p.producer
  recovering : ∀ height ∈ p.recovering, Remembered w height
  heights : ∀ b ∈ waiting p, b.block.header.height = b.height
  confirming : ∀ b, Finalizer.confirming p.finalizer = some b → b.height ≤ w.registry.latestHeight

/-- What holds in every state. -/
structure Keeps (env : SequencerEnv) (w : SequencerWorld) : Prop where
  files : ∀ height block, w.disk.blocks.get height = some block → block.header.height = height
  marked : ∀ height ∈ w.disk.pending.heights, OnDisk env w height
  broadcast : ∀ block ∈ w.broadcast, Remembered w block.header.height
  queued : ∀ block ∈ w.queued, Remembered w block.header.height
  process : ∀ p, w.process = some p → Processes env w p

/-- No write that is cut short replaces the file of a marked height. -/
def Whole (w : SequencerWorld) : LedgerAction → Prop
  | .node (.produce (.fail true)) =>
    match w.process.map SequencerProcess.producer with
    | some (.storing _ b) => b.block.header.height ∉ w.disk.pending.heights
    | _ => True
  | _ => True

/-! ## Steps that take nothing away -/

/-- The chain does not go back, and no marker goes but those of settled heights. -/
structure Retains (w w' : SequencerWorld) : Prop where
  latestHeight : w.registry.latestHeight ≤ w'.registry.latestHeight
  markers : ∀ height ∈ w.disk.pending.heights, Remembered w' height

theorem Retains.remembered (h : Retains w w') (ha : Remembered w height) :
    Remembered w' height := by
  rcases ha with hle | hmarked
  · exact .inl (hle.trans h.latestHeight)
  · exact h.markers height hmarked

/-- A step that leaves the markers alone. -/
theorem Retains.of_pending (hpending : w'.disk.pending = w.disk.pending)
    (hlatest : w.registry.latestHeight ≤ w'.registry.latestHeight) : Retains w w' := by
  refine ⟨hlatest, fun height hmarked => .inr ?_⟩
  rwa [hpending]

theorem OnDisk.congr (h : OnDisk env w height)
    (hfile : w'.disk.blocks.get height = w.disk.blocks.get height) : OnDisk env w' height := by
  obtain ⟨block, payload, hget, hrest⟩ := h
  exact ⟨block, payload, hfile.trans hget, hrest⟩

theorem Prepared.retain {producer : Producer} (hr : Retains w w') (h : Prepared env w producer)
    (hblocks : w'.disk.blocks = w.disk.blocks) : Prepared env w' producer := by
  cases producer with
  | observing | marking => exact OnDisk.congr h (by rw [hblocks])
  | reading | saving | broadcasting | sending => exact hr.remembered h
  | _ => trivial

theorem Processes.retain (hr : Retains w w') (h : Processes env w p)
    (hblocks : w'.disk.blocks = w.disk.blocks) : Processes env w' p :=
  ⟨h.producer.retain hr hblocks, fun height hnext => hr.remembered (h.recovering height hnext),
    h.heights, fun b hb => (h.confirming b hb).trans hr.latestHeight⟩

/-- A step that writes no file, marks nothing and lets no block out. -/
theorem Keeps.retain (hw : Keeps env w) (hr : Retains w w')
    (hblocks : w'.disk.blocks = w.disk.blocks)
    (hpending : ∀ height ∈ w'.disk.pending.heights, height ∈ w.disk.pending.heights)
    (hbroadcast : w'.broadcast = w.broadcast) (hqueued : w'.queued = w.queued)
    (hprocess : ∀ p, w'.process = some p → Processes env w' p) : Keeps env w' := by
  refine ⟨?_, fun height hmarked => ?_, fun block hblock => ?_, fun block hblock => ?_, hprocess⟩
  · rw [hblocks]
    exact hw.files
  · exact (hw.marked height (hpending height hmarked)).congr (by rw [hblocks])
  · exact hr.remembered (hw.broadcast block (hbroadcast ▸ hblock))
  · exact hr.remembered (hw.queued block (hqueued ▸ hblock))

/-- A step that leaves the process alone too. -/
theorem Keeps.frame (hw : Keeps env w) (hblocks : w'.disk.blocks = w.disk.blocks)
    (hpending : w'.disk.pending = w.disk.pending)
    (hlatest : w.registry.latestHeight ≤ w'.registry.latestHeight)
    (hbroadcast : w'.broadcast = w.broadcast) (hqueued : w'.queued = w.queued)
    (hprocess : w'.process = w.process) : Keeps env w' := by
  have hr : Retains w w' := .of_pending hpending hlatest
  refine hw.retain hr hblocks (fun height hmarked => hpending ▸ hmarked) hbroadcast hqueued
    fun p hp => ?_
  exact (hw.process p (hprocess ▸ hp)).retain hr hblocks

/-! ## The producer -/

theorem MadeOf.header_height {payload : ExecutionPayload} {b : PendingBlock}
    (h : MadeOf env payload b) : b.block.header.height = b.height :=
  (signedBlock_height h.block).trans h.height.symm

theorem Fits.MadeHead.header_height {head : B256} {b : PendingBlock}
    (h : Fits.MadeHead env head b) : b.block.header.height = b.height := by
  obtain ⟨payload, -, hmade⟩ := h
  exact hmade.header_height

/-- A file that was just written. -/
theorem onDisk_put {payload : ExecutionPayload} {head : B256} {b : PendingBlock}
    (hroundTrips : RoundTrips env) (hpayload : env.tree.payloadOf head = some payload)
    (hmade : MadeOf env payload b) (hfile : w'.disk.blocks = w.disk.blocks.put b.block) :
    OnDisk env w' b.height := by
  refine ⟨b.block, payload, ?_, ?_⟩
  · rw [hfile, BlockStore.get_put, if_pos hmade.header_height.symm]
  · exact hroundTrips head payload _ hpayload (signedBlock_data hmade.block)

/-- A pass that goes on, without a file or a marker. -/
theorem Keeps.pass {producer : Producer} (hw : Keeps env w) (hp : w.process = some p)
    (hblocks : w'.disk.blocks = w.disk.blocks) (hpending : w'.disk.pending = w.disk.pending)
    (hregistry : w'.registry = w.registry) (hbroadcast : w'.broadcast = w.broadcast)
    (hqueued : w'.queued = w.queued) (hproducer : p'.producer = producer)
    (hrecovering : p'.recovering = p.recovering) (hwaiting : waiting p' = waiting p)
    (hfinalizer : p'.finalizer = p.finalizer) (hprepared : Prepared env w producer) :
    Keeps env (w'.run p') := by
  have hr : Retains w (w'.run p') :=
    .of_pending hpending (by rw [← hregistry]; exact Nat.le_refl _)
  have hold := (hw.process p hp).retain hr hblocks
  refine hw.retain hr hblocks (fun height hmarked => ?_) hbroadcast hqueued fun q hq => ?_
  · rwa [show (w'.run p').disk.pending = w.disk.pending from hpending] at hmarked
  · cases hq
    refine ⟨hproducer ▸ hprepared.retain hr hblocks, ?_, ?_, ?_⟩
    · rw [hrecovering]
      exact hold.recovering
    · rw [hwaiting]
      exact hold.heights
    · rw [hfinalizer]
      exact hold.confirming

theorem Keeps.produce {a : ProduceAction} (hroundTrips : RoundTrips env) (hw : Keeps env w)
    (hp : w.process = some p) (hf : Fits env p.state.head p.producer)
    (hwhole : Whole w (.node (.produce a))) (h : ProduceStep env w p a w' p') :
    Keeps env (w'.run p') := by
  have hold := hw.process p hp
  have hprepared := hold.producer
  cases h with
  | start | fetched | submitted | converted | advanced | gaveUp | acceptRefused | acceptFailed
  | abandoned => exact hw.pass hp rfl rfl rfl rfl rfl rfl rfl rfl rfl trivial
  | buildAsked hphase hnext =>
    obtain rfl | rfl | rfl := hnext <;> exact hw.pass hp rfl rfl rfl rfl rfl rfl rfl rfl rfl trivial
  | acceptAsked hphase hnext =>
    obtain rfl | rfl := hnext <;> exact hw.pass hp rfl rfl rfl rfl rfl rfl rfl rfl rfl trivial
  | observedAll hphase | observed hphase | snapshot hphase | saved hphase =>
    rw [hphase] at hprepared
    exact hw.pass hp rfl rfl rfl rfl rfl rfl rfl rfl rfl hprepared
  -- what goes out from here on is prepared: on disk, and marked
  | @broadcast b hphase =>
    rw [hphase] at hprepared hf
    refine ⟨hw.files, hw.marked, fun block hblock => ?_, hw.queued, fun q hq => ?_⟩
    · rcases List.mem_cons.1 hblock with rfl | hblock
      · rw [Fits.MadeHead.header_height hf]
        exact hprepared
      · exact hw.broadcast block hblock
    · cases hq
      exact ⟨hprepared, hold.recovering, hold.heights, hold.confirming⟩
  | @sent b hphase =>
    rw [hphase] at hprepared hf
    have hheight := Fits.MadeHead.header_height hf
    refine ⟨hw.files, hw.marked, hw.broadcast, fun block hblock => ?_, fun q hq => ?_⟩
    · rcases List.mem_cons.1 hblock with rfl | hblock
      · rw [hheight]
        exact hprepared
      · exact hw.queued block hblock
    · cases hq
      refine ⟨trivial, hold.recovering, fun c hc => ?_, hold.confirming⟩
      rcases mem_waiting_queue hc rfl rfl rfl with rfl | hc
      · exact hheight
      · exact hold.heights c hc
  -- the file of this height is new, and no other height reads differently
  | @stored payload b hphase =>
    rw [hphase] at hf
    obtain ⟨⟨-, hpayload⟩, hmade⟩ := hf
    have hput : OnDisk env (w.write { w.disk with blocks := w.disk.blocks.put b.block })
        b.height := onDisk_put (w := w) hroundTrips hpayload hmade rfl
    refine ⟨fun height block hget => ?_, fun height hmarked => ?_, hw.broadcast, hw.queued,
      fun q hq => ?_⟩
    · have hgot : (w.disk.blocks.put b.block).get height = some block := hget
      rw [BlockStore.get_put] at hgot
      split at hgot
      · cases hgot
        exact Eq.symm ‹_›
      · exact hw.files height block hgot
    · by_cases heq : height = b.height
      · rw [heq]
        exact hput
      · refine (hw.marked height hmarked).congr ?_
        exact BlockStore.get_put.trans (if_neg fun h => heq (h.trans hmade.header_height))
    · cases hq
      exact ⟨hput, hold.recovering, hold.heights, hold.confirming⟩
  | @marked b hphase =>
    rw [hphase] at hprepared
    have hr : Retains w (w.write { w.disk with pending := w.disk.pending.mark b.height }) :=
      ⟨Nat.le_refl _, fun height hmarked => .inr (PendingStore.mem_mark.2 (.inr hmarked))⟩
    refine ⟨hw.files, fun height hmarked => ?_, fun block hblock => ?_, fun block hblock => ?_,
      fun q hq => ?_⟩
    · rcases PendingStore.mem_mark.1 hmarked with rfl | hmarked
      · exact hprepared
      · exact hw.marked height hmarked
    · exact hr.remembered (hw.broadcast block hblock)
    · exact hr.remembered (hw.queued block hblock)
    · cases hq
      exact ⟨.inr (PendingStore.mem_mark.2 (.inl rfl)),
        fun height hnext => hr.remembered (hold.recovering height hnext), hold.heights,
        hold.confirming⟩
  -- a torn file hides only a height that is not marked
  | @torn payload b hphase =>
    have hfree : b.block.header.height ∉ w.disk.pending.heights := by
      simpa only [Whole, hp, Option.map_some, hphase] using hwhole
    refine ⟨fun height block hget => ?_, fun height hmarked => ?_, hw.broadcast, hw.queued,
      fun q hq => ?_⟩
    · have hgot : (w.disk.blocks.tear b.block.header.height).get height = some block := hget
      rw [BlockStore.get_tear] at hgot
      split at hgot
      · cases hgot
      · exact hw.files height block hgot
    · have hne : height ≠ b.block.header.height := fun heq => hfree (heq ▸ hmarked)
      exact (hw.marked height hmarked).congr (BlockStore.get_tear.trans (if_neg hne))
    · cases hq
      exact ⟨trivial, hold.recovering, hold.heights, hold.confirming⟩

/-! ## The finalizer -/

/-- A block is confirmed when the call for it has executed. -/
theorem FinalizeStep.confirming {a : FinalizeAction} (h : FinalizeStep env w p a w' p')
    (hw : Available env w) (hp : w.process = some p) (hold : Processes env w p) :
    ∀ b, Finalizer.confirming p'.finalizer = some b → b.height ≤ w.registry.latestHeight := by
  have hconfirming := hold.confirming
  intro c hc
  cases h with
  | received hphase hchannel hnext =>
    obtain rfl | rfl := hnext <;> cases hc
  | timed | stopReceiving | published | stopPublishing | gated | stopSettling | cursorRead | called
  | retried | cleared | clearFailed | snapshot | drained | drainReceived => cases hc
  | publishFailed => exact hconfirming c hc
  | @confirmed blob call b batch hphase hbatch hcall =>
    cases hc
    obtain ⟨b', batch', hbatch', hblock⟩ := hw.awaiting p blob call hp hphase
    rw [hbatch] at hbatch'
    cases hbatch'
    have hwaits : c ∈ waiting p := by
      rw [waiting, hbatch]
      exact List.mem_append_left _ (List.mem_append_right _ List.mem_cons_self)
    rw [← hold.heights c hwaits, ← hblock]
    exact hw.executed call hcall
  | @headRead blob b hphase =>
    rw [hphase] at hconfirming
    cases blob with
    | none => cases hc
    | some blob => exact hconfirming c hc
  | @asked _ blob b _ _ _ hphase hnext =>
    rw [hphase] at hconfirming
    cases blob with
    | none => obtain rfl | rfl := hnext <;> cases hc
    | some blob => obtain rfl | rfl := hnext <;> exact hconfirming c hc
  | @refused _ blob | @failed blob => cases blob <;> cases hc
  | @recorded blob b _ hphase hnext =>
    rw [hphase] at hconfirming
    obtain ⟨blob', rfl, rfl⟩ | rfl := hnext
    · exact hconfirming c hc
    · cases hc
  | saved | saveFailed =>
    unfold nextSettlement at hc
    split at hc <;> cases hc

/-- Only the marker of a settled height is cleared. -/
theorem FinalizeStep.retains {a : FinalizeAction} (h : FinalizeStep env w p a w' p')
    (hold : Processes env w p) : Retains w w' ∧
      ∀ height ∈ w'.disk.pending.heights, height ∈ w.disk.pending.heights := by
  cases h with
  | @cleared blob b hphase =>
    have hconfirming := hold.confirming
    rw [hphase] at hconfirming
    refine ⟨⟨Nat.le_refl _, fun height hmarked => ?_⟩, fun height hmarked => ?_⟩
    · by_cases heq : height = b.height
      · exact .inl (heq ▸ hconfirming b rfl)
      · exact .inr (PendingStore.mem_clear.2 ⟨heq, hmarked⟩)
    · exact (PendingStore.mem_clear.1 hmarked).2
  | _ => exact ⟨.of_pending rfl (Nat.le_refl _), fun _ => id⟩

theorem Keeps.finalize {a : FinalizeAction} (hw : Keeps env w) (ha : Available env w)
    (hp : w.process = some p) (h : FinalizeStep env w p a w' p') : Keeps env (w'.run p') := by
  have hold := hw.process p hp
  obtain ⟨hr, hpending⟩ := h.retains hold
  have hsame := h.sameBlocks
  refine hw.retain ⟨hr.latestHeight, hr.markers⟩ hsame.files hpending hsame.broadcast hsame.queued
    fun q hq => ?_
  cases hq
  obtain ⟨-, hproducer, -, -, -, -, hrecovering⟩ := h.frame
  refine ⟨?_, fun height hnext => ?_, fun b hb => hold.heights b (h.waiting_subset hb),
    fun b hb => ?_⟩
  · rw [hproducer]
    exact hold.producer.retain ⟨hr.latestHeight, hr.markers⟩ hsame.files
  · exact hr.remembered (hold.recovering height (hrecovering ▸ hnext))
  · exact (h.confirming ha hp hold b hb).trans hr.latestHeight

/-! ## The recovery -/

/-- A marked height is queued again, and keeps its marker. -/
theorem recover_marked {cleared : Bool} {recovering : List Nat}
    (h : w.recover env p cleared = some (w', p')) (hnext : p.recovering = height :: recovering)
    (hdisk : OnDisk env w height) : ∃ block blockHash, w.disk.blocks.get height = some block ∧
      w' = { w with queued := block :: w.queued } ∧
      p' = { p with recovering, channel := p.channel ++ [⟨block, blockHash, height⟩] } := by
  obtain ⟨block, payload, hget, hdecode⟩ := hdisk
  simp only [recover, hnext, hget, hdecode, Option.bind_some, Option.map_some, Option.some.injEq,
    Prod.mk.injEq] at h
  obtain ⟨rfl, rfl⟩ := h
  exact ⟨block, payload.blockHash, hget, rfl, rfl⟩

/-- The block of a remembered height is queued again. -/
theorem Keeps.requeue {block : Block} {blockHash : B256} {recovering : List Nat}
    (hw : Keeps env w) (hp : w.process = some p) (hnext : p.recovering = height :: recovering)
    (hget : w.disk.blocks.get height = some block) :
    Keeps env (run { w with queued := block :: w.queued }
      { p with recovering, channel := p.channel ++ [⟨block, blockHash, height⟩] }) := by
  obtain ⟨hproducer, hold, hheights, hconfirming⟩ := hw.process p hp
  rw [hnext] at hold
  have hheight := hw.files height block hget
  refine ⟨hw.files, hw.marked, hw.broadcast, fun c hc => ?_, fun q hq => ?_⟩
  · rcases List.mem_cons.1 hc with rfl | hc
    · rw [hheight]
      exact hold _ List.mem_cons_self
    · exact hw.queued c hc
  · cases hq
    refine ⟨hproducer, fun h hh => hold h (List.mem_cons_of_mem _ hh), fun c hc => ?_, hconfirming⟩
    rcases mem_waiting_queue hc rfl rfl rfl with rfl | hc
    · exact hheight
    · exact hheights c hc

theorem Keeps.recover {cleared : Bool} (hw : Keeps env w) (hp : w.process = some p)
    (h : w.recover env p cleared = some (w', p')) : Keeps env (w'.run p') := by
  obtain ⟨height, recovering, hnext, hcases⟩ := recover_cases h
  by_cases hmarked : height ∈ w.disk.pending.heights
  · have hqueued := recover_marked h hnext (hw.marked height hmarked)
    obtain ⟨block, blockHash, hget, rfl, rfl⟩ := hqueued
    exact hw.requeue hp hnext hget
  obtain ⟨block, payload, hget, -, rfl, rfl⟩ | ⟨hw', rfl⟩ := hcases
  · exact hw.requeue hp hnext hget
  -- the marker went before, with the settlement of its height
  have hsub : ∀ h ∈ w'.disk.pending.heights, h ∈ w.disk.pending.heights := by
    intro h hh
    obtain rfl | rfl := hw'
    · exact hh
    · exact (PendingStore.mem_clear.1 hh).2
  have hr : Retains w (w'.run { p with recovering }) := by
    obtain rfl | rfl := hw'
    · exact .of_pending rfl (Nat.le_refl _)
    · refine ⟨Nat.le_refl _, fun h hh => .inr (PendingStore.mem_clear.2 ⟨?_, hh⟩)⟩
      rintro rfl
      exact hmarked hh
  have hsame : SameBlocks w w' := by
    obtain rfl | rfl := hw' <;> exact ⟨rfl, rfl, rfl⟩
  refine hw.retain hr hsame.files hsub hsame.broadcast hsame.queued fun q hq => ?_
  cases hq
  have hold := (hw.process p hp).retain hr hsame.files
  refine ⟨hold.producer, fun h hh => hold.recovering h ?_, hold.heights, hold.confirming⟩
  rw [hnext]
  exact List.mem_cons_of_mem _ hh

/-! ## The system -/

theorem Keeps.node {a : Action} (hroundTrips : RoundTrips env) (hw : Keeps env w)
    (ha : Available env w) (hm : MakesGenuine env w) (hwhole : Whole w (.node a))
    (hland : ∀ call admitted, a ≠ .land call admitted) (h : Step env w a w') : Keeps env w' := by
  cases h with
  | boot =>
    refine hw.retain (.of_pending rfl (Nat.le_refl _)) rfl (fun _ => id) rfl rfl fun q hq => ?_
    cases hq
    refine ⟨trivial, fun height hnext => .inr ?_, fun b hb => ?_, fun b hb => ?_⟩
    · dsimp only at hnext
      split at hnext
      · exact hnext
      · cases hnext
    · cases hb
    · cases hb
  | recover hp hr => exact hw.recover hp hr
  | crash =>
    exact hw.retain (.of_pending rfl (Nat.le_refl _)) rfl (fun _ => id) rfl rfl
      fun q hq => by cases hq
  | shutdown hp =>
    refine hw.retain (.of_pending rfl (Nat.le_refl _)) rfl (fun _ => id) rfl rfl fun q hq => ?_
    cases hq
    obtain ⟨hproducer, hrecovering, hheights, hconfirming⟩ := hw.process _ hp
    exact ⟨hproducer, hrecovering, hheights, hconfirming⟩
  | produce hp hr => exact hw.produce hroundTrips hp (hm.fits _ hp) hwhole hr
  | finalize hp hr => exact hw.finalize ha hp hr
  | tracked | receipt | submitted | windowed =>
    exact hw.frame rfl rfl (Nat.le_refl _) rfl rfl rfl
  | landed => exact absurd rfl (hland _ _)

theorem Keeps.ledger {a : LedgerAction} (hroundTrips : RoundTrips env) (hw : Keeps env w)
    (ha : Available env w) (hm : MakesGenuine env w) (hwhole : Whole w a)
    (h : LedgerStep env w a w') : Keeps env w' := by
  cases h with
  | node hland hstep => exact hw.node hroundTrips ha hm hwhole hland hstep
  | @settle commitStateRoots call now sender =>
    obtain he | ⟨registry, inbox, hsettles, he⟩ := w.settle_cases commitStateRoots call now sender
    · rw [he]
      exact hw.frame rfl rfl (Nat.le_refl _) rfl rfl rfl
    · rw [he]
      refine hw.frame rfl rfl ?_ rfl rfl rfl
      have hlatest := hsettles.latestHeight
      have hbook := hsettles.book
      dsimp only
      omega
  | govern => exact hw.frame rfl rfl (Nat.le_refl _) rfl rfl rfl

theorem Keeps.fresh : Keeps env fresh := by
  refine ⟨fun _ _ h => ?_, fun _ h => ?_, fun _ h => ?_, fun _ h => ?_, fun _ h => ?_⟩ <;> cases h

end SequencerWorld

end Podseq.Node
