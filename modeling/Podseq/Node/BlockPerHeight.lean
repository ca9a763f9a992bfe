import Podseq.Node.SequencerSteps

/-! # One block per height

A block is marked pending before the state that has it for its head is saved, and a snapshot of
older pointers may be saved last. A process that restarts below a block that is out already, or
below one it queues again, builds another block of that height.
-/
namespace Podseq.Node
open Podseq.Lib

namespace SequencerWorld

variable {env : SequencerEnv} {w w' : SequencerWorld} {p p' : SequencerProcess}

/-- The block was broadcast or handed to the finalizer. -/
def Emitted (w : SequencerWorld) (block : Block) : Prop :=
  block ∈ w.broadcast ∨ block ∈ w.queued

/-- The block is out: broadcast, handed to the finalizer, or in a blob that some height was
settled with. -/
def Left (env : SequencerEnv) (w : SequencerWorld) (block : Block) : Prop :=
  block ∈ w.broadcast ∨ block ∈ w.queued ∨ ∃ batch ∈ w.published, block ∈ batch ∧
    ∃ height, w.registry.commitments height = some (env.blobId batch)

/-- A process starts from a head that is not below any block that is out, nor below any block it
is about to queue again. -/
def RestartsAbove (env : SequencerEnv) (w : SequencerWorld) : Action → Prop
  | .boot discovered now pendingReadable =>
    let start := env.tree.number (w.bootState env discovered now).head
    (∀ block ∈ w.broadcast ++ w.queued, block.header.height ≤ start) ∧
      (pendingReadable → ∀ height ∈ w.disk.pending.heights,
        (w.disk.blocks.get height).isSome → height ≤ start)
  | _ => True

instance (env : SequencerEnv) (w : SequencerWorld) (a : Action) :
    Decidable (RestartsAbove env w a) :=
  match a with
  | .boot .. => inferInstanceAs (Decidable (_ ∧ _))
  | .recover _ | .crash | .shutdown | .produce _ | .finalize _ | .track .. | .receipt ..
  | .submit .. | .stageWindowChange .. | .cancelWindowChange | .land .. =>
    inferInstanceAs (Decidable True)

def Finalizer.held : Finalizer → List PendingBlock
  | .advancing _ b => [b]
  | .finalizing _ b _ _ => [b]
  | .confirmed _ b => [b]
  | _ => []

/-- Everything handed to the finalizer that it may still publish. -/
def waiting (p : SequencerProcess) : List PendingBlock :=
  p.channel ++ p.batch ++ Finalizer.held p.finalizer

theorem FinalizeStep.waiting_subset {a : FinalizeAction} (h : FinalizeStep env w p a w' p') :
    waiting p' ⊆ waiting p := by
  intro b hb
  cases h with
  | received hphase hchannel hnext =>
    obtain rfl | rfl := hnext
    all_goals
      simp only [waiting, hchannel, Finalizer.held, List.mem_append, List.mem_cons,
        List.not_mem_nil, or_false] at hb ⊢
      tauto
  | published hphase | timed hphase | stopReceiving hphase | stopPublishing hphase
  | cursorRead hphase | gated hphase | called hphase | cleared hphase | clearFailed hphase
  | snapshot hphase | headRead hphase =>
    simpa only [waiting, SequencerProcess.finalize, hphase, Finalizer.held] using hb
  | publishFailed => exact hb
  | stopSettling hphase =>
    obtain hphase | hphase := hphase
    all_goals simpa only [waiting, SequencerProcess.interrupt, hphase, Finalizer.held] using hb
  | retried hphase =>
    obtain ⟨_, hphase⟩ | ⟨_, hphase⟩ := hphase
    all_goals simpa only [waiting, SequencerProcess.finalize, hphase, Finalizer.held] using hb
  | confirmed hphase hbatch | drained hphase hbatch =>
    simp only [waiting, hphase, hbatch, Finalizer.held, List.mem_append, List.mem_cons,
      List.not_mem_nil, or_false] at hb ⊢
    tauto
  | drainReceived hphase hbatch hchannel =>
    simp only [waiting, hphase, hbatch, hchannel, Finalizer.held, List.mem_append, List.mem_cons,
      List.not_mem_nil, or_false] at hb ⊢
    tauto
  | asked hphase hnext =>
    obtain rfl | rfl := hnext
    all_goals simpa only [waiting, SequencerProcess.finalize, hphase, Finalizer.held] using hb
  | @refused _ blob _ _ _ hphase | @failed blob _ _ _ hphase =>
    cases blob
    all_goals
      simp only [waiting, finalizeFailed, SequencerProcess.finalize, hphase, Finalizer.held,
        List.mem_append, List.mem_cons, List.not_mem_nil, or_false] at hb ⊢
      tauto
  | recorded hphase hnext =>
    obtain ⟨_, -, rfl⟩ | rfl := hnext
    all_goals
      simp only [waiting, hphase, Finalizer.held, List.mem_append, List.mem_cons,
        List.not_mem_nil, or_false] at hb ⊢
      tauto
  | saved hphase | saveFailed hphase =>
    unfold nextSettlement at hb
    split at hb
    all_goals simpa only [waiting, SequencerProcess.finalize, hphase, Finalizer.held] using hb

/-- Queueing a block adds that block only. -/
theorem mem_waiting_queue {b c : PendingBlock} (h : c ∈ waiting p')
    (hchannel : p'.channel = p.channel ++ [b]) (hbatch : p'.batch = p.batch)
    (hfinalizer : p'.finalizer = p.finalizer) : c = b ∨ c ∈ waiting p := by
  simp only [waiting, hchannel, hbatch, hfinalizer, List.mem_append, List.mem_singleton] at h ⊢
  tauto

/-! ## The invariant -/

/-- Nothing that is out is as high as `head`. -/
def Above (env : SequencerEnv) (w : SequencerWorld) (head : B256) : Prop :=
  ∀ block, Emitted w block → block.header.height < env.tree.number head

/-- A block under way is the only one of its height, and once its file is written that file is
the one of its height. -/
def Clear (env : SequencerEnv) (w : SequencerWorld) (head : B256) : Producer → Prop
  | .converting _ => Above env w head
  | .storing _ _ => Above env w head
  | .observing _ b _ => Above env w head ∧ w.disk.blocks.get b.height = some b.block
  | .marking b => Above env w head ∧ w.disk.blocks.get b.height = some b.block
  | .reading b => Above env w head ∧ w.disk.blocks.get b.height = some b.block
  | .saving b _ => Above env w head ∧ w.disk.blocks.get b.height = some b.block
  | .broadcasting b => Above env w head ∧ w.disk.blocks.get b.height = some b.block
  | .sending b => (∀ block, Emitted w block →
      block.header.height < env.tree.number head ∨ block = b.block) ∧
        w.disk.blocks.get b.height = some b.block
  | _ => True

/-- What a running process keeps. -/
structure Running (env : SequencerEnv) (w : SequencerWorld) (p : SequencerProcess) : Prop where
  below : ∀ block, Emitted w block → block.header.height ≤ env.tree.number p.state.head
  clear : Clear env w p.state.head p.producer
  waiting : ∀ b ∈ waiting p, b.block ∈ w.queued
  recovering : ∀ height ∈ p.recovering, (w.disk.blocks.get height).isSome →
    height ≤ env.tree.number p.state.head

/-- There is one block of each height out, and its file holds no other block. -/
structure Single (env : SequencerEnv) (w : SequencerWorld) : Prop where
  unique : ∀ block block', Emitted w block → Emitted w block' →
    block.header.height = block'.header.height → block = block'
  onDisk : ∀ block file, Emitted w block →
    w.disk.blocks.get block.header.height = some file → file = block
  keyed : ∀ height file, w.disk.blocks.get height = some file → file.header.height = height
  published : ∀ batch ∈ w.published, ∀ block ∈ batch, block ∈ w.queued
  running : ∀ p, w.process = some p → Running env w p

theorem SameBlocks.emitted {block : Block} (h : SameBlocks w w') :
    Emitted w' block ↔ Emitted w block := by
  simp only [Emitted, h.broadcast, h.queued]

theorem SameBlocks.clear {head : B256} {phase : Producer} (h : SameBlocks w w')
    (hc : Clear env w head phase) : Clear env w' head phase := by
  cases phase with
  | idle | building | fetching | submitting | accepting | accepted => trivial
  | _ => simpa only [Clear, Above, h.emitted, h.files] using hc

theorem Running.congr (hr : Running env w p) (h : SameBlocks w w')
    (hhead : p'.state.head = p.state.head) (hproducer : p'.producer = p.producer)
    (hwaiting : SequencerWorld.waiting p' ⊆ SequencerWorld.waiting p)
    (hrecovering : p'.recovering = p.recovering) : Running env w' p' := by
  refine ⟨?_, ?_, ?_, ?_⟩
  · simp only [h.emitted, hhead]
    exact hr.below
  · rw [hhead, hproducer]
    exact h.clear hr.clear
  · rw [h.queued]
    exact fun b hb => hr.waiting b (hwaiting hb)
  · rw [hrecovering, hhead, h.files]
    exact hr.recovering

/-- The invariant carries over when blocks and files stay as they are. -/
theorem Single.congr (hs : Single env w) (h : SameBlocks w w')
    (hpublished : ∀ batch ∈ w'.published, ∀ block ∈ batch, block ∈ w.queued)
    (hrunning : ∀ p, w'.process = some p → Running env w' p) : Single env w' := by
  refine ⟨?_, ?_, ?_, ?_, hrunning⟩
  · simp only [h.emitted]
    exact hs.unique
  · simp only [h.emitted, h.files]
    exact hs.onDisk
  · rw [h.files]
    exact hs.keyed
  · rw [h.queued]
    exact hpublished

/-- A step of the process that leaves the head and the blocks of the finalizer alone. -/
theorem Single.move {next : SequencerProcess} (hs : Single env w) (hp : w.process = some p)
    (h : SameBlocks w w') (hpublished : w'.published = w.published)
    (hhead : next.state.head = p.state.head)
    (hwaiting : SequencerWorld.waiting next = SequencerWorld.waiting p)
    (hrecovering : next.recovering = p.recovering)
    (hclear : Clear env w p.state.head next.producer) : Single env (w'.run next) := by
  have hr := hs.running p hp
  have h' : SameBlocks w (w'.run next) := ⟨h.broadcast, h.queued, h.files⟩
  refine hs.congr h' ?_ ?_
  · intro batch hbatch
    exact hs.published batch (hpublished ▸ hbatch)
  · intro q hq
    cases hq
    refine ⟨?_, ?_, ?_, ?_⟩
    · simp only [h'.emitted, hhead]
      exact hr.below
    · rw [hhead]
      exact h'.clear hclear
    · rw [hwaiting, h'.queued]
      exact hr.waiting
    · rw [hrecovering, hhead, h'.files]
      exact hr.recovering

/-- A step that only changes the phase of the producer. -/
theorem Single.pass {next : Producer} (hs : Single env w) (hp : w.process = some p)
    (h : SameBlocks w w') (hpublished : w'.published = w.published)
    (hclear : Clear env w p.state.head next) : Single env (w'.run (p.pass next)) :=
  hs.move hp h hpublished rfl rfl rfl hclear

/-! ## What the steps keep -/

/-- The head moves above everything that is out. -/
theorem Single.advance {s : ChainState} {payload : ExecutionPayload} (hs : Single env w)
    (hp : w.process = some p) (hbuilt : env.tree.Built p.state.head payload) :
    Single env (w.run { p with
      state := { p.state with head := payload.blockHash, timestamp := s.timestamp }
      producer := .converting payload }) := by
  have hr := hs.running p hp
  have hnumber := hbuilt.number
  refine hs.congr ⟨rfl, rfl, rfl⟩ hs.published ?_
  intro q hq
  cases hq
  refine ⟨fun block hb => ?_, fun block hb => ?_, hr.waiting, fun height hh hsome => ?_⟩
  · have := hr.below block hb
    dsimp only
    omega
  · have := hr.below block hb
    change block.header.height < env.tree.number payload.blockHash
    omega
  · have := hr.recovering height hh hsome
    dsimp only
    omega

/-- Writing a file above everything that is out. -/
theorem Single.write {blocks : BlockStore} {next : SequencerProcess} (hs : Single env w)
    (hp : w.process = some p) (habove : Above env w p.state.head)
    (hother : ∀ height, height ≠ env.tree.number p.state.head →
      blocks.get height = w.disk.blocks.get height)
    (hkeyed : ∀ file, blocks.get (env.tree.number p.state.head) = some file →
      file.header.height = env.tree.number p.state.head)
    (hhead : next.state.head = p.state.head)
    (hwaiting : SequencerWorld.waiting next = SequencerWorld.waiting p)
    (hrecovering : next.recovering = p.recovering)
    (hclear : Clear env (w.write { w.disk with blocks }) p.state.head next.producer) :
    Single env ((w.write { w.disk with blocks }).run next) := by
  have hr := hs.running p hp
  refine ⟨hs.unique, ?_, ?_, hs.published, ?_⟩
  · intro block file hb hfile
    have hlt := habove block hb
    refine hs.onDisk block file hb ?_
    rw [← hother _ (Nat.ne_of_lt hlt)]
    exact hfile
  · intro height file hfile
    by_cases hheight : height = env.tree.number p.state.head
    · rw [hheight]
      exact hkeyed file (hheight ▸ hfile)
    · exact hs.keyed height file (hother _ hheight ▸ hfile)
  · intro q hq
    cases hq
    refine ⟨?_, hhead ▸ hclear, ?_, ?_⟩
    · rw [hhead]
      exact hr.below
    · rw [hwaiting]
      exact hr.waiting
    · rw [hrecovering, hhead]
      intro height hh hsome
      by_cases hheight : height = env.tree.number p.state.head
      · exact hheight.le
      · refine hr.recovering height hh ?_
        rw [← hother _ hheight]
        exact hsome

/-- A block comes out that is on disk and has no rival. -/
theorem Single.emit {block : Block} (hs : Single env w)
    (hemitted : ∀ other, Emitted w' other ↔ Emitted w other ∨ other = block)
    (hfiles : w'.disk.blocks = w.disk.blocks)
    (hfile : w.disk.blocks.get block.header.height = some block)
    (hpublished : ∀ batch ∈ w'.published, ∀ other ∈ batch, other ∈ w'.queued)
    (hrunning : ∀ p, w'.process = some p → Running env w' p) : Single env w' := by
  have hrival : ∀ other, Emitted w other → other.header.height = block.header.height →
      other = block := by
    intro other ho hheight
    exact (hs.onDisk other block ho (hheight ▸ hfile)).symm
  refine ⟨?_, ?_, ?_, hpublished, hrunning⟩
  · intro b b' hb hb' hheight
    rw [hemitted] at hb hb'
    rcases hb with hb | rfl
    · rcases hb' with hb' | rfl
      · exact hs.unique b b' hb hb' hheight
      · exact hrival b hb hheight
    · rcases hb' with hb' | rfl
      · exact (hrival b' hb' hheight.symm).symm
      · rfl
  · intro b file hb hget
    rw [hemitted] at hb
    rw [hfiles] at hget
    rcases hb with hb | rfl
    · exact hs.onDisk b file hb hget
    · rw [hfile] at hget
      exact (Option.some.inj hget).symm
  · rw [hfiles]
    exact hs.keyed

theorem MadeOf.header {payload : ExecutionPayload} {b : PendingBlock}
    (h : MadeOf env payload b) : b.block.header.height = b.height :=
  (signedBlock_height h.block).trans h.height.symm

/-- The block of a pass behind the write of its file has the number of the head. -/
theorem Fits.MadeHead.number {head : B256} {b : PendingBlock} (h : Fits.MadeHead env head b) :
    b.block.header.height = env.tree.number head ∧ b.height = env.tree.number head := by
  obtain ⟨payload, ⟨-, hpayload⟩, hmade⟩ := h
  have hnumber := hmade.height.trans (env.tree.blockNumber_eq _ _ hpayload)
  exact ⟨hmade.header.trans hnumber, hnumber⟩

theorem Single.broadcasted {b : PendingBlock} (hs : Single env w) (hp : w.process = some p)
    (hphase : p.producer = .broadcasting b) (hf : Fits env p.state.head p.producer) :
    Single env ({ w with broadcast := b.block :: w.broadcast }.run (p.pass (.sending b))) := by
  have hr := hs.running p hp
  have hclear := hr.clear
  rw [hphase] at hf hclear
  obtain ⟨habove, hfile⟩ := hclear
  obtain ⟨hheader, hheight⟩ := Fits.MadeHead.number hf
  have hemitted : ∀ other, Emitted ({ w with broadcast := b.block :: w.broadcast }.run
      (p.pass (.sending b))) other ↔ Emitted w other ∨ other = b.block := by
    intro other
    simp only [Emitted, run, List.mem_cons]
    tauto
  refine hs.emit hemitted rfl ?_ hs.published ?_
  · rw [hheader, ← hheight]
    exact hfile
  · intro q hq
    cases hq
    refine ⟨fun other ho => ?_, ⟨fun other ho => ?_, hfile⟩, hr.waiting, hr.recovering⟩
    · rcases (hemitted other).1 ho with ho | rfl
      · exact hr.below other ho
      · exact hheader.le
    · rcases (hemitted other).1 ho with ho | rfl
      · exact .inl (habove other ho)
      · exact .inr rfl

theorem Single.sent {b : PendingBlock} (hs : Single env w) (hp : w.process = some p)
    (hphase : p.producer = .sending b) (hf : Fits env p.state.head p.producer) :
    Single env ({ w with queued := b.block :: w.queued }.run { p with
      producer := .idle
      channel := p.channel ++ [b]
      sent := b :: p.sent
      resumed := p.resumed || p.failed }) := by
  have hr := hs.running p hp
  have hclear := hr.clear
  rw [hphase] at hf hclear
  obtain ⟨-, hfile⟩ := hclear
  obtain ⟨hheader, hheight⟩ := Fits.MadeHead.number hf
  have hemitted : ∀ other, Emitted ({ w with queued := b.block :: w.queued }.run { p with
      producer := .idle
      channel := p.channel ++ [b]
      sent := b :: p.sent
      resumed := p.resumed || p.failed }) other ↔ Emitted w other ∨ other = b.block := by
    intro other
    simp only [Emitted, run, List.mem_cons]
    tauto
  refine hs.emit hemitted rfl ?_ ?_ ?_
  · rw [hheader, ← hheight]
    exact hfile
  · exact fun batch hbatch other ho => List.mem_cons_of_mem _ (hs.published batch hbatch other ho)
  · intro q hq
    cases hq
    refine ⟨fun other ho => ?_, trivial, fun c hc => ?_, hr.recovering⟩
    · rcases (hemitted other).1 ho with ho | rfl
      · exact hr.below other ho
      · exact hheader.le
    · rcases mem_waiting_queue (p := p) hc rfl rfl rfl with rfl | hc
      · exact List.mem_cons_self
      · exact List.mem_cons_of_mem _ (hr.waiting c hc)

theorem Single.recover {cleared : Bool} (hs : Single env w) (hp : w.process = some p)
    (h : w.recover env p cleared = some (w', p')) (hidle : p.producer = .idle ∨ p.recovering = []) :
    Single env (w'.run p') := by
  have hr := hs.running p hp
  obtain ⟨height, recovering, hrecovering, ⟨block, payload, hget, -, rfl, rfl⟩ | ⟨hw', rfl⟩⟩ :=
    recover_cases h
  · have hproducer : p.producer = .idle := by
      rcases hidle with hidle | hnil
      · exact hidle
      · rw [hnil] at hrecovering
        cases hrecovering
    -- the block on disk is the only one of its height, so sending it again adds no other
    have hkey := hs.keyed height block hget
    have hbelow : block.header.height ≤ env.tree.number p.state.head := by
      rw [hkey]
      refine hr.recovering height ?_ (by rw [hget]; rfl)
      rw [hrecovering]
      exact List.mem_cons_self
    have hemitted : ∀ other, Emitted ({ w with queued := block :: w.queued }.run { p with
        recovering
        channel := p.channel ++ [(⟨block, payload.blockHash, height⟩ : PendingBlock)] }) other ↔
          Emitted w other ∨ other = block := by
      intro other
      simp only [Emitted, run, List.mem_cons]
      tauto
    refine hs.emit hemitted rfl (by rw [hkey]; exact hget) ?_ ?_
    · exact fun batch hbatch o ho => List.mem_cons_of_mem _ (hs.published batch hbatch o ho)
    · intro q hq
      cases hq
      refine ⟨fun other ho => ?_, ?_, fun c hc => ?_, fun height' hh => ?_⟩
      · rcases (hemitted other).1 ho with ho | rfl
        · exact hr.below other ho
        · exact hbelow
      · change Clear env _ p.state.head p.producer
        rw [hproducer]
        trivial
      · rcases mem_waiting_queue (p := p) hc rfl rfl rfl with rfl | hc
        · exact List.mem_cons_self
        · exact List.mem_cons_of_mem _ (hr.waiting c hc)
      · refine hr.recovering height' ?_
        rw [hrecovering]
        exact List.mem_cons_of_mem _ hh
  · have hsame : SameBlocks w (w'.run { p with recovering }) := by
      obtain rfl | rfl := hw' <;> exact ⟨rfl, rfl, rfl⟩
    refine hs.congr hsame ?_ ?_
    · obtain rfl | rfl := hw' <;> exact hs.published
    · intro q hq
      cases hq
      have hcongr : Running env (w'.run { p with recovering }) p :=
        hr.congr hsame rfl rfl (List.Subset.refl _) rfl
      refine ⟨hcongr.below, hcongr.clear, hcongr.waiting, fun height' hh => ?_⟩
      refine hcongr.recovering height' ?_
      rw [hrecovering]
      exact List.mem_cons_of_mem _ hh

theorem Single.produce {a : ProduceAction} (hs : Single env w) (hp : w.process = some p)
    (hf : Fits env p.state.head p.producer) (h : ProduceStep env w p a w' p') :
    Single env (w'.run p') := by
  have hclear := (hs.running p hp).clear
  cases h with
  | start | fetched | gaveUp | submitted | acceptRefused | acceptFailed =>
    exact hs.pass hp ⟨rfl, rfl, rfl⟩ rfl trivial
  | buildAsked hphase hnext =>
    obtain rfl | rfl | rfl := hnext
    all_goals exact hs.pass hp ⟨rfl, rfl, rfl⟩ rfl trivial
  | acceptAsked hphase hnext =>
    obtain rfl | rfl := hnext
    all_goals exact hs.pass hp ⟨rfl, rfl, rfl⟩ rfl trivial
  | advanced hphase =>
    rw [hphase] at hf
    exact hs.advance hp hf.2
  | converted hphase | observed hphase | observedAll hphase | marked hphase | snapshot hphase
  | saved hphase =>
    rw [hphase] at hclear
    exact hs.pass hp ⟨rfl, rfl, rfl⟩ rfl hclear
  | @stored payload b hphase =>
    rw [hphase] at hf hclear
    obtain ⟨hheader, hheight⟩ := Fits.MadeHead.number ⟨payload, hf⟩
    refine hs.write hp hclear (fun height hne => ?_) (fun file hget => ?_) rfl rfl rfl ?_
    · rw [BlockStore.get_put, if_neg (by rw [hheader]; exact hne)]
    · rw [BlockStore.get_put, if_pos hheader.symm] at hget
      exact Option.some.inj hget ▸ hheader
    · refine ⟨hclear, ?_⟩
      change (w.disk.blocks.put b.block).get b.height = _
      rw [BlockStore.get_put, if_pos (hheight.trans hheader.symm)]
  | broadcast hphase => exact hs.broadcasted hp hphase hf
  | sent hphase => exact hs.sent hp hphase hf
  | abandoned => exact hs.move hp ⟨rfl, rfl, rfl⟩ rfl rfl rfl rfl trivial
  | @torn payload b hphase =>
    rw [hphase] at hf hclear
    obtain ⟨hheader, -⟩ := Fits.MadeHead.number ⟨payload, hf⟩
    refine hs.write hp hclear (fun height hne => ?_) (fun file hget => ?_) rfl rfl rfl trivial
    · rw [BlockStore.get_tear, if_neg (by rw [hheader]; exact hne)]
    · rw [BlockStore.get_tear, if_pos hheader.symm] at hget
      cases hget

theorem Single.finalize {a : FinalizeAction} (hs : Single env w) (hp : w.process = some p)
    (h : FinalizeStep env w p a w' p') : Single env (w'.run p') := by
  have hr := hs.running p hp
  obtain ⟨hhead, hproducer, -, -, -, -, hrecovering⟩ := h.frame
  have hsame : SameBlocks w (w'.run p') := ⟨h.sameBlocks.1, h.sameBlocks.2, h.sameBlocks.3⟩
  refine hs.congr hsame ?_ fun q hq => ?_
  · intro batch hbatch block hblock
    cases h with
    | published hphase =>
      rcases List.mem_cons.1 hbatch with rfl | hbatch
      · obtain ⟨b, hb, rfl⟩ := List.mem_map.1 hblock
        exact hr.waiting b (by simp [SequencerWorld.waiting, hb])
      · exact hs.published batch hbatch block hblock
    | _ => exact hs.published batch hbatch block hblock
  · cases hq
    exact hr.congr hsame hhead hproducer h.waiting_subset hrecovering

theorem Single.boot {discovered : B256} {now : Nat} {pendingReadable : Bool}
    (hs : Single env w) (hok : RestartsAbove env w (.boot discovered now pendingReadable)) :
    Single env (w.boot env discovered now pendingReadable) := by
  obtain ⟨hout, hpending⟩ := hok
  refine hs.congr ⟨rfl, rfl, rfl⟩ hs.published fun q hq => ?_
  cases hq
  refine ⟨fun block hb => ?_, trivial, fun b hb => ?_, fun height hh hsome => ?_⟩
  · refine hout block ?_
    rwa [List.mem_append]
  · cases hb
  · cases pendingReadable with
    | true => exact hpending rfl height hh hsome
    | false => cases hh

theorem Single.step {a : Action} (hs : Single env w) (hok : RestartsAbove env w a)
    (hfits : ∀ p, w.process = some p →
      Fits env p.state.head p.producer ∧ (p.producer = .idle ∨ p.recovering = []))
    (h : enabled (exec env) w a w') : Single env w' := by
  have hkeep : ∀ w₁ : SequencerWorld, SameBlocks w w₁ → w₁.published = w.published →
      (∀ p, w₁.process = some p → w.process = some p) → Single env w₁ := by
    intro w₁ hsame hpublished hprocess
    refine hs.congr hsame (hpublished ▸ hs.published) fun p hp => ?_
    exact (hs.running p (hprocess p hp)).congr hsame rfl rfl (List.Subset.refl _) rfl
  cases exec_step h with
  | boot => exact hs.boot hok
  | recover hp hr => exact hs.recover hp hr (hfits _ hp).2
  | crash => exact hkeep _ ⟨rfl, rfl, rfl⟩ rfl fun p hp => by cases hp
  | shutdown hp =>
    refine hs.congr ⟨rfl, rfl, rfl⟩ hs.published fun q hq => ?_
    cases hq
    exact (hs.running _ hp).congr ⟨rfl, rfl, rfl⟩ rfl rfl (List.Subset.refl _) rfl
  | produce hp hr => exact hs.produce hp (hfits _ hp).1 hr
  | finalize hp hr => exact hs.finalize hp hr
  | tracked | receipt | submitted | windowed => exact hkeep _ ⟨rfl, rfl, rfl⟩ rfl fun _ hp => hp
  | landed =>
    obtain ⟨hsame, hprocess, -, hpublished, -⟩ := land_frame w _ _
    exact hkeep _ hsame hpublished fun _ hp => hprocess ▸ hp

/-- Runs in which every process starts above the blocks that are out. -/
theorem reachable_single
    (h : Reachable (· = fresh) (guarded (RestartsAbove env) (enabled (exec env))) w) :
    Single env w := by
  refine h.inv_of (J := fun w => ∀ p, w.process = some p →
    Fits env p.state.head p.producer ∧ (p.producer = .idle ∨ p.recovering = [])) ?_ ?_ ?_
  · intro w hw p hp
    exact ⟨reachable_fits hw.of_guarded hp, reachable_recovered hw.of_guarded hp⟩
  · rintro _ rfl
    refine ⟨?_, ?_, ?_, ?_, ?_⟩
    · rintro _ _ (hb | hb) <;> cases hb
    · rintro _ _ (hb | hb) <;> cases hb
    · intro height file hget
      cases hget
    · intro batch hbatch
      cases hbatch
    · intro p hp
      cases hp
  · exact fun w a w' hfits _ hs hstep => hs.step hstep.1 hfits hstep.2

/-- If no process starts below a block that is out or that it queues again, there is at most
one block of each height among all that is ever broadcast, handed to the finalizer or
settled. -/
theorem left_unique
    (h : Reachable (· = fresh) (guarded (RestartsAbove env) (enabled (exec env))) w)
    {block block' : Block} (hleft : Left env w block) (hleft' : Left env w block')
    (hheight : block.header.height = block'.header.height) : block = block' := by
  have hs := reachable_single h
  have hemitted : ∀ {b}, Left env w b → Emitted w b := by
    rintro b (hb | hb | ⟨batch, hbatch, hb, -⟩)
    · exact .inl hb
    · exact .inr hb
    · exact .inr (hs.published batch hbatch b hb)
  exact hs.unique block block' (hemitted hleft) (hemitted hleft') hheight

/-- Block 1 is queued, and queued again after a crash. -/
def crashAfterPass : List Action := .boot (.repeated 0) 0 true :: wholePass payload1 ++
  [.crash, .boot (.repeated 0) 0 true, .recover true]

def afterCrash : SequencerWorld :=
  (execAll (exec (smallEnv fun _ => [])) fresh crashAfterPass).getD fresh

theorem left_unique_recovered :
    afterCrash.queued.head (by decide) = afterCrash.broadcast.head (by decide) := by
  have hrun : Run (guarded (RestartsAbove (smallEnv fun _ => []))
      (enabled (exec (smallEnv fun _ => [])))) fresh crashAfterPass afterCrash :=
    run_of_execDecide rfl
  refine left_unique ⟨_, _, rfl, hrun⟩ (.inr (.inl ?_)) (.inl ?_) rfl
  · exact List.head_mem _
  · exact List.head_mem _

/-- The process dies between the pending mark of block 1 and the save of its state. The next
one starts from genesis, queues block 1 again and builds another block 1. -/
def crashBeforeSave : List Action := .boot (.repeated 0) 0 true :: passToFile payload1 ++
  [.produce .work, .produce .work, .crash, .boot (.repeated 0) 0 true, .recover true] ++
  wholePass otherPayload1

def afterRebuild : SequencerWorld :=
  (execAll (exec (smallEnv fun _ => [])) fresh crashBeforeSave).getD fresh

theorem two_blocks_of_height :
    Reachable (· = fresh) (enabled (exec (smallEnv fun _ => []))) afterRebuild ∧
    Left (smallEnv fun _ => []) afterRebuild block1 ∧
    Left (smallEnv fun _ => []) afterRebuild otherBlock1 ∧
    block1.header.height = otherBlock1.header.height ∧ block1 ≠ otherBlock1 := by
  have hrun : Run (enabled (exec (smallEnv fun _ => []))) fresh crashBeforeSave afterRebuild :=
    run_of_execAll rfl
  refine ⟨⟨_, _, rfl, hrun⟩, .inr (.inl ?_), .inr (.inl ?_), rfl, ?_⟩
  · exact List.mem_cons_of_mem _ List.mem_cons_self
  · exact List.mem_cons_self
  · decide

end SequencerWorld

end Podseq.Node
