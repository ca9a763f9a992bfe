import Podseq.Node.PrunedSettled
import Podseq.Node.SettledBlobs

/-! # Where blocks come from

A block is made of a payload of the execution client and signed, goes to its file and to the
queue, and from there into a batch. After a crash the file is all there is of it: a block that is
queued again is the one that was written.
-/
namespace Podseq.Node
open Podseq.Lib Podseq.Move

namespace SequencerWorld

variable {env : SequencerEnv} {w w' : SequencerWorld} {p p' : SequencerProcess}

/-- The block was made of a payload of the tree. -/
def Genuine (env : SequencerEnv) (block : Block) : Prop :=
  ∃ payload, env.tree.payloadOf payload.blockHash = some payload ∧
    signedBlock env payload = some block

/-- A block that was made describes its payload, and bears the signature of its header. -/
theorem signedBlock_made {payload : ExecutionPayload} {block : Block}
    (h : signedBlock env payload = some block) : block.header.Describes payload ∧
      ∃ signature, env.sign block.header = some signature ∧ block.signature = some signature := by
  simp only [signedBlock, Option.bind_eq_bind, Option.bind_eq_some_iff, Option.pure_def,
    Option.some.injEq] at h
  obtain ⟨unsigned, hunsigned, signature, hsign, rfl⟩ := h
  have hdescribes := payloadIntoBlock_describes hunsigned
  exact ⟨hdescribes, signature, hsign, rfl⟩

/-- What holds in every state. -/
structure MakesGenuine (env : SequencerEnv) (w : SequencerWorld) : Prop where
  files : ∀ height block, w.disk.blocks.get height = some block → Genuine env block
  published : ∀ batch ∈ w.published, ∀ block ∈ batch, Genuine env block
  fits : ∀ p, w.process = some p → Fits env p.state.head p.producer
  waits : ∀ p, w.process = some p → ∀ b ∈ waiting p, Genuine env b.block

theorem MadeOf.genuine {payload : ExecutionPayload} {b : PendingBlock} {head : B256}
    (h : MadeOf env payload b) (hhash : payload.blockHash = head)
    (hpayload : env.tree.payloadOf head = some payload) : Genuine env b.block := by
  subst hhash
  exact ⟨payload, hpayload, h.block⟩

theorem Fits.MadeHead.genuine {head : B256} {b : PendingBlock} (h : Fits.MadeHead env head b) :
    Genuine env b.block := by
  obtain ⟨payload, ⟨hhash, hpayload⟩, hmade⟩ := h
  exact hmade.genuine hhash hpayload

/-- A step that writes no block, publishes nothing and queues nothing new. -/
theorem MakesGenuine.congr (hw : MakesGenuine env w) (hfiles : w'.disk.blocks = w.disk.blocks)
    (hpublished : w'.published = w.published)
    (hfits : ∀ p', w'.process = some p' → Fits env p'.state.head p'.producer)
    (hwaits : ∀ p', w'.process = some p' → ∀ b ∈ waiting p', Genuine env b.block) :
    MakesGenuine env w' := by
  refine ⟨?_, ?_, hfits, hwaits⟩
  · rw [hfiles]
    exact hw.files
  · rw [hpublished]
    exact hw.published

/-- What a pass writes is the block it made. -/
theorem ProduceStep.files {a : ProduceAction} (h : ProduceStep env w p a w' p')
    (hf : Fits env p.state.head p.producer)
    (hw : ∀ height block, w.disk.blocks.get height = some block → Genuine env block) :
    ∀ height block, w'.disk.blocks.get height = some block → Genuine env block := by
  cases h with
  | @stored payload b hphase =>
    rw [hphase] at hf
    obtain ⟨⟨hhash, hpayload⟩, hmade⟩ := hf
    intro height block hget
    have hput : (w.disk.blocks.put b.block).get height = some block := hget
    rw [BlockStore.get_put] at hput
    split at hput
    · cases hput
      exact hmade.genuine hhash hpayload
    · exact hw height block hput
  | torn hphase =>
    intro height block hget
    have htear : (w.disk.blocks.tear _).get height = some block := hget
    rw [BlockStore.get_tear] at htear
    split at htear
    · cases htear
    · exact hw height block htear
  | _ => exact hw

theorem MakesGenuine.produce {a : ProduceAction} (hw : MakesGenuine env w)
    (hp : w.process = some p) (h : ProduceStep env w p a w' p') :
    MakesGenuine env (w'.run p') := by
  have hfits := hw.fits p hp
  have hwaits : ∀ b ∈ waiting p', Genuine env b.block := by
    have hold := hw.waits p hp
    cases h with
    | @sent b hphase =>
      rw [hphase] at hfits
      intro c hc
      rcases mem_waiting_queue hc rfl rfl rfl with rfl | hc
      · exact Fits.MadeHead.genuine hfits
      · exact hold c hc
    | _ => exact hold
  refine ⟨h.files hfits hw.files, ?_, ?_, ?_⟩
  · rw [show (w'.run p').published = w.published from h.published]
    exact hw.published
  · intro q hq
    cases hq
    exact hfits.produce h
  · intro q hq
    cases hq
    exact hwaits

/-- The finalizer publishes what was handed to it. -/
theorem FinalizeStep.publishes {a : FinalizeAction} (h : FinalizeStep env w p a w' p') :
    ∀ batch ∈ w'.published, batch ∈ w.published ∨ batch = p.batch.map (·.block) := by
  intro batch hbatch
  cases h with
  | published => exact (List.mem_cons.1 hbatch).symm
  | _ => exact .inl hbatch

theorem MakesGenuine.finalize {a : FinalizeAction} (hw : MakesGenuine env w)
    (hp : w.process = some p) (h : FinalizeStep env w p a w' p') :
    MakesGenuine env (w'.run p') := by
  have hwaits := hw.waits p hp
  have hfits := hw.fits p hp
  refine ⟨?_, fun batch hbatch block hblock => ?_, fun q hq => ?_, fun q hq b hb => ?_⟩
  · rw [show (w'.run p').disk.blocks = w.disk.blocks from h.sameBlocks.files]
    exact hw.files
  · rcases h.publishes batch hbatch with hold | rfl
    · exact hw.published batch hold block hblock
    · obtain ⟨b, hb, rfl⟩ := List.mem_map.1 hblock
      refine hwaits b ?_
      simp only [waiting, List.mem_append]
      exact .inl (.inr hb)
  · cases hq
    obtain ⟨hhead, hproducer, -⟩ := h.frame
    rw [hhead, hproducer]
    exact hfits
  · cases hq
    exact hwaits b (h.waiting_subset hb)

/-- A block that is queued again is the one in its file. -/
theorem MakesGenuine.recover {cleared : Bool} (hw : MakesGenuine env w) (hp : w.process = some p)
    (h : w.recover env p cleared = some (w', p')) : MakesGenuine env (w'.run p') := by
  have hwaits := hw.waits p hp
  have hpublished := recover_published h
  obtain ⟨hstate, hproducer, -⟩ := recover_frame h
  have hfits : Fits env p'.state.head p'.producer := by
    rw [hstate, hproducer]
    exact hw.fits p hp
  obtain ⟨height, recovering, -, ⟨block, payload, hget, -, rfl, rfl⟩ | ⟨hw', rfl⟩⟩ :=
    recover_cases h
  · refine hw.congr rfl rfl (fun q hq => ?_) fun q hq c hc => ?_
    · cases hq
      exact hfits
    · cases hq
      rcases mem_waiting_queue hc rfl rfl rfl with rfl | hc
      · exact hw.files _ _ hget
      · exact hwaits c hc
  · have hfiles : w'.disk.blocks = w.disk.blocks := by obtain rfl | rfl := hw' <;> rfl
    refine hw.congr hfiles hpublished (fun q hq => ?_) fun q hq => ?_
    · cases hq
      exact hfits
    · cases hq
      exact hwaits

theorem MakesGenuine.node {a : Action} (hw : MakesGenuine env w)
    (hland : ∀ call admitted, a ≠ .land call admitted) (h : Step env w a w') :
    MakesGenuine env w' := by
  cases h with
  | boot =>
    refine hw.congr rfl rfl (fun q hq => ?_) fun q hq b hb => ?_
    · cases hq
      trivial
    · cases hq
      cases hb
  | recover hp hr => exact hw.recover hp hr
  | crash => exact hw.congr rfl rfl (fun q hq => by cases hq) fun q hq => by cases hq
  | shutdown hp =>
    have hfits := hw.fits _ hp
    have hwaits := hw.waits _ hp
    refine hw.congr rfl rfl (fun q hq => ?_) fun q hq => ?_
    · cases hq
      exact hfits
    · cases hq
      exact hwaits
  | produce hp hr => exact hw.produce hp hr
  | finalize hp hr => exact hw.finalize hp hr
  | tracked | receipt | submitted | windowed => exact hw.congr rfl rfl hw.fits hw.waits
  | landed => exact absurd rfl (hland _ _)

theorem MakesGenuine.ledger {a : LedgerAction} (hw : MakesGenuine env w)
    (h : LedgerStep env w a w') : MakesGenuine env w' := by
  cases h with
  | node hland hstep => exact hw.node hland hstep
  | @settle commitStateRoots call now sender =>
    obtain he | ⟨registry, inbox, -, he⟩ := w.settle_cases commitStateRoots call now sender
    all_goals
      rw [he]
      exact hw.congr rfl rfl hw.fits hw.waits
  | govern => exact hw.congr rfl rfl hw.fits hw.waits

theorem MakesGenuine.fresh : MakesGenuine env fresh := by
  refine ⟨fun _ _ h => ?_, fun _ h => ?_, fun _ h => ?_, fun _ h => ?_⟩ <;> cases h

/-- A batch gets into the history by being published. -/
theorem LedgerStep.publishes {a : LedgerAction} (h : LedgerStep env w a w') :
    ∀ batch ∈ w'.published, batch ∈ w.published ∨ a = .node (.finalize (.publish true)) ∧
      ∃ p, w.process = some p ∧ batch = p.batch.map (·.block) := by
  intro batch hbatch
  cases h with
  | node hland hstep =>
    cases hstep with
    | finalize hp hr =>
      have hp' := hp
      cases hr with
      | published =>
        rcases List.mem_cons.1 hbatch with rfl | hbatch
        · exact .inr ⟨rfl, _, hp', rfl⟩
        · exact .inl hbatch
      | _ => exact .inl hbatch
    | recover hp hr => exact .inl (recover_published hr ▸ hbatch)
    | produce hp hr => exact .inl (hr.published ▸ hbatch)
    | boot | crash | shutdown | tracked | receipt | submitted | windowed => exact .inl hbatch
    | landed => exact absurd rfl (hland _ _)
  | @settle commitStateRoots call now sender =>
    obtain he | ⟨registry, inbox, -, he⟩ := w.settle_cases commitStateRoots call now sender
    all_goals
      rw [he] at hbatch
      exact .inl hbatch
  | govern => exact .inl hbatch

end SequencerWorld

end Podseq.Node
