import Podseq.Node.FlushTimer

/-! # The books of the finalizer's batch

A flush takes its blocks out of the batch one by one and corrects the bytes and the timer when it
has returned with an empty batch. When it gives up before that, both still count the blocks that
left.
-/
namespace Podseq.Node
open Podseq.Lib Podseq.Move

namespace TimedSequencer

variable {env : SequencerEnv} {t t' : TimedSequencer} {p p' : SequencerProcess}
  {w w' : SequencerWorld} {call' : SettleCall} {b : PendingBlock} {blob : Bytes}
  {batch : List PendingBlock}

/-! ## The invariant -/

/-- Which blocks each phase of the loop has not let go of, and what is known of the one in
hand. -/
def Phase (t : TimedSequencer) (batch : List PendingBlock) : Finalizer → Prop
  | .receiving => t.kept.map Prod.fst = batch ∧ t.flushed = []
  | .awaiting _ call => t.kept.map Prod.fst = batch ∧ ∀ b ∈ batch.head?, call.block = b.block
  | .advancing (some _) b => t.kept.map Prod.fst = b :: batch ∧ t.Settled b
  | .finalizing (some _) b _ _ => t.kept.map Prod.fst = b :: batch ∧ t.Settled b
  | .confirmed (some _) b => t.kept.map Prod.fst = b :: batch ∧ t.Settled b ∧
      b.blockHash ∈ t.confirmed
  | .advancing none _ => False
  | .finalizing none _ _ _ => False
  | .confirmed none _ => False
  | .draining => False
  | _ => t.kept.map Prod.fst = batch

/-- The blocks that arrived are those that left, which are settled and finalized, and the rest. -/
structure Blocks (t : TimedSequencer) (p : SequencerProcess) : Prop where
  order : t.arrived = t.gone ++ t.flushed ++ t.kept
  left : ∀ a ∈ t.gone ++ t.flushed, t.Settled a.1 ∧ a.1.blockHash ∈ t.confirmed
  phase : t.Phase p.batch p.finalizer

/-- During a flush, the bytes and the timer are those of the blocks it began with. -/
structure Counts (t : TimedSequencer) (p : SequencerProcess) : Prop where
  bytes : p.batchBytes = saturatingAdd (dataBytes t.flushed) (dataBytes t.kept)
  timer : t.timer.due = t.deadlineOf (t.flushed ++ t.kept)
  fits : p.finalizer = .receiving → dataBytes t.kept ≤ u64Max

/-- The blocks stay in order, and the counts right if they were. -/
def Keeps (t : TimedSequencer) (p : SequencerProcess) (t' : TimedSequencer)
    (p' : SequencerProcess) : Prop :=
  t'.Blocks p' ∧ (t.Counts p → t'.Counts p')

theorem Blocks.phaseAt {finalizer : Finalizer} (h : t.Blocks p)
    (hphase : p.finalizer = finalizer) : t.Phase p.batch finalizer := hphase ▸ h.phase

theorem Settled.mono (hexec : ∀ call ∈ t.world.executed, call ∈ w.executed)
    (h : t.Settled b) : Settled { t with world := w } b := by
  obtain ⟨call, hcall, hblock⟩ := h
  exact ⟨call, hexec call hcall, hblock⟩

theorem Phase.mono (hexec : ∀ call ∈ t.world.executed, call ∈ w.executed)
    {finalizer : Finalizer} (h : t.Phase batch finalizer) :
    Phase { t with world := w } batch finalizer := by
  cases finalizer with
  | advancing blob b =>
    cases blob with
    | none => exact h
    | some _ => exact ⟨h.1, h.2.mono hexec⟩
  | finalizing blob b head tried =>
    cases blob with
    | none => exact h
    | some _ => exact ⟨h.1, h.2.mono hexec⟩
  | confirmed blob b =>
    cases blob with
    | none => exact h
    | some _ => exact ⟨h.1, h.2.1.mono hexec, h.2.2⟩
  | _ => exact h

/-- A step that leaves the bytes, the timer and the history alone. -/
theorem Blocks.quiet (h : t.Blocks p) (hexec : ∀ call ∈ t.world.executed, call ∈ w.executed)
    (hbytes : p'.batchBytes = p.batchBytes)
    (hback : p'.finalizer = .receiving → p.finalizer = .receiving)
    (hphase : Phase { t with world := w } p'.batch p'.finalizer) :
    t.Keeps p { t with world := w } p' := by
  refine ⟨⟨h.order, fun a ha => ⟨(h.left a ha).1.mono hexec, (h.left a ha).2⟩, hphase⟩, ?_⟩
  intro hc
  exact ⟨hbytes.trans hc.bytes, hc.timer, fun hreceiving => hc.fits (hback hreceiving)⟩

theorem dataBytes_append {l l' : List Arrival} :
    dataBytes (l ++ l') = dataBytes l + dataBytes l' := by
  simp [dataBytes]

theorem dataBytes_eq {l : List Arrival} (h : l.map Prod.fst = batch) :
    dataBytes l = (batch.map (·.block.data.length)).sum := by
  rw [dataBytes, ← h, List.map_map]
  rfl

/-- At the head of the loop what has not left is the batch. -/
theorem Blocks.at_head (h : t.Blocks p) (hphase : p.finalizer = .receiving) :
    t.arrived = t.gone ++ t.kept ∧ t.kept.map Prod.fst = p.batch ∧
      ∀ a ∈ t.gone, t.Settled a.1 ∧ a.1.blockHash ∈ t.confirmed := by
  obtain ⟨hkept, hflushed⟩ := h.phaseAt hphase
  refine ⟨?_, hkept, fun a ha => h.left a (List.mem_append_left _ ha)⟩
  have horder := h.order
  rwa [hflushed, List.append_nil] at horder

theorem Blocks.bookkept (h : t.Blocks p) (hc : t.Counts p) (hphase : p.finalizer = .receiving) :
    t.Bookkept p := by
  obtain ⟨horder, hkept, hleft⟩ := h.at_head hphase
  have hflushed : t.flushed = [] := (h.phaseAt hphase).2
  refine ⟨⟨t.gone, t.kept, horder, hkept, hleft, ?_⟩, ?_⟩
  · have htimer := hc.timer
    rwa [hflushed, List.nil_append] at htimer
  · rw [hc.bytes, hflushed, ← dataBytes_eq hkept, saturatingAdd]
    exact (min_eq_left (by simpa [dataBytes] using hc.fits hphase)).trans (by simp [dataBytes])

theorem oldest_append {l l' : List Arrival} (h : l ≠ []) : oldest (l ++ l') = oldest l := by
  rw [oldest, List.head?_append_of_ne_nil _ h, oldest]

/-- The timer that a block finds: armed for the oldest block, or for this one. -/
theorem Counts.arm (hc : t.Counts p) (hkept : t.kept.map Prod.fst = p.batch)
    (hflushed : t.flushed = []) (a : Arrival) (ha : a.2 = t.now) :
    (if p.batch = [] then t.timer.arm t.now else t.timer).due = t.deadlineOf (t.kept ++ [a]) ∧
      (if p.batch = [] then t.timer.arm t.now else t.timer).flushAfter = t.timer.flushAfter := by
  have htimer := hc.timer
  rw [hflushed, List.nil_append] at htimer
  split_ifs with hempty
  · rw [hempty, List.map_eq_nil_iff] at hkept
    have hnone : t.timer.due = none := by
      rw [htimer, hkept, deadlineOf]
      cases t.timer.flushAfter <;> rfl
    rw [FlushTimer.arm, hnone, hkept, deadlineOf, ← ha]
    cases t.timer.flushAfter <;> exact ⟨rfl, rfl⟩
  · have hne : t.kept ≠ [] := fun hnil => hempty (by rw [← hkept, hnil]; rfl)
    refine ⟨?_, rfl⟩
    rw [htimer, deadlineOf, deadlineOf, oldest_append hne]

/-- A block arrives. -/
theorem Blocks.receive {bytes : Nat} {next : Finalizer} {channel : List PendingBlock}
    (henv : env.daBatchSize ≤ u64Max) (h : t.Blocks p) (hphase : p.finalizer = .receiving)
    (hexec : ∀ call ∈ t.world.executed, call ∈ w.executed)
    (hbytes : bytes = saturatingAdd p.batchBytes b.block.data.length)
    (hnext : next = if env.daBatchSize ≤ bytes then .publishing else .receiving) :
    t.Keeps p { t with
        world := w
        timer := if p.batch = [] then t.timer.arm t.now else t.timer
        arrived := t.arrived ++ [(b, t.now)]
        kept := t.kept ++ [(b, t.now)] }
      { p with channel, batch := p.batch ++ [b], batchBytes := bytes, finalizer := next } := by
  obtain ⟨hkept, hflushed⟩ := h.phaseAt hphase
  have hmap : (t.kept ++ [(b, t.now)]).map Prod.fst = p.batch ++ [b] := by
    rw [List.map_append, hkept]
    rfl
  refine ⟨⟨?_, fun a ha => ⟨(h.left a ha).1.mono hexec, (h.left a ha).2⟩, ?_⟩, fun hc => ?_⟩
  · simp only [h.order, List.append_assoc]
  · show Phase _ (p.batch ++ [b]) next
    by_cases hfull : env.daBatchSize ≤ bytes
    · rw [hnext, if_pos hfull]
      exact hmap
    · rw [hnext, if_neg hfull]
      exact ⟨hmap, hflushed⟩
  · have hone : dataBytes [(b, t.now)] = b.block.data.length := by simp [dataBytes]
    have hzero : dataBytes t.flushed = 0 := by rw [hflushed]; rfl
    have htotal : bytes = saturatingAdd 0 (dataBytes (t.kept ++ [(b, t.now)])) := by
      rw [hbytes, hc.bytes, hzero, dataBytes_append, hone]
      simp only [saturatingAdd]
      omega
    obtain ⟨hdue, hafter⟩ := hc.arm hkept hflushed (b, t.now) rfl
    refine ⟨?_, ?_, fun hback => ?_⟩
    · show bytes = saturatingAdd (dataBytes t.flushed) _
      rw [hzero, htotal]
    · show FlushTimer.due _ = Option.bind (FlushTimer.flushAfter _) _
      rw [hdue, hafter, hflushed]
      rfl
    · -- the loop goes on receiving only below the threshold
      have hsmall : ¬env.daBatchSize ≤ bytes := by
        intro hfull
        rw [hnext, if_pos hfull] at hback
        cases hback
      simp only [saturatingAdd] at htotal
      show dataBytes (t.kept ++ [(b, t.now)]) ≤ u64Max
      omega

/-- The loop is back at its head. -/
theorem Blocks.back (h : t.Blocks p) (hexec : ∀ call ∈ t.world.executed, call ∈ w.executed)
    (hback : p'.finalizer = .receiving) (hkept : t.kept.map Prod.fst = p'.batch) :
    Blocks { t.returned p' with world := w } p' := by
  simp only [returned, hback]
  refine ⟨?_, fun a ha => ?_, ?_⟩
  · show t.arrived = t.gone ++ t.flushed ++ [] ++ t.kept
    rw [h.order, List.append_nil]
  · have hleft : a ∈ t.gone ++ t.flushed ++ [] := ha
    rw [List.append_nil] at hleft
    exact ⟨(h.left a hleft).1.mono hexec, (h.left a hleft).2⟩
  · rw [hback]
    exact ⟨hkept, rfl⟩

theorem counts_back (hback : p'.finalizer = .receiving) (hbytes : p'.batchBytes = dataBytes t.kept)
    (hfits : dataBytes t.kept ≤ u64Max)
    (hdue : (if p'.batch = [] then t.timer.disarm else t.timer).due = t.deadlineOf t.kept) :
    Counts { t.returned p' with world := w } p' := by
  have hafter : (if p'.batch = [] then t.timer.disarm else t.timer).flushAfter =
      t.timer.flushAfter := by
    split_ifs <;> rfl
  simp only [returned, hback]
  refine ⟨?_, ?_, fun _ => hfits⟩
  · show p'.batchBytes = saturatingAdd 0 (dataBytes t.kept)
    rw [hbytes, saturatingAdd, Nat.zero_add, min_eq_left hfits]
  · show FlushTimer.due _ = Option.bind (FlushTimer.flushAfter _) _
    rw [hdue, hafter]
    rfl

/-- The block in hand is finalized for good. -/
theorem Blocks.recorded {state : ChainState} (h : t.Blocks p)
    (hphase : p.finalizer = .confirmed (some blob) b)
    (hexec : ∀ call ∈ t.world.executed, call ∈ w.executed) :
    t.Keeps p
      { t with world := w, flushed := t.flushed ++ t.kept.take 1, kept := t.kept.drop 1 }
      { p with state, finalizer := .clearing blob b } := by
  obtain ⟨hkept, hsettled, hconfirmed⟩ := h.phaseAt hphase
  obtain ⟨a, kept, ha, rfl, hrest⟩ := List.map_eq_cons_iff.1 hkept
  have hsplit : t.flushed ++ t.kept = t.flushed ++ [a] ++ kept := by
    rw [ha, List.append_assoc]
    rfl
  refine ⟨⟨?_, fun x hx => ?_, ?_⟩, fun hc => ⟨?_, ?_, fun hback => by cases hback⟩⟩
  · show t.arrived = t.gone ++ (t.flushed ++ t.kept.take 1) ++ t.kept.drop 1
    rw [h.order, List.append_assoc, hsplit, ha, ← List.append_assoc, ← List.append_assoc]
    simp
  · have hx' : x ∈ t.gone ++ (t.flushed ++ t.kept.take 1) := hx
    rw [ha, ← List.append_assoc] at hx'
    rcases List.mem_append.1 hx' with hx' | hx'
    · exact ⟨(h.left x hx').1.mono hexec, (h.left x hx').2⟩
    · rw [show x = a from List.mem_singleton.1 hx']
      exact ⟨hsettled.mono hexec, hconfirmed⟩
  · show (t.kept.drop 1).map Prod.fst = p.batch
    rw [ha]
    exact hrest
  · show p.batchBytes = saturatingAdd (dataBytes (t.flushed ++ t.kept.take 1))
      (dataBytes (t.kept.drop 1))
    rw [hc.bytes, ha, show a :: kept = [a] ++ kept from rfl]
    show saturatingAdd _ _ =
      saturatingAdd (dataBytes (t.flushed ++ [a])) (dataBytes kept)
    rw [dataBytes_append, dataBytes_append]
    simp only [saturatingAdd]
    omega
  · show t.timer.due = Option.bind t.timer.flushAfter fun after =>
      (oldest (t.flushed ++ t.kept.take 1 ++ t.kept.drop 1)).map (· + after)
    rw [hc.timer, hsplit, ha]
    rfl

/-! ## A flush that gives up -/

theorem deadlineOf_eq_iff {l l' : List Arrival} :
    t.deadlineOf l = t.deadlineOf l' ↔ t.timer.flushAfter = none ∨ oldest l = oldest l' := by
  rw [deadlineOf, deadlineOf]
  cases t.timer.flushAfter with
  | none => simp
  | some after =>
    show (oldest l).map (· + after) = (oldest l').map (· + after) ↔ _
    rw [Option.map_inj_right fun x y hxy => Nat.add_right_cancel hxy]
    simp

section GivesUp

variable {head : B256} {tried : Bool}

/-- Where nothing that left in the flush leaves a trace, the counts are those of the batch. -/
theorem Blocks.failed (h : t.Blocks p)
    (hphase : p.finalizer = .finalizing (some blob) b head tried)
    (hexec : ∀ call ∈ t.world.executed, call ∈ w.executed) :
    Blocks { t.returned (SequencerWorld.finalizeFailed p (some blob) b) with world := w }
        (SequencerWorld.finalizeFailed p (some blob) b) ∧
      (t.Traceless → t.Counts p →
        Counts { t.returned (SequencerWorld.finalizeFailed p (some blob) b) with world := w }
          (SequencerWorld.finalizeFailed p (some blob) b)) := by
  refine ⟨h.back hexec rfl (h.phaseAt hphase).1, fun htrace hc => ?_⟩
  obtain ⟨hbytes, holdest⟩ := htrace
  refine counts_back rfl ?_ (hbytes ▸ min_le_right _ _) ?_
  · show p.batchBytes = dataBytes t.kept
    rw [hc.bytes, hbytes]
  · show t.timer.due = t.deadlineOf t.kept
    rw [hc.timer]
    exact deadlineOf_eq_iff.2 holdest

/-- Where the books are those of the batch, nothing left a trace. -/
theorem Blocks.traceless (h : t.Blocks p) (hc : t.Counts p)
    (hphase : p.finalizer = .finalizing (some blob) b head tried)
    (hbooks : Bookkept { t.returned (SequencerWorld.finalizeFailed p (some blob) b) with
      world := w } (SequencerWorld.finalizeFailed p (some blob) b)) : t.Traceless := by
  have hkept : t.kept.map Prod.fst = b :: p.batch := (h.phaseAt hphase).1
  obtain ⟨⟨gone, kept, horder, hsame, -, hdeadline⟩, hbytes⟩ := hbooks
  -- the batch is the end of what arrived, so its arrivals are those that were kept
  obtain rfl : kept = t.kept := by
    have hlength : kept.length = t.kept.length := by
      rw [← List.length_map (f := Prod.fst), hsame, ← List.length_map (f := Prod.fst), hkept]
      rfl
    exact (List.append_inj' (horder.symm.trans h.order) hlength).2
  constructor
  · rw [← hc.bytes, dataBytes_eq hkept]
    exact hbytes
  · refine deadlineOf_eq_iff.1 ?_
    rw [← hc.timer]
    exact hdeadline

end GivesUp

/-! ## The steps of the finalizer -/

section Steps

variable {f : SequencerWorld.FinalizeAction}

/-- The block in hand is put back, and the flush returns. -/
theorem finalize_fails {head : B256} {tried : Bool}
    (hphase : p.finalizer = .finalizing (some blob) b head tried) (hfails : FailsAdvance f)
    (hf : t.world.finalize env p f = some (w', p')) :
    w'.executed = t.world.executed ∧ p' = SequencerWorld.finalizeFailed p (some blob) b ∧
      t.note f p p' = t.returned p' := by
  cases f with
  | fail =>
    simp only [SequencerWorld.finalize, hphase, Option.some.injEq, Prod.mk.injEq] at hf
    obtain ⟨rfl, rfl⟩ := hf
    refine ⟨rfl, rfl, ?_⟩
    simp only [note, hphase]
  | forkchoice reply =>
    obtain ⟨hvalid, hsyncing⟩ := hfails
    simp only [SequencerWorld.finalize, hphase, Option.some.injEq, Prod.mk.injEq] at hf
    obtain ⟨rfl, rfl⟩ := hf
    refine ⟨rfl, rfl, ?_⟩
    simp only [note, hphase]
    split
    · rename_i heq
      cases heq
      exact absurd rfl hvalid
    · rfl
  | _ => exact hfails.elim

/-- A step that the timer and the history take no notice of, and that does not end the flush. -/
theorem Blocks.pass (h : t.Blocks p) (hnote : t.note f p p' = t)
    (hexec : w.executed = t.world.executed) (hbytes : p'.batchBytes = p.batchBytes)
    (hback : p'.finalizer ≠ .receiving)
    (hphase : Phase { t with world := w } p'.batch p'.finalizer) :
    t.Keeps p { t.note f p p' with world := w } p' := by
  rw [hnote]
  exact h.quiet (fun _ hcall => hexec ▸ hcall) hbytes (fun heq => absurd heq hback) hphase

/-- The client confirms the block in hand. -/
theorem Blocks.confirm {head : B256} {tried : Bool} (h : t.Blocks p)
    (hphase : p.finalizer = .finalizing (some blob) b head tried)
    (hexec : w.executed = t.world.executed) :
    t.Keeps p { t with world := w, confirmed := b.blockHash :: t.confirmed }
      (p.finalize (.confirmed (some blob) b)) := by
  obtain ⟨hkept, hsettled⟩ := h.phaseAt hphase
  have hmono : ∀ call ∈ t.world.executed, call ∈ w.executed := fun _ hcall => hexec ▸ hcall
  constructor
  · refine ⟨h.order, fun a ha => ⟨?_, ?_⟩, hkept, ?_, ?_⟩
    · exact (h.left a ha).1.mono hmono
    · exact List.mem_cons_of_mem _ (h.left a ha).2
    · exact hsettled.mono hmono
    · exact List.mem_cons_self
  · intro hc
    exact ⟨hc.bytes, hc.timer, fun hback => by cases hback⟩

/-- The flush goes on to the next block, or is over. -/
theorem Blocks.next {stored : StoredState} (h : t.Blocks p)
    (hphase : p.finalizer = .saving blob stored) (hexec : w.executed = t.world.executed) :
    t.Keeps p { t.note f p (SequencerWorld.nextSettlement p blob) with world := w }
      (SequencerWorld.nextSettlement p blob) := by
  have hkept : t.kept.map Prod.fst = p.batch := h.phaseAt hphase
  cases hbatch : p.batch with
  | nil =>
    rw [hbatch, List.map_eq_nil_iff] at hkept
    simp only [note, hphase, SequencerWorld.nextSettlement, hbatch]
    refine ⟨h.back (fun _ hcall => hexec ▸ hcall) rfl ?_, fun _ => counts_back rfl ?_ ?_ ?_⟩
    · rw [hkept]
      rfl
    · rw [hkept]
      rfl
    · rw [hkept]
      exact Nat.zero_le _
    · rw [if_pos rfl, hkept, deadlineOf]
      cases t.timer.flushAfter <;> rfl
  | cons b batch =>
    have hnext : SequencerWorld.nextSettlement p blob = p.finalize (.gating blob) := by
      simp only [SequencerWorld.nextSettlement, hbatch]
    have hnote : t.note f p (p.finalize (.gating blob)) = t := by
      simp only [note, hphase, returned, SequencerProcess.finalize]
    rw [hnext]
    exact h.pass hnote hexec rfl (fun hback => by cases hback) hkept

/-- A step in which `advance_finalized` does not fail. -/
theorem finalize_keeps_of_advances (henv : env.daBatchSize ≤ u64Max) (h : t.Blocks p)
    (hup : p.shuttingDown = false) (hf : t.world.finalize env p f = some (w', p'))
    (hadvances : ∀ blob b head tried, p.finalizer = .finalizing (some blob) b head tried →
      ¬FailsAdvance f) :
    t.Keeps p { t.note f p p' with world := w'.run p' } p' := by
  cases SequencerWorld.finalize_step hf with
  | received hphase hchannel =>
    simp only [SequencerWorld.finalize, hphase, hchannel, Option.some.injEq, Prod.mk.injEq,
      true_and] at hf
    rw [← hf]
    simp only [note, hphase, hchannel]
    exact h.receive henv hphase (fun _ hcall => hcall) rfl rfl
  | timed hphase =>
    exact h.pass (by simp only [note, hphase]) rfl rfl Finalizer.noConfusion (h.phaseAt hphase).1
  -- none of these is taken before a shutdown
  | stopReceiving _ hdown | stopPublishing _ hdown | stopSettling _ hdown =>
    rw [hup] at hdown
    cases hdown
  | published hphase =>
    exact h.pass (by simp only [note, hphase, returned, SequencerProcess.finalize]) rfl rfl
      Finalizer.noConfusion (h.phaseAt hphase)
  | publishFailed hphase =>
    have hnote : t.note (.publish false) p p = t := by simp only [note, hphase, returned]
    rw [hnote]
    exact h.quiet (fun _ hcall => hcall) rfl id (h.phase.mono fun _ hcall => hcall)
  | gated hphase | cursorRead hphase | cleared hphase | clearFailed hphase | snapshot hphase =>
    exact h.pass (by simp only [note, hphase]) rfl rfl Finalizer.noConfusion (h.phaseAt hphase)
  | called hphase hbatch =>
    refine h.pass (by simp only [note, hphase]) rfl rfl Finalizer.noConfusion
      ⟨h.phaseAt hphase, fun b' hb' => ?_⟩
    simp only [SequencerProcess.finalize, hbatch, List.head?_cons, Option.mem_some_iff] at hb'
    rw [← hb']
    rfl
  | retried hphase =>
    obtain ⟨_, hphase⟩ | ⟨_, hphase⟩ := hphase
    · exact h.pass (by simp only [note, hphase]) rfl rfl Finalizer.noConfusion (h.phaseAt hphase)
    · exact h.pass (by simp only [note, hphase]) rfl rfl Finalizer.noConfusion (h.phaseAt hphase).1
  | confirmed hphase hbatch hcall =>
    obtain ⟨hkept, hblock⟩ := h.phaseAt hphase
    refine h.pass (by simp only [note, hphase]) rfl rfl Finalizer.noConfusion
      ⟨hbatch ▸ hkept, _, hcall, ?_⟩
    exact hblock _ (by rw [hbatch]; rfl)
  | drained hphase | drainReceived hphase => exact (h.phaseAt hphase).elim
  -- a block without a blob is one of the drain
  | @headRead blob b hphase =>
    have hp := h.phaseAt hphase
    cases blob with
    | none => exact hp.elim
    | some blob => exact h.pass (by simp only [note, hphase]) rfl rfl Finalizer.noConfusion hp
  | @asked reply blob b head tried next hphase =>
    have hp := h.phaseAt hphase
    cases blob with
    | none => exact hp.elim
    | some blob =>
      simp only [SequencerWorld.finalize, hphase] at hf
      split at hf
      · cases hf
        simp only [note, hphase]
        exact h.confirm hphase rfl
      · cases hf
        exact h.pass (by simp only [note, hphase, returned, SequencerProcess.finalize]) rfl rfl
          Finalizer.noConfusion hp
      · rename_i hvalid hsyncing
        exact absurd ⟨hvalid, hsyncing⟩ (hadvances blob b head tried hphase)
  -- the two failures that the hypothesis excludes
  | @refused reply blob b head tried hphase hreply =>
    cases blob with
    | none => exact (h.phaseAt hphase).elim
    | some blob => exact absurd hreply (hadvances blob b head tried hphase)
  | @failed blob b head tried hphase =>
    cases blob with
    | none => exact (h.phaseAt hphase).elim
    | some blob => exact absurd trivial (hadvances blob b head tried hphase)
  | @recorded blob b next hphase =>
    cases blob with
    | none => exact (h.phaseAt hphase).elim
    | some blob =>
      simp only [SequencerWorld.finalize, hphase, Option.some.injEq, Prod.mk.injEq,
        true_and] at hf
      rw [← hf]
      simp only [note, hphase]
      exact h.recorded hphase fun _ hcall => hcall
  | saved hphase | saveFailed hphase => exact h.next hphase rfl

/-- Any step of the finalizer. -/
theorem finalize_keeps (henv : env.daBatchSize ≤ u64Max) (h : t.Blocks p)
    (hup : p.shuttingDown = false) (hf : t.world.finalize env p f = some (w', p')) :
    Blocks { t.note f p p' with world := w'.run p' } p' ∧
      ((∀ blob b head tried, p.finalizer = .finalizing (some blob) b head tried →
        FailsAdvance f → t.Traceless) → t.Counts p →
          Counts { t.note f p p' with world := w'.run p' } p') := by
  by_cases hfails : ∃ blob b head tried,
      p.finalizer = .finalizing (some blob) b head tried ∧ FailsAdvance f
  · obtain ⟨blob, b, head, tried, hphase, hfails⟩ := hfails
    obtain ⟨hexec, rfl, hnote⟩ := finalize_fails hphase hfails hf
    rw [hnote]
    obtain ⟨hkept, hcounts⟩ := h.failed (w := w'.run _) hphase fun call hcall =>
      show call ∈ w'.executed from hexec ▸ hcall
    exact ⟨hkept, fun htrace => hcounts (htrace blob b head tried hphase hfails)⟩
  · obtain ⟨hkept, hcounts⟩ := finalize_keeps_of_advances henv h hup hf
      fun blob b head tried hphase hadvance => hfails ⟨blob, b, head, tried, hphase, hadvance⟩
    exact ⟨hkept, fun _ => hcounts⟩

end Steps

/-! ## The other steps -/

theorem produce_counters {a : SequencerWorld.ProduceAction}
    (h : SequencerWorld.ProduceStep env w p a w' p') :
    p'.batchBytes = p.batchBytes ∧ p'.shuttingDown = p.shuttingDown := by
  cases h <;> exact ⟨rfl, rfl⟩

theorem executed_land {call : SettleCall} {admitted : Bool} (hcall : call' ∈ w.executed) :
    call' ∈ (w.land call admitted).executed := by
  obtain he | ⟨-, -, he⟩ | ⟨inbox, -, -, he⟩ := SequencerWorld.land_cases w call admitted
  · rw [he]
    exact hcall
  · rw [he]
    exact List.mem_cons_of_mem _ hcall
  · rw [he]
    exact List.mem_cons_of_mem _ hcall

/-- A step that is none of the finalizer's and no start leaves it alone, or stops it. -/
theorem exec_frame {a : SequencerWorld.Action} (h : w.exec env a = some w')
    (hfinalize : ∀ f, a ≠ .finalize f) (hboot : ∀ discovered now readable,
      a ≠ .boot discovered now readable) (hp' : w'.process = some p')
    (hup : p'.shuttingDown = false) :
    ∃ p, w.process = some p ∧ p.shuttingDown = false ∧ p'.batch = p.batch ∧
      p'.batchBytes = p.batchBytes ∧ p'.finalizer = p.finalizer ∧
      ∀ call ∈ w.executed, call ∈ w'.executed := by
  cases SequencerWorld.exec_step h with
  | boot => exact absurd rfl (hboot _ _ _)
  | finalize => exact absurd rfl (hfinalize _)
  | crash => cases hp'
  | shutdown =>
    cases hp'
    cases hup
  | recover hp hr =>
    cases hp'
    obtain ⟨hbatch, hfinalizer, -, -, -, -, hexecuted, -⟩ := SequencerWorld.recover_finalizer hr
    obtain ⟨height, recovering, -, ⟨block, payload, -, -, -, rfl⟩ | ⟨-, rfl⟩⟩ :=
      SequencerWorld.recover_cases hr
    all_goals
      exact ⟨_, hp, hup, hbatch, rfl, hfinalizer, fun _ hcall => hexecuted ▸ hcall⟩
  | produce hp hs =>
    cases hp'
    obtain ⟨hbatch, hfinalizer, -, -, -, -, hexecuted, -⟩ := hs.frame
    obtain ⟨hbytes, hdown⟩ := produce_counters hs
    exact ⟨_, hp, hdown ▸ hup, hbatch, hbytes, hfinalizer, fun _ hcall => hexecuted ▸ hcall⟩
  | tracked | receipt | submitted | windowed =>
    exact ⟨p', hp', hup, rfl, rfl, rfl, fun _ hcall => hcall⟩
  | @landed call admitted =>
    have hsame := (SequencerWorld.land_frame w call admitted).2.1
    exact ⟨p', hsame ▸ hp', hup, rfl, rfl, rfl, fun _ hcall => executed_land hcall⟩

theorem finalize_up {f : SequencerWorld.FinalizeAction}
    (h : w.finalize env p f = some (w', p')) : p'.shuttingDown = p.shuttingDown := by
  cases SequencerWorld.finalize_step h with
  | @refused reply blob b head tried => cases blob <;> rfl
  | @failed blob b head tried => cases blob <;> rfl
  | saved | saveFailed =>
    rw [SequencerWorld.nextSettlement]
    split <;> rfl
  | _ => rfl

theorem exec_act {a : SequencerWorld.Action} (h : t.exec env (.act a) = some t') :
    ∃ w, t.world.exec { env with daFlush := t.timer.flushAfter.isSome } a = some w ∧
      t' = t.after a w := by
  simp only [exec, Option.ite_none_right_eq_some, Option.map_eq_some_iff] at h
  obtain ⟨-, w, hw, rfl⟩ := h
  exact ⟨w, hw, rfl⟩

/-- A step of the finalizer. -/
theorem exec_finalize {f : SequencerWorld.FinalizeAction}
    (h : t.exec env (.act (.finalize f)) = some t') :
    ∃ p w p', t.world.process = some p ∧
      t.world.finalize { env with daFlush := t.timer.flushAfter.isSome } p f = some (w, p') ∧
      p'.shuttingDown = p.shuttingDown ∧ t' = { t.note f p p' with world := w.run p' } := by
  obtain ⟨w, hw, rfl⟩ := exec_act h
  simp only [SequencerWorld.exec, Option.bind_eq_bind, Option.bind_eq_some_iff, Option.pure_def,
    Option.some.injEq] at hw
  obtain ⟨p, hp, ⟨w, p'⟩, hf, rfl⟩ := hw
  refine ⟨p, w, p', hp, hf, finalize_up hf, ?_⟩
  simp only [after, hp, SequencerWorld.run]

/-- A new process starts with an empty batch and the timer not armed. -/
theorem boot_books {discovered : B256} {now : Nat} {readable : Bool}
    (hw : w = t.world.boot env discovered now readable) (hp : w.process = some p) :
    Blocks (t.after (.boot discovered now readable) w) p ∧
      Counts (t.after (.boot discovered now readable) w) p := by
  subst hw
  cases hp
  refine ⟨⟨rfl, ?_, rfl, rfl⟩, rfl, ?_, fun _ => Nat.zero_le _⟩
  · intro a ha
    cases ha
  · show none = Option.bind t.timer.flushAfter fun _ => none
    cases t.timer.flushAfter <;> rfl

/-- A step of anything but the finalizer and no start. -/
theorem after_other {a : SequencerWorld.Action} (hfinalize : ∀ f, a ≠ .finalize f)
    (hboot : ∀ discovered now readable, a ≠ .boot discovered now readable) :
    t.after a w = { t with world := w } := by
  cases a with
  | finalize f => exact absurd rfl (hfinalize f)
  | boot discovered now readable => exact absurd rfl (hboot discovered now readable)
  | _ => rfl

/-! ## Every run -/

/-- The process after a step was just started, or is one whose blocks the step keeps in order, and
whose counts it keeps right unless a flush gives up late. -/
theorem exec_keeps {a : Action} (henv : env.daBatchSize ≤ u64Max)
    (hi : ∀ p, t.world.process = some p → p.shuttingDown = false → t.Blocks p)
    (h : t.exec env a = some t') (hp' : t'.world.process = some p')
    (hup' : p'.shuttingDown = false) :
    (t'.Blocks p' ∧ t'.Counts p') ∨ ∃ p, t.world.process = some p ∧ p.shuttingDown = false ∧
      t'.Blocks p' ∧ (t.FailsEarly a → t.Counts p → t'.Counts p') := by
  cases a with
  | wait elapsed =>
    cases h
    have hblocks := hi p' hp' hup'
    exact .inr ⟨p', hp', hup', ⟨hblocks.order, hblocks.left, hblocks.phase⟩,
      fun _ hc => ⟨hc.bytes, hc.timer, hc.fits⟩⟩
  | act a =>
    by_cases hfinalize : ∃ f, a = .finalize f
    · obtain ⟨f, rfl⟩ := hfinalize
      obtain ⟨p, w, q, hp, hw, hsame, rfl⟩ := exec_finalize h
      cases hp'
      rw [hsame] at hup'
      obtain ⟨hkept, hcounts⟩ := finalize_keeps (by exact henv) (hi p hp hup') hup' hw
      exact .inr ⟨p, hp, hup', hkept, fun hearly =>
        hcounts fun blob b head tried => hearly p blob b head tried hp hup'⟩
    · obtain ⟨w, hw, rfl⟩ := exec_act h
      have hother : ∀ f, a ≠ .finalize f := fun f heq => hfinalize ⟨f, heq⟩
      by_cases hboot : ∃ discovered now readable, a = .boot discovered now readable
      · obtain ⟨discovered, now, readable, rfl⟩ := hboot
        simp only [SequencerWorld.exec] at hw
        split at hw
        · cases hw
          exact .inl (boot_books rfl hp')
        · cases hw
      · have hrunning : ∀ discovered now readable, a ≠ .boot discovered now readable :=
          fun _ _ _ heq => hboot ⟨_, _, _, heq⟩
        rw [after_other hother hrunning] at hp' ⊢
        obtain ⟨p, hp, hup, hbatch, hbytes, hfinalizer, hexec⟩ :=
          exec_frame hw hother hrunning hp' hup'
        have hblocks := hi p hp hup
        have hphase : Phase { t with world := w } p'.batch p'.finalizer := by
          rw [hbatch, hfinalizer]
          exact hblocks.phase.mono hexec
        obtain ⟨hkept, hcounts⟩ :=
          hblocks.quiet hexec hbytes (fun hback => hfinalizer ▸ hback) hphase
        exact .inr ⟨p, hp, hup, hkept, fun _ => hcounts⟩

/-- Until shutdown is requested, whatever fails, the blocks are in order. -/
theorem reachable_blocks {flushAfter : Option Nat} (henv : env.daBatchSize ≤ u64Max)
    (h : Reachable (· = fresh flushAfter) (enabled (exec env)) t)
    (hp : t.world.process = some p) (hup : p.shuttingDown = false) : t.Blocks p := by
  have hinv : ∀ p, t.world.process = some p → p.shuttingDown = false → t.Blocks p := by
    refine h.inv (I := fun t => ∀ p, t.world.process = some p → p.shuttingDown = false →
      t.Blocks p) ?_ fun t a t' hi hst p' hp' hup' => ?_
    · intro t ht p hp
      rw [ht] at hp
      cases hp
    · obtain ⟨hblocks, -⟩ | ⟨p, -, -, hblocks, -⟩ := exec_keeps henv hi hst hp' hup'
      · exact hblocks
      · exact hblocks
  exact hinv p hp hup

/-- At the head of the loop the blocks that arrived are those that left, all settled and
finalized, and then the batch. -/
theorem reachable_ordered_batch {flushAfter : Option Nat} (henv : env.daBatchSize ≤ u64Max)
    (h : Reachable (· = fresh flushAfter) (enabled (exec env)) t)
    (hp : t.world.process = some p) (hup : p.shuttingDown = false)
    (hphase : p.finalizer = .receiving) :
    ∃ gone kept, t.arrived = gone ++ kept ∧ kept.map Prod.fst = p.batch ∧
      ∀ a ∈ gone, t.Settled a.1 ∧ a.1.blockHash ∈ t.confirmed := by
  exact ⟨t.gone, t.kept, (reachable_blocks henv h hp hup).at_head hphase⟩

/-- Until shutdown is requested, the blocks are in order and the counts right. -/
def Inv (t : TimedSequencer) : Prop :=
  ∀ p, t.world.process = some p → p.shuttingDown = false → t.Blocks p ∧ t.Counts p

theorem Inv.balanced (h : Inv t) : t.Balanced := by
  intro p hp hphase hup
  obtain ⟨hblocks, hcounts⟩ := h p hp hup
  exact hblocks.bookkept hcounts hphase

theorem inv_of_failsEarly {a : Action} (henv : env.daBatchSize ≤ u64Max) (hi : Inv t)
    (h : t.exec env a = some t') (hearly : t.FailsEarly a) : Inv t' := by
  intro p' hp' hup'
  obtain hbooks | ⟨p, hp, hup, hblocks, hcounts⟩ :=
    exec_keeps henv (fun p hp hup => (hi p hp hup).1) h hp' hup'
  · exact hbooks
  · exact ⟨hblocks, hcounts hearly (hi p hp hup).2⟩

/-- A flush that gives up with the books balanced had let go of no block that leaves a trace. -/
theorem failsEarly_of_balanced {a : Action} (hi : Inv t) (h : t.exec env a = some t')
    (hbalanced : t'.Balanced) : t.FailsEarly a := by
  cases a with
  | wait elapsed => trivial
  | act a =>
    cases a with
    | finalize f =>
      intro p blob b head tried hp hup hphase hfails
      obtain ⟨q, w, p', hq, hw, hsame, rfl⟩ := exec_finalize h
      cases hp.symm.trans hq
      obtain ⟨-, rfl, hnote⟩ := finalize_fails hphase hfails hw
      rw [hnote] at hbalanced
      obtain ⟨hblocks, hcounts⟩ := hi p hp hup
      exact hblocks.traceless hcounts hphase (hbalanced _ rfl rfl (hsame.trans hup))
    | _ => trivial

theorem inv_fresh {flushAfter : Option Nat} : Inv (fresh flushAfter) := by
  intro p hp
  cases hp

/-- The books are balanced after every step of a run if and only if no flush of it gives up
after blocks that leave a trace have left. -/
theorem balanced_iff_failsEarly {flushAfter : Option Nat} {as : List Action}
    (henv : env.daBatchSize ≤ u64Max) :
    Run (fun t a t' => enabled (exec env) t a t' ∧ t'.Balanced) (fresh flushAfter) as t ↔
      Run (guarded FailsEarly (enabled (exec env))) (fresh flushAfter) as t := by
  refine (run_guarded_iff (I := Inv) ?_ ?_ inv_fresh).symm
  · intro t a t' hi h
    constructor
    · intro hearly
      exact (inv_of_failsEarly henv hi h hearly).balanced
    · intro hbalanced
      exact failsEarly_of_balanced hi h hbalanced
  · intro t a t' hi h hearly
    exact inv_of_failsEarly henv hi h hearly

/-! ## Two blocks in one flush -/

def pairEnv : SequencerEnv := { smallEnv (fun _ => []) with daBatchSize := 2 }

def acts (as : List SequencerWorld.Action) : List Action := as.map .act

/-- Two blocks arrive one after the other and are published, and the first one is settled. -/
def flushOfTwo : List Action :=
  acts (.boot (.repeated 0) 0 true :: SequencerWorld.wholePass payload1 ++
    SequencerWorld.wholePass payload2 ++ [.finalize .receive]) ++ [.wait 1] ++
  acts (SequencerWorld.publishAndCall ++ [.land ⟨SequencerWorld.block1, [], 0⟩ true,
    .finalize (.reply true), .finalize .readHead])

/-- Its finalization is refused. -/
def firstRefused : List Action := flushOfTwo ++ [.act (.finalize (.forkchoice none))]

/-- It is finalized, the second one is settled, and that one's finalization is refused. -/
def secondRefused : List Action := flushOfTwo ++
  acts [.finalize (.forkchoice (some .valid)), .finalize .record, .finalize (.clear true),
    .finalize .snapshot, .finalize (.save true), .finalize (.gate true),
    .finalize (.readCursor true), .finalize .call,
    .land ⟨SequencerWorld.block2, [], 0⟩ true, .finalize (.reply true), .finalize .readHead,
    .finalize (.forkchoice none)]

def afterFirstRefused : TimedSequencer :=
  (execAll (exec pairEnv) (fresh (some 5)) firstRefused).getD (fresh none)

/-- A check that a step fails early. -/
def failsEarly (t : TimedSequencer) : Action → Bool
  | .act (.finalize a) => FailsAdvance a → t.Traceless
  | _ => true

theorem failsEarly_sound (t : TimedSequencer) (a : Action) (h : t.failsEarly a) :
    t.FailsEarly a := by
  cases a with
  | wait elapsed => trivial
  | act a =>
    cases a with
    | finalize a => exact fun _ _ _ _ _ _ _ _ hfails => of_decide_eq_true h hfails
    | _ => trivial

theorem balanced_iff_failsEarly_first : pairEnv.daBatchSize ≤ u64Max ∧
    Run (fun t a t' => enabled (exec pairEnv) t a t' ∧ t'.Balanced) (fresh (some 5)) firstRefused
      afterFirstRefused := by
  have hrun : Run (guarded FailsEarly (enabled (exec pairEnv))) (fresh (some 5)) firstRefused
      afterFirstRefused := run_of_check failsEarly_sound rfl
  exact ⟨by decide, (balanced_iff_failsEarly (by decide)).2 hrun⟩

def afterSecondRefused : TimedSequencer :=
  (execAll (exec pairEnv) (fresh (some 5)) secondRefused).getD (fresh none)

def processAfterRefusal : SequencerProcess := afterSecondRefused.world.process.get rfl

theorem second_refused_unbalanced :
    Run (enabled (exec pairEnv)) (fresh (some 5)) secondRefused afterSecondRefused ∧
      afterSecondRefused.kept.map (fun a => (a.1.height, a.2)) = [(2, 1)] ∧
      afterSecondRefused.timer.deadline = some 5 ∧ processAfterRefusal.batchBytes = 2 ∧
      (processAfterRefusal.batch.map (·.block.data.length)).sum = 1 ∧
      ¬afterSecondRefused.Balanced := by
  have hrun : Run (enabled (exec pairEnv)) (fresh (some 5)) secondRefused afterSecondRefused :=
    run_of_execAll rfl
  refine ⟨hrun, rfl, rfl, rfl, rfl, fun hbalanced => ?_⟩
  have hbooks : afterSecondRefused.Bookkept processAfterRefusal := hbalanced _ rfl rfl rfl
  exact absurd hbooks.bytes (by decide)

end TimedSequencer

end Podseq.Node
