import Podseq.Node.BlockPerHeight
import Podseq.Node.InclusionTruth

/-! # What the contract prunes

The cursor passed with a block counts the markers there are when it is read, also those of
blocks built after it. Where it counts no others than those of the block to settle and the
blocks below, and neither a marker nor a block handed to the finalizer is left above the head,
every nonce the contract has pruned is of a transaction in a settled block.
-/
namespace Podseq.Node
open Podseq.Lib Podseq.Move

namespace SequencerWorld

variable {env : SequencerEnv} {w w' : SequencerWorld} {p p' : SequencerProcess}

/-! ## From the producer to the contract -/

/-- What is settled, or about to be, was handed to the finalizer, and every height up to the
latest one is settled. -/
structure Delivered (w : SequencerWorld) : Prop where
  waits : ∀ p, w.process = some p → ∀ b ∈ waiting p, b.block ∈ w.queued
  inFlight : ∀ call ∈ w.inFlight, call.block ∈ w.queued
  settled : ∀ block ∈ w.settled, block ∈ w.queued ∧
    block.header.height ≤ w.registry.latestHeight
  every : ∀ height, 0 < height → height ≤ w.registry.latestHeight →
    ∃ block ∈ w.settled, block.header.height = height

theorem Delivered.congr (hw : Delivered w) (hqueued : ∀ block ∈ w.queued, block ∈ w'.queued)
    (hinFlight : w'.inFlight = w.inFlight) (hsettled : w'.settled = w.settled)
    (hregistry : w'.registry = w.registry)
    (hwaiting : ∀ p, w'.process = some p → ∀ b ∈ waiting p, b.block ∈ w'.queued) :
    Delivered w' := by
  refine ⟨hwaiting, ?_, ?_, ?_⟩
  · rw [hinFlight]
    exact fun call hcall => hqueued _ (hw.inFlight call hcall)
  · rw [hsettled, hregistry]
    exact fun block hblock => ⟨hqueued _ (hw.settled block hblock).1,
      (hw.settled block hblock).2⟩
  · rw [hsettled, hregistry]
    exact hw.every

theorem Delivered.produce {a : ProduceAction} (hw : Delivered w) (hp : w.process = some p)
    (h : ProduceStep env w p a w' p') : Delivered (w'.run p') := by
  obtain ⟨-, -, hregistry, -, hinFlight, -, -, hsettled, -⟩ := h.frame
  have hold := hw.waits p hp
  have hkeep : w'.queued = w.queued → waiting p' = waiting p → Delivered (w'.run p') := by
    intro hqueued hwaiting
    refine hw.congr (fun block hblock => ?_) hinFlight hsettled hregistry fun q hq b hb => ?_
    · exact (congrArg (block ∈ ·) hqueued).mpr hblock
    · cases hq
      exact (congrArg (b.block ∈ ·) hqueued).mpr (hold b (hwaiting ▸ hb))
  cases h with
  | @sent b hphase =>
    refine hw.congr (fun _ => List.mem_cons_of_mem _) rfl rfl rfl fun q hq c hc => ?_
    cases hq
    rcases mem_waiting_queue hc rfl rfl rfl with rfl | hc
    · exact List.mem_cons_self
    · exact List.mem_cons_of_mem _ (hold c hc)
  | _ => exact hkeep rfl rfl

theorem Delivered.finalize {a : FinalizeAction} (hw : Delivered w) (hp : w.process = some p)
    (h : FinalizeStep env w p a w' p') : Delivered (w'.run p') := by
  have hold := hw.waits p hp
  have hwaiting : ∀ b ∈ waiting p', b.block ∈ w.queued := fun b hb =>
    hold b (h.waiting_subset hb)
  cases h with
  | @called blob tracked b batch hphase hbatch =>
    refine ⟨fun q hq => ?_, fun call hcall => ?_, hw.settled, hw.every⟩
    · cases hq
      exact hwaiting
    · rcases List.mem_cons.1 hcall with rfl | hcall
      · refine hold b ?_
        simp only [waiting, hbatch, List.mem_append, List.mem_cons, true_or, or_true]
      · exact hw.inFlight call hcall
  | _ =>
    refine hw.congr (fun _ => id) rfl rfl rfl fun q hq => ?_
    cases hq
    exact hwaiting

theorem Delivered.land {call : SettleCall} {admitted : Bool} (hw : Delivered w)
    (hmem : call ∈ w.inFlight) : Delivered (w.land call admitted) := by
  have herase : ∀ c ∈ w.inFlight.erase call, c.block ∈ w.queued := fun c hc =>
    hw.inFlight c (List.mem_of_mem_erase hc)
  obtain he | ⟨-, -, he⟩ | ⟨inbox, hheight, -, he⟩ := land_cases w call admitted
  · rw [he]
    exact ⟨hw.waits, herase, hw.settled, hw.every⟩
  · rw [he]
    exact ⟨hw.waits, herase, hw.settled, hw.every⟩
  · rw [he]
    refine ⟨hw.waits, herase, fun block hblock => ?_, fun height hpos hle => ?_⟩
    · rcases List.mem_cons.1 hblock with rfl | hblock
      · exact ⟨hw.inFlight call hmem, Nat.le_refl _⟩
      · have := (hw.settled block hblock).2
        exact ⟨(hw.settled block hblock).1, by dsimp only; omega⟩
    · dsimp only at hle
      rcases Nat.lt_or_ge w.registry.latestHeight height with hlt | hge
      · exact ⟨call.block, List.mem_cons_self, by omega⟩
      · obtain ⟨block, hblock, heq⟩ := hw.every height hpos hge
        exact ⟨block, List.mem_cons_of_mem _ hblock, heq⟩

theorem reachable_delivered (h : Reachable (· = fresh) (enabled (exec env)) w) : Delivered w := by
  refine h.inv ?_ fun w a w' hw hs => ?_
  · rintro _ rfl
    exact ⟨fun p hp => (by cases hp), fun _ hc => (by cases hc), fun _ hb => (by cases hb),
      fun height hpos hle => absurd hle (Nat.not_le.2 hpos)⟩
  · cases exec_step hs with
    | boot =>
      refine hw.congr (fun _ => id) rfl rfl rfl fun q hq b hb => ?_
      cases hq
      cases hb
    | recover hp hr =>
      obtain ⟨_, _, -, ⟨block, payload, -, -, rfl, rfl⟩ | ⟨rfl | rfl, rfl⟩⟩ := recover_cases hr
      · refine hw.congr (fun _ => List.mem_cons_of_mem _) rfl rfl rfl fun q hq c hc => ?_
        cases hq
        rcases mem_waiting_queue hc rfl rfl rfl with rfl | hc
        · exact List.mem_cons_self
        · exact List.mem_cons_of_mem _ (hw.waits _ hp c hc)
      all_goals
        refine hw.congr (fun _ => id) rfl rfl rfl fun q hq b hb => ?_
        cases hq
        exact hw.waits _ hp b hb
    | crash => exact hw.congr (fun _ => id) rfl rfl rfl fun q hq => by cases hq
    | shutdown hp =>
      refine hw.congr (fun _ => id) rfl rfl rfl fun q hq b hb => ?_
      cases hq
      exact hw.waits _ hp b hb
    | produce hp hr => exact hw.produce hp hr
    | finalize hp hr => exact hw.finalize hp hr
    | tracked | receipt | submitted | windowed =>
      exact hw.congr (fun _ => id) rfl rfl rfl hw.waits
    | landed hmem => exact hw.land hmem

/-! ## The blocks of the node's chain -/

/-- The block was made of a payload on the chain that ends in `head`. -/
def ChainBlock (env : SequencerEnv) (head : B256) (block : Block) : Prop :=
  ∃ payload, env.tree.OnChain head payload ∧ signedBlock env payload = some block

/-- The block that recovery queues again is one of the node's chain. -/
def RecoversChain (env : SequencerEnv) (w : SequencerWorld) : Action → Prop
  | .recover _ => ∀ p block, w.process = some p →
      p.recovering.head?.bind w.disk.blocks.get = some block → ChainBlock env (chainEnd p) block
  | _ => True

/-- The cursor read counts the nonces that were pruned before, and others that are marked in
the block to settle or below. -/
def CountsSettled (w : SequencerWorld) : Action → Prop
  | .finalize (.readCursor true) => ∀ p, w.process = some p → ∀ b ∈ p.batch.head?, ∀ nonce,
      w.inbox.includedCount ≤ nonce → nonce < InboxTracker.settleCursor w.disk.inbox →
        ∃ height ≤ b.block.header.height, Marked w nonce height
  | _ => True

/-- When a step leaves every pruned nonce settled. -/
structure PrunesSettled (env : SequencerEnv) (w : SequencerWorld) (a : Action) : Prop where
  markers : KeepsMarkers env w a
  /-- The chain is not taken back below a block that was handed to the finalizer. -/
  queued : ∀ head, fallback env w a = some head →
    ∀ block ∈ w.queued, block.header.height ≤ env.tree.number head
  recovers : RecoversChain env w a
  cursor : CountsSettled w a

/-- Where a block handed to the finalizer comes from. -/
theorem queued_cases {a : Action} {block : Block} (h : enabled (exec env) w a w')
    (hblock : block ∈ w'.queued) : block ∈ w.queued ∨
    (∃ p b, w.process = some p ∧ p.producer = .sending b ∧ block = b.block ∧ w'.tip = w.tip) ∨
    ∃ p cleared, a = .recover cleared ∧ w.process = some p ∧
      p.recovering.head?.bind w.disk.blocks.get = some block ∧ w'.tip = w.tip := by
  cases exec_step h with
  | recover hp hr =>
    obtain ⟨_, _, hrecovering, ⟨block', payload, hget, -, rfl, rfl⟩ | ⟨rfl | rfl, rfl⟩⟩ :=
      recover_cases hr
    · rcases List.mem_cons.1 hblock with rfl | hblock
      · refine .inr (.inr ⟨_, _, rfl, hp, ?_, rfl⟩)
        rw [hrecovering]
        exact hget
      · exact .inl hblock
    · exact .inl hblock
    · exact .inl hblock
  | produce hp hr =>
    cases hr with
    | sent hphase =>
      rcases List.mem_cons.1 hblock with rfl | hblock
      · exact .inr (.inl ⟨_, _, hp, hphase, rfl, rfl⟩)
      · exact .inl hblock
    | _ => exact .inl hblock
  | finalize hp hr => exact .inl (hr.sameBlocks.queued ▸ hblock)
  | landed => exact .inl ((land_frame w _ _).1.queued ▸ hblock)
  | boot | crash | shutdown | tracked | receipt | submitted | windowed => exact .inl hblock

/-- The blocks handed to the finalizer are those of the node's chain. -/
def Rooted (env : SequencerEnv) (w : SequencerWorld) : Prop :=
  ∀ block ∈ w.queued, ∃ tip, w.tip = some tip ∧ ChainBlock env tip block

theorem Rooted.step {a : Action} (hr : Rooted env w) (hw : Chained env w)
    (hfits : ∀ p, w.process = some p → Fits env p.state.head p.producer)
    (hok : PrunesSettled env w a) (h : enabled (exec env) w a w') : Rooted env w' := by
  intro block hblock
  obtain hblock | ⟨p, b, hp, hphase, rfl, htip'⟩ | ⟨p, cleared, rfl, hp, hget, htip'⟩ :=
    queued_cases h hblock
  · obtain ⟨tip, htip, payload, hchain, hsigned⟩ := hr block hblock
    obtain ⟨tip', htip', hline⟩ := tip_moves hw hfits hok.markers.resumes h htip
    refine ⟨tip', htip', payload, ?_, hsigned⟩
    rcases hline with hup | ⟨hdown, hfallback⟩
    · exact hchain.of_below hup
    · refine hchain.of_line (.inl hdown) ?_
      rw [← signedBlock_height hsigned]
      exact hok.queued tip' hfallback block hblock
  · have hf := hfits p hp
    have htip := (hw.running p hp).tip
    rw [hphase] at hf
    simp only [chainEnd, hphase] at htip
    obtain ⟨payload, ⟨hhash, hpayload⟩, hmade⟩ := hf
    refine ⟨p.state.head, htip'.trans htip, payload, ⟨?_, ?_⟩, hmade.block⟩
    · rw [hhash]
      exact hpayload
    · rw [hhash]
      exact .refl
  · exact ⟨_, htip'.trans (hw.running p hp).tip, hok.recovers p block hp hget⟩

/-! ## The cursor -/

/-- Where a settle transaction comes from, and what an executed one changes. -/
theorem chain_cases {a : Action} (h : enabled (exec env) w a w') :
    (∃ call admitted, call ∈ w.inFlight ∧ w' = w.land call admitted) ∨
    (w'.registry = w.registry ∧ w'.settled = w.settled ∧
      w'.inbox.includedCount = w.inbox.includedCount ∧
      ∀ call ∈ w'.inFlight, call ∈ w.inFlight ∨ ∃ p blob tracked b batch, w.process = some p ∧
        p.finalizer = .submitting blob tracked ∧ p.batch = b :: batch ∧
        call = w.settleCall b blob tracked) := by
  cases exec_step h with
  | recover hp hr =>
    obtain ⟨-, -, hregistry, hinbox, hinFlight, -, -, hsettled, -⟩ := recover_finalizer hr
    refine .inr ⟨hregistry, hsettled, congrArg _ hinbox, fun call hcall => .inl ?_⟩
    exact hinFlight ▸ hcall
  | produce hp hr =>
    obtain ⟨-, -, hregistry, hinbox, hinFlight, -, -, hsettled, -⟩ := hr.frame
    refine .inr ⟨hregistry, hsettled, congrArg _ hinbox, fun call hcall => .inl ?_⟩
    exact hinFlight ▸ hcall
  | finalize hp hr =>
    refine .inr ?_
    cases hr with
    | called hphase hbatch =>
      refine ⟨rfl, rfl, rfl, fun call hcall => ?_⟩
      rcases List.mem_cons.1 hcall with rfl | hcall
      · exact .inr ⟨_, _, _, _, _, hp, hphase, hbatch, rfl⟩
      · exact .inl hcall
    | _ => exact ⟨rfl, rfl, rfl, fun _ => .inl⟩
  | submitted hs =>
    obtain ⟨-, -, -, -, rfl⟩ := Inbox.submit_eq_ok.1 hs
    exact .inr ⟨rfl, rfl, rfl, fun _ => .inl⟩
  | windowed hs => exact .inr ⟨rfl, rfl, hs.includedCount, fun _ => .inl⟩
  | landed hmem => exact .inl ⟨_, _, hmem, rfl⟩
  | boot | crash | shutdown | tracked | receipt => exact .inr ⟨rfl, rfl, rfl, fun _ => .inl⟩

/-- What an executed settle transaction does to the cursor. -/
theorem land_includedCount (w : SequencerWorld) (call : SettleCall) (admitted : Bool) :
    (w.land call admitted).inbox.includedCount = w.inbox.includedCount ∨
      (w.land call admitted).inbox.includedCount = call.cursor ∧
        w.inbox.includedCount ≤ call.cursor ∧
        (w.land call admitted).registry.latestHeight = call.block.header.height := by
  obtain he | ⟨-, -, he⟩ | ⟨inbox, hheight, hs, he⟩ := land_cases w call admitted
  · rw [he]
    exact .inl rfl
  · rw [he]
    exact .inl rfl
  · obtain ⟨hle, -, -, -, -, rfl⟩ := Inbox.enforceSettle_eq_ok.1 hs
    rw [he]
    exact .inr ⟨rfl, hle, rfl⟩

theorem includedCount_step {a : Action} (h : enabled (exec env) w a w') :
    w.inbox.includedCount ≤ w'.inbox.includedCount := by
  obtain ⟨call, admitted, -, rfl⟩ | ⟨-, -, hcount, -⟩ := chain_cases h
  · obtain hcount | ⟨hcount, hle, -⟩ := land_includedCount w call admitted
    · exact hcount.ge
    · omega
  · exact hcount.ge

/-- Each nonce below `cursor` is pruned, or its transaction is in a block of the node's chain at
`height` or below. -/
def Accounted (env : SequencerEnv) (w : SequencerWorld) (cursor height : Nat) : Prop :=
  ∀ nonce < cursor, nonce < w.inbox.includedCount ∨
    ∃ m ≤ height, ∃ tip, w.tip = some tip ∧ HasTransaction env w tip nonce m

theorem Accounted.step {a : Action} {cursor height : Nat} (ha : Accounted env w cursor height)
    (hw : Chained env w) (hfits : ∀ p, w.process = some p → Fits env p.state.head p.producer)
    (hresumes : ResumesOnLine env w a) (h : enabled (exec env) w a w')
    (hkeep : ∀ head, fallback env w a = some head → height ≤ env.tree.number head) :
    Accounted env w' cursor height := by
  intro nonce hnonce
  rcases ha nonce hnonce with hlt | ⟨m, hm, tip, htip, ht⟩
  · exact .inl (Nat.lt_of_lt_of_le hlt (includedCount_step h))
  · exact .inr ⟨m, hm, ht.step hw hfits hresumes h htip fun head hhead =>
      Nat.le_trans hm (hkeep head hhead)⟩

/-- The transaction of `nonce` is in a settled block. -/
def SettledTransaction (env : SequencerEnv) (w : SequencerWorld) (nonce : Nat) : Prop :=
  ∃ block ∈ w.settled, block.header.height ≤ w.registry.latestHeight ∧
    ∃ payload bytes, env.decode block.data = some payload ∧
      w.submissions[nonce]? = some bytes ∧ bytes ∈ payload.transactions

theorem SettledTransaction.step {a : Action} {nonce : Nat} (ht : SettledTransaction env w nonce)
    (h : enabled (exec env) w a w') : SettledTransaction env w' nonce := by
  obtain ⟨block, hblock, hle, payload, bytes, hdecode, hbytes, hmem⟩ := ht
  have hbytes' := submissions_step h hbytes
  have hkept : w'.settled = w.settled → w'.registry = w.registry →
      SettledTransaction env w' nonce := by
    intro hsettled hregistry
    exact ⟨block, hsettled ▸ hblock, hregistry ▸ hle, payload, bytes, hdecode, hbytes', hmem⟩
  obtain ⟨call, admitted, -, rfl⟩ | ⟨hregistry, hsettled, -, -⟩ := chain_cases h
  · obtain he | ⟨-, -, he⟩ | ⟨inbox, hheight, -, he⟩ := land_cases w call admitted
    · exact hkept (by rw [he]) (by rw [he])
    · exact hkept (by rw [he]) (by rw [he])
    · refine ⟨block, ?_, ?_, payload, bytes, hdecode, hbytes', hmem⟩
      · rw [he]
        exact List.mem_cons_of_mem _ hblock
      · rw [he]
        dsimp only
        omega
  · exact hkept hsettled hregistry

/-- What was written of a payload of the tree is read back. -/
def RoundTrips (env : SequencerEnv) : Prop :=
  ∀ hash payload data, env.tree.payloadOf hash = some payload →
    env.encode payload = some data → env.decode data = some payload

theorem signedBlock_data {payload : ExecutionPayload} {block : Block}
    (h : signedBlock env payload = some block) : env.encode payload = some block.data := by
  simp only [signedBlock, payloadIntoBlock, Option.bind_eq_bind, Option.bind_eq_some_iff,
    Option.map_eq_some_iff, Option.pure_def, Option.some.injEq] at h
  obtain ⟨block, ⟨data, hdata, rfl⟩, signature, -, rfl⟩ := h
  exact hdata

/-- What the settled heights of the node's chain contain is settled. -/
theorem HasTransaction.settled {tip : B256} {nonce height : Nat} (hroundTrips : RoundTrips env)
    (hd : Delivered w) (hr : Rooted env w) (htip : w.tip = some tip)
    (ht : HasTransaction env w tip nonce height) (hle : height ≤ w.registry.latestHeight) :
    SettledTransaction env w nonce := by
  obtain ⟨payload, bytes, hchain, rfl, hbytes, hmem⟩ := ht
  obtain ⟨block, hblock, hheight⟩ := hd.every _ hchain.blockNumber_pos hle
  obtain ⟨tip', htip', payload', hchain', hsigned⟩ := hr block (hd.settled block hblock).1
  cases htip.symm.trans htip'
  obtain rfl := hchain.unique hchain' (hheight.symm.trans (signedBlock_height hsigned))
  exact ⟨block, hblock, (hd.settled block hblock).2, payload, bytes,
    hroundTrips _ _ _ hchain.1 (signedBlock_data hsigned), hbytes, hmem⟩

/-- What the cursors on their way to the contract count. -/
structure Pruning (env : SequencerEnv) (w : SequencerWorld) : Prop where
  inFlight : ∀ call ∈ w.inFlight, Accounted env w call.cursor call.block.header.height
  submitting : ∀ p blob cursor, w.process = some p →
    p.finalizer = .submitting blob (some cursor) → ∀ b ∈ p.batch.head?,
      Accounted env w cursor b.block.header.height
  pruned : ∀ nonce < w.inbox.includedCount, SettledTransaction env w nonce

/-- The finalizer holds a cursor that it held before, or has just read it. -/
theorem submitting_cases {a : Action} {blob : Bytes} {cursor : Nat}
    (h : enabled (exec env) w a w') (hp' : w'.process = some p')
    (hphase : p'.finalizer = .submitting blob (some cursor)) :
    ∃ p, w.process = some p ∧ p'.batch = p.batch ∧
      (p.finalizer = .submitting blob (some cursor) ∨
        a = .finalize (.readCursor true) ∧ cursor = InboxTracker.settleCursor w.disk.inbox) := by
  cases exec_step h with
  | boot =>
    cases hp'
    cases hphase
  | recover hp hr =>
    cases hp'
    obtain ⟨hbatch, hfinalizer, -⟩ := recover_finalizer hr
    exact ⟨_, hp, hbatch, .inl (hfinalizer ▸ hphase)⟩
  | crash => cases hp'
  | shutdown hp =>
    cases hp'
    exact ⟨_, hp, rfl, .inl hphase⟩
  | produce hp hr =>
    cases hp'
    obtain ⟨hbatch, hfinalizer, -⟩ := hr.frame
    exact ⟨_, hp, hbatch, .inl (hfinalizer ▸ hphase)⟩
  | finalize hp hr =>
    cases hp'
    cases hr with
    | @cursorRead readable _ _ =>
      cases readable with
      | true =>
        cases hphase
        exact ⟨_, hp, rfl, .inr ⟨rfl, rfl⟩⟩
      | false => cases hphase
    | publishFailed => exact ⟨_, hp, rfl, .inl hphase⟩
    | received _ _ hnext => obtain rfl | rfl := hnext <;> cases hphase
    | asked _ hnext => obtain rfl | rfl := hnext <;> cases hphase
    | @refused _ blob' _ _ _ _ => cases blob' <;> cases hphase
    | @failed blob' _ _ _ _ => cases blob' <;> cases hphase
    | recorded _ hnext => obtain ⟨_, -, rfl⟩ | rfl := hnext <;> cases hphase
    | saved | saveFailed =>
      unfold nextSettlement at hphase
      split at hphase <;> cases hphase
    | _ => cases hphase
  | landed => exact ⟨p', (land_frame w _ _).2.1 ▸ hp', rfl, .inl hphase⟩
  | tracked | receipt | submitted | windowed => exact ⟨p', hp', rfl, .inl hphase⟩

/-- The block to settle was handed to the finalizer. -/
theorem Delivered.front {b : PendingBlock} (hd : Delivered w) (hp : w.process = some p)
    (hb : b ∈ p.batch.head?) : b.block ∈ w.queued := by
  refine hd.waits p hp b ?_
  simp only [waiting, List.mem_append]
  exact .inl (.inr (List.mem_of_mem_head? hb))

/-- The cursor that goes out with a block is the one read for it, or the floor. -/
theorem Accounted.settleCall {b : PendingBlock} {blob : Bytes} {tracked : Option Nat}
    (h : ∀ cursor, tracked = some cursor → Accounted env w cursor b.block.header.height) :
    Accounted env w (w.settleCall b blob tracked).cursor b.block.header.height := by
  intro nonce hnonce
  simp only [SequencerWorld.settleCall, InboxTracker.commitCursor, lt_sup_iff] at hnonce
  rcases hnonce with hlt | hlt
  · cases tracked with
    | some cursor => exact h cursor rfl nonce hlt
    | none => exact .inl hlt
  · exact .inl hlt

theorem Pruning.step {a : Action} (hpr : Pruning env w) (hroundTrips : RoundTrips env)
    (hd : Delivered w) (hd' : Delivered w') (hr' : Rooted env w') (ht : Truthful env w)
    (hw : Chained env w) (hfits : ∀ p, w.process = some p → Fits env p.state.head p.producer)
    (hok : PrunesSettled env w a) (h : enabled (exec env) w a w') : Pruning env w' := by
  -- what a cursor counts stays in the chain, as the block it goes with does
  have hkeep : ∀ {cursor : Nat} {block : Block}, block ∈ w.queued →
      Accounted env w cursor block.header.height →
      Accounted env w' cursor block.header.height := fun hblock ha =>
    ha.step hw hfits hok.markers.resumes h fun head hhead => hok.queued head hhead _ hblock
  refine ⟨fun call hcall => ?_, fun p' blob cursor hp' hphase b hb => ?_, fun nonce hnonce => ?_⟩
  · obtain ⟨landed, admitted, -, rfl⟩ | ⟨-, -, -, hcalls⟩ := chain_cases h
    · have hmem : call ∈ w.inFlight := by
        obtain he | ⟨-, -, he⟩ | ⟨inbox, -, -, he⟩ := land_cases w landed admitted
        all_goals
          rw [he] at hcall
          exact List.mem_of_mem_erase hcall
      exact hkeep (hd.inFlight call hmem) (hpr.inFlight call hmem)
    · rcases hcalls call hcall with hmem | ⟨p, blob, tracked, b, batch, hp, hphase, hbatch, rfl⟩
      · exact hkeep (hd.inFlight call hmem) (hpr.inFlight call hmem)
      · have hb : b ∈ p.batch.head? := by
          rw [hbatch]
          exact rfl
        have hread : ∀ cursor, tracked = some cursor →
            Accounted env w cursor b.block.header.height := fun cursor htracked =>
          hpr.submitting p blob cursor hp (htracked ▸ hphase) b hb
        exact hkeep (hd.front hp hb) (Accounted.settleCall hread)
  · obtain ⟨p, hp, hbatch, hread⟩ := submitting_cases h hp' hphase
    rw [hbatch] at hb
    refine hkeep (hd.front hp hb) ?_
    rcases hread with hread | ⟨rfl, rfl⟩
    · exact hpr.submitting p blob cursor hp hread b hb
    · intro nonce hnonce
      rcases Nat.lt_or_ge nonce w.inbox.includedCount with hlt | hge
      · exact .inl hlt
      · obtain ⟨height, hheight, hmarked⟩ := hok.cursor p hp b hb nonce hge hnonce
        exact .inr ⟨height, hheight, ht nonce height hmarked⟩
  · rcases Nat.lt_or_ge nonce w.inbox.includedCount with hlt | hge
    · exact (hpr.pruned nonce hlt).step h
    · obtain ⟨call, admitted, hmem, rfl⟩ | ⟨-, -, hcount, -⟩ := chain_cases h
      · obtain hcount | ⟨hcount, -, hlatest⟩ := land_includedCount w call admitted
        · omega
        · rcases hpr.inFlight call hmem nonce (hcount ▸ hnonce) with hlt | ⟨m, hm, tip, htip, htx⟩
          · omega
          · obtain ⟨tip', htip', htx'⟩ := htx.step hw hfits hok.markers.resumes h htip
              fun head hhead => Nat.le_trans hm (hok.queued head hhead _ (hd.inFlight call hmem))
            exact htx'.settled hroundTrips hd' hr' htip' (hlatest ▸ hm)
      · omega

theorem reachable_pruning (hroundTrips : RoundTrips env)
    (h : Reachable (· = fresh) (guarded (PrunesSettled env) (enabled (exec env))) w) :
    Rooted env w ∧ Pruning env w := by
  have hmarkers : ∀ {w : SequencerWorld},
      Reachable (· = fresh) (guarded (PrunesSettled env) (enabled (exec env))) w →
      Truthful env w := fun h =>
    reachable_truthful (h.mono fun _ _ _ hs => ⟨hs.1.markers, hs.2⟩)
  refine h.inv_of (I := fun w => Rooted env w ∧ Pruning env w)
    (J := fun w => Delivered w ∧ Truthful env w ∧ Chained env w ∧
      ∀ p, w.process = some p → Fits env p.state.head p.producer) ?_ ?_ ?_
  · exact fun w hw => ⟨reachable_delivered hw.of_guarded, hmarkers hw,
      reachable_chained hw.of_guarded, fun p hp => reachable_fits hw.of_guarded hp⟩
  · rintro _ rfl
    exact ⟨fun _ hb => (by cases hb), fun _ hc => (by cases hc),
      fun p _ _ hp => (by cases hp), fun nonce hn => absurd hn (Nat.not_lt_zero nonce)⟩
  · rintro w a w' ⟨hd, ht, hw, hfits⟩ ⟨hd', -⟩ ⟨hr, hpr⟩ hs
    have hr' := hr.step hw hfits hs.1 hs.2
    exact ⟨hr', hpr.step hroundTrips hd hd' hr' ht hw hfits hs.1 hs.2⟩

/-- In a run whose steps meet the condition, every nonce below the cursor of the contract is
of a transaction in a settled block. -/
theorem pruned_settled (hroundTrips : RoundTrips env)
    (h : Reachable (· = fresh) (guarded (PrunesSettled env) (enabled (exec env))) w)
    {nonce : Nat} (hpruned : nonce < w.inbox.includedCount) : SettledTransaction env w nonce :=
  (reachable_pruning hroundTrips h).2.pruned nonce hpruned

/-! ## Runs -/

/-- A check of the condition, for steps that read no receipt and recover no block. -/
def checkPrunes (env : SequencerEnv) (w : SequencerWorld) (a : Action) : Bool :=
  checkMarkers env w a &&
  ((fallback env w a).all fun head => w.queued.all fun block =>
    block.header.height ≤ env.tree.number head) &&
  match a with
  | .recover _ => false
  | .finalize (.readCursor true) => w.process.all fun p => p.batch.head?.all fun b =>
      (List.range (InboxTracker.settleCursor w.disk.inbox)).all fun nonce =>
        nonce < w.inbox.includedCount || match w.disk.inbox.get nonce with
          | some (.included height _) => height ≤ b.block.header.height
          | _ => false
  | _ => true

theorem prunesSettled_of_check {a : Action} (h : checkPrunes env w a) : PrunesSettled env w a := by
  obtain ⟨h, ha⟩ := Bool.and_eq_true_iff.1 h
  obtain ⟨hmarkers, hqueued⟩ := Bool.and_eq_true_iff.1 h
  refine ⟨keepsMarkers_of_check hmarkers, ?_, ?_, ?_⟩
  · intro head hhead block hblock
    rw [hhead, Option.all_some, List.all_eq_true] at hqueued
    simpa using hqueued block hblock
  · cases a with
    | recover => cases ha
    | _ => trivial
  · cases a with
    | finalize a =>
      cases a with
      | readCursor readable =>
        cases readable with
        | true =>
          intro p hp b hb nonce hge hlt
          simp only [hp, Option.all_some, Option.mem_def.1 hb, List.all_eq_true, List.mem_range,
            Bool.or_eq_true, decide_eq_true_eq] at ha
          rcases ha nonce hlt with hpruned | hmarked
          · omega
          · split at hmarked
            · rename_i height txHash hget
              exact ⟨height, of_decide_eq_true hmarked, txHash, hget⟩
            · cases hmarked
        | false => trivial
      | _ => trivial
    | _ => trivial

theorem roundTrips_smallEnv (blobId : List Block → Bytes) : RoundTrips (smallEnv blobId) := by
  intro hash payload data hpayload hdata
  cases hdata
  have hmem : payload ∈ smallPayloads := BlockTree.mem_of_find hpayload
  simp only [smallPayloads, List.mem_cons, List.not_mem_nil, or_false] at hmem
  obtain rfl | rfl | rfl | rfl := hmem <;> rfl

def pruneFirst : List Action := markFirst ++ List.replicate 5 (.produce .work) ++
  publishAndCall ++ [.land ⟨block1, [], 1⟩ true]

def afterPrune : SequencerWorld :=
  (execAll (exec (smallEnv fun _ => [])) fresh pruneFirst).getD fresh

theorem pruned_settled_first : SettledTransaction (smallEnv fun _ => []) afterPrune 0 := by
  have hrun : Run (guarded (PrunesSettled (smallEnv fun _ => []))
      (enabled (exec (smallEnv fun _ => [])))) fresh pruneFirst afterPrune :=
    run_of_check (fun _ _ => prunesSettled_of_check) rfl
  exact pruned_settled (roundTrips_smallEnv _) ⟨_, _, rfl, hrun⟩ (by decide)

/-- A block 2 with the transaction, on the block 1 without it. -/
def lateInclusion : List ExecutionPayload := [otherPayload1, smallPayload 12 11 2 [[7]]]

def lateEnv : SequencerEnv :=
  { smallEnv fun _ => [] with
    tree := .ofPayloads lateInclusion (by decide)
    decode := fun data => lateInclusion.find? fun payload => payload.blockHash.val.take 1 = data }

/-- Block 2 is marked with the transaction before the cursor for block 1 is read. -/
def pruneEarly : List Action := [.submit 0 [7], .boot (.repeated 0) 0 true] ++
  wholePass otherPayload1 ++ [.track 0 1 0] ++ passToFile (smallPayload 12 11 2 [[7]]) ++
  [.produce .work] ++ publishAndCall ++ [.land ⟨otherBlock1, [], 1⟩ true]

def afterEarlyPrune : SequencerWorld := (execAll (exec lateEnv) fresh pruneEarly).getD fresh

/-- The nonce is pruned, and the only settled block has no transactions. -/
theorem pruned_not_settled : RoundTrips lateEnv ∧
    Reachable (· = fresh) (enabled (exec lateEnv)) afterEarlyPrune ∧
    0 < afterEarlyPrune.inbox.includedCount ∧ ¬ SettledTransaction lateEnv afterEarlyPrune 0 := by
  have hrun : Run (enabled (exec lateEnv)) fresh pruneEarly afterEarlyPrune :=
    run_of_execAll rfl
  refine ⟨?_, ⟨_, _, rfl, hrun⟩, by decide, ?_⟩
  · intro hash payload data hpayload hdata
    cases hdata
    have hmem : payload ∈ lateInclusion := BlockTree.mem_of_find hpayload
    simp only [lateInclusion, List.mem_cons, List.not_mem_nil, or_false] at hmem
    obtain rfl | rfl := hmem <;> rfl
  · rintro ⟨block, hblock, -, payload, bytes, hdecode, -, hmem⟩
    have hsettled : afterEarlyPrune.settled = [otherBlock1] := rfl
    rw [hsettled, List.mem_singleton] at hblock
    subst hblock
    cases hdecode
    cases hmem

end SequencerWorld

end Podseq.Node
