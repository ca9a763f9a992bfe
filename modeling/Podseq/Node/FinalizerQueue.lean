import Podseq.Node.SequencerSteps

/-! # The heights the producer queues

The head advances in memory before the block is converted, signed and stored, and none of these
failures takes it back. The next pass then builds one block too high: the heights queued are
consecutive exactly as long as no block follows such a failure.
-/
namespace Podseq.Node
open Podseq.Lib

namespace SequencerWorld

variable {env : SequencerEnv} {w w' : SequencerWorld} {p p' : SequencerProcess}

/-- Heights, the latest first, that are each one above the one before and start one above
`base`. -/
def Consecutive (base : Nat) : List Nat → Prop
  | [] => True
  | height :: earlier => height = base + earlier.length + 1 ∧ Consecutive base earlier

/-- The pass holds a block that its client accepted and the finalizer has not got. -/
def Producer.Holding : Producer → Bool
  | .converting _ => true
  | .storing _ _ => true
  | .observing _ _ _ => true
  | .marking _ => true
  | .reading _ => true
  | .saving _ _ => true
  | .broadcasting _ => true
  | .sending _ => true
  | _ => false

/-- How far the head is ahead of the blocks queued. -/
structure Counted (env : SequencerEnv) (p : SequencerProcess) : Prop where
  lead : env.tree.number p.base + p.sent.length + (Producer.Holding p.producer).toNat +
    p.failed.toNat ≤ env.tree.number p.state.head
  exact : p.failed = false → env.tree.number p.state.head =
    env.tree.number p.base + p.sent.length + (Producer.Holding p.producer).toNat
  consecutive : Consecutive (env.tree.number p.base) (p.sent.map (·.height)) ↔ p.resumed = false

theorem Counted.congr (hc : Counted env p) (hhead : p'.state.head = p.state.head)
    (hbase : p'.base = p.base) (hsent : p'.sent = p.sent) (hfailed : p'.failed = p.failed)
    (hresumed : p'.resumed = p.resumed)
    (hholding : Producer.Holding p'.producer = Producer.Holding p.producer) : Counted env p' := by
  obtain ⟨hlead, hexact, hconsecutive⟩ := hc
  refine ⟨?_, ?_, ?_⟩
  · rwa [hhead, hbase, hsent, hfailed, hholding]
  · rwa [hhead, hbase, hsent, hfailed, hholding]
  · rwa [hbase, hsent, hresumed]

/-- A step that only changes the phase, between phases that both hold a block or both do not. -/
theorem Counted.pass {next : Producer} (hc : Counted env p)
    (hholding : Producer.Holding next = Producer.Holding p.producer) :
    Counted env (p.pass next) := hc.congr rfl rfl rfl rfl rfl hholding

/-- A block lost on its way leaves the head ahead for good. -/
theorem Counted.abandon (hc : Counted env p) (hholding : Producer.Holding p.producer = true) :
    Counted env p.abandon := by
  obtain ⟨hlead, hexact, hconsecutive⟩ := hc
  rw [hholding] at hlead hexact
  refine ⟨?_, fun h => ?_, hconsecutive⟩
  · simp only [SequencerProcess.abandon, Producer.Holding, Bool.toNat_false, Bool.toNat_true]
      at hlead ⊢
    omega
  · cases h

/-- The head moves one block up, to the block the pass now holds. -/
theorem Counted.advance {s : ChainState} {payload : ExecutionPayload} (hc : Counted env p)
    (hphase : p.producer = .accepted s payload) (hbuilt : env.tree.Built p.state.head payload) :
    Counted env { p with
      state := { p.state with head := payload.blockHash, timestamp := s.timestamp }
      producer := .converting payload } := by
  obtain ⟨hlead, hexact, hconsecutive⟩ := hc
  have hnumber := hbuilt.number
  rw [hphase] at hlead hexact
  refine ⟨?_, fun h => ?_, hconsecutive⟩
  · simp only [Producer.Holding, Bool.toNat_false, Bool.toNat_true] at hlead ⊢
    omega
  · have := hexact h
    simp only [Producer.Holding, Bool.toNat_false, Bool.toNat_true] at this ⊢
    omega

/-- The block queued is the next one exactly when no pass failed before. -/
theorem Counted.send {b : PendingBlock} (hc : Counted env p) (hphase : p.producer = .sending b)
    (hheight : b.height = env.tree.number p.state.head) :
    Counted env { p with
      producer := .idle
      channel := p.channel ++ [b]
      sent := b :: p.sent
      resumed := p.resumed || p.failed } := by
  obtain ⟨hlead, hexact, hconsecutive⟩ := hc
  simp only [hphase, Producer.Holding, Bool.toNat_true] at hlead hexact
  have hnext : b.height = env.tree.number p.base + p.sent.length + 1 ↔ p.failed = false := by
    constructor
    · intro h
      cases hfailed : p.failed with
      | false => rfl
      | true =>
        rw [hfailed, Bool.toNat_true] at hlead
        omega
    · intro hfailed
      rw [hheight, hexact hfailed]
  refine ⟨?_, fun h => ?_, ?_⟩
  · simp only [Producer.Holding, List.length_cons, Bool.toNat_false]
    omega
  · simp only [Producer.Holding, List.length_cons, Bool.toNat_false]
    have := hexact h
    omega
  · simp only [List.map_cons, Consecutive, List.length_map, hnext, hconsecutive,
      Bool.or_eq_false_iff]
    exact and_comm

theorem Counted.produce {a : ProduceAction} (hc : Counted env p)
    (hf : Fits env p.state.head p.producer) (h : ProduceStep env w p a w' p') :
    Counted env p' := by
  cases h with
  | start hphase | fetched hphase | submitted hphase | acceptRefused hphase | acceptFailed hphase
  | converted hphase | stored hphase | observed hphase | observedAll hphase | marked hphase
  | snapshot hphase | saved hphase | broadcast hphase =>
    exact hc.pass (hphase ▸ rfl)
  | buildAsked hphase hnext =>
    obtain rfl | rfl | rfl := hnext <;> exact hc.pass (hphase ▸ rfl)
  | gaveUp hphase =>
    refine hc.pass ?_
    generalize p.producer = phase at hphase
    cases hphase <;> rfl
  | acceptAsked hphase hnext => obtain rfl | rfl := hnext <;> exact hc.pass (hphase ▸ rfl)
  | advanced hphase =>
    rw [hphase] at hf
    exact hc.advance hphase hf.2
  | sent hphase =>
    rw [hphase] at hf
    obtain ⟨payload, ⟨-, hpayload⟩, hmade⟩ := hf
    exact hc.send hphase (hmade.height.trans (env.tree.blockNumber_eq _ _ hpayload))
  | abandoned hphase =>
    refine hc.abandon ?_
    obtain ⟨payload, h⟩ | ⟨payload, b, h⟩ | ⟨b, h⟩ | ⟨b, stored, h⟩ := hphase <;> rw [h] <;> rfl
  | torn hphase => exact hc.abandon (hphase ▸ rfl)

theorem reachable_counted (h : Reachable (· = fresh) (enabled (exec env)) w)
    (hp : w.process = some p) : Counted env p := by
  suffices hs : Fits env p.state.head p.producer ∧ Counted env p from hs.2
  refine process_inv
    (I := fun p => Fits env p.state.head p.producer ∧ Counted env p) ?_ ?_ ?_ ?_ ?_ h p hp
  · intro w discovered now readable p hp
    cases hp
    refine ⟨trivial, ?_, fun _ => ?_, ?_⟩
    · exact Nat.le_refl _
    · rfl
    · exact ⟨fun _ => rfl, fun _ => trivial⟩
  · rintro w p cleared w' p' ⟨hf, hc⟩ hr
    obtain ⟨hstate, hproducer, hbase, hsent, hfailed, hresumed⟩ := recover_frame hr
    refine ⟨?_, hc.congr (by rw [hstate]) hbase hsent hfailed hresumed (by rw [hproducer])⟩
    rwa [hstate, hproducer]
  · exact fun p hI => ⟨hI.1, hI.2.congr rfl rfl rfl rfl rfl rfl⟩
  · exact fun w p a w' p' hI hs => ⟨hI.1.produce hs, hI.2.produce hI.1 hs⟩
  · rintro w p a w' p' ⟨hf, hc⟩ hs
    obtain ⟨hhead, hproducer, hbase, hsent, hfailed, hresumed, -⟩ := hs.frame
    refine ⟨?_, hc.congr hhead hbase hsent hfailed hresumed (by rw [hproducer])⟩
    rwa [hhead, hproducer]

/-- In one process lifetime the heights handed to the finalizer by `produce_block` leave no gap
exactly when no block was handed over after a pass that failed with its block accepted. -/
theorem sent_consecutive_iff (h : Reachable (· = fresh) (enabled (exec env)) w)
    (hp : w.process = some p) :
    Consecutive (env.tree.number p.base) (p.sent.map (·.height)) ↔ p.resumed = false :=
  (reachable_counted h hp).consecutive

def twoPasses : List Action :=
  .boot (.repeated 0) 0 true :: wholePass payload1 ++ wholePass payload2

def afterTwoPasses : SequencerWorld :=
  (execAll (exec (smallEnv fun _ => [])) fresh twoPasses).getD fresh

def processOfTwo : SequencerProcess := afterTwoPasses.process.get rfl

theorem sent_consecutive_two_blocks : processOfTwo.sent.map (·.height) = [2, 1] ∧
    (Consecutive (smallTree.number processOfTwo.base) (processOfTwo.sent.map (·.height)) ↔
      processOfTwo.resumed = false) := by
  have hrun : Run (enabled (exec (smallEnv fun _ => []))) fresh twoPasses afterTwoPasses :=
    run_of_execAll rfl
  exact ⟨rfl, sent_consecutive_iff ⟨_, _, rfl, hrun⟩ rfl⟩

/-- The pending mark of block 1 fails, and the process goes on to block 2. -/
def passAfterFailure : List Action := .boot (.repeated 0) 0 true :: passToFile payload1 ++
  [.produce .work, .produce (.fail false)] ++ wholePass payload2

def afterFailure : SequencerWorld :=
  (execAll (exec (smallEnv fun _ => [])) fresh passAfterFailure).getD fresh

def processAfterFailure : SequencerProcess := afterFailure.process.get rfl

/-- Block 2 is queued, and block 1 never was. -/
theorem failed_mark_leaves_gap :
    Reachable (· = fresh) (enabled (exec (smallEnv fun _ => []))) afterFailure ∧
    afterFailure.process = some processAfterFailure ∧
    smallTree.number processAfterFailure.base = 0 ∧
    processAfterFailure.sent.map (·.height) = [2] ∧
    ¬ Consecutive (smallTree.number processAfterFailure.base)
      (processAfterFailure.sent.map (·.height)) := by
  have hrun : Run (enabled (exec (smallEnv fun _ => []))) fresh passAfterFailure afterFailure :=
    run_of_execAll rfl
  refine ⟨⟨_, _, rfl, hrun⟩, rfl, rfl, rfl, ?_⟩
  rintro ⟨h, -⟩
  cases h

end SequencerWorld

end Podseq.Node
