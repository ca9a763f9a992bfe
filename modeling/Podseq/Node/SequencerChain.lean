import Podseq.Node.SequencerSteps

/-! # The chain of the sequencer

The node's chain ends in its head, or in the block it is having accepted. Its end moves along one
line: up with every accepted block, and down only when a request to accept one fails or when a
process starts from an older head.
-/
namespace Podseq.Node
open Podseq.Lib

namespace SequencerWorld

variable {env : SequencerEnv} {w w' : SequencerWorld} {p p' : SequencerProcess}

/-- The block the chain of a running node ends in. -/
def chainEnd (p : SequencerProcess) : B256 :=
  match p.producer with
  | .accepting _ payload _ => payload.blockHash
  | .accepted _ payload => payload.blockHash
  | _ => p.state.head

/-- The head the node goes on from where a step may take its chain back. -/
def fallback (env : SequencerEnv) (w : SequencerWorld) : Action → Option B256
  | .boot discovered now _ => some (w.bootState env discovered now).head
  | .produce (.forkchoice reply) => w.process.bind fun p =>
      match p.producer with
      | .accepting s _ _ =>
        if reply = some .valid ∨ reply = some .syncing then none else some s.head
      | _ => none
  | .produce (.fail _) => w.process.bind fun p =>
      match p.producer with
      | .accepting s _ _ => some s.head
      | _ => none
  | _ => none

/-- A process that finds no saved state starts from a block on the line of the node's chain. -/
def ResumesOnLine (env : SequencerEnv) (w : SequencerWorld) : Action → Prop
  | .boot discovered now _ => w.disk.state = none → ∀ tip, w.tip = some tip →
      let head := (w.bootState env discovered now).head
      env.tree.forest.Below tip head ∨ env.tree.forest.Below head tip
  | _ => True

/-- A snapshot of pointers has its head on the chain that ends in `hash`. -/
def SavedBelow (env : SequencerEnv) (hash : B256) (stored : StoredState) : Prop :=
  env.tree.forest.Below hash (ChainState.restore stored).head

/-- The state file and the snapshots about to be saved hold heads of the node's chain. -/
structure OnLine (env : SequencerEnv) (w : SequencerWorld) (p : SequencerProcess) : Prop where
  tip : w.tip = some (chainEnd p)
  file : ∀ stored, w.disk.state = some stored → SavedBelow env p.state.head stored
  producer : ∀ b stored, p.producer = .saving b stored → SavedBelow env p.state.head stored
  finalizer : ∀ blob stored, p.finalizer = .saving blob stored →
    SavedBelow env p.state.head stored

structure Chained (env : SequencerEnv) (w : SequencerWorld) : Prop where
  file : ∀ stored, w.disk.state = some stored →
    ∃ tip, w.tip = some tip ∧ SavedBelow env tip stored
  running : ∀ p, w.process = some p → OnLine env w p

/-- The head is on the chain. -/
theorem Fits.chainEnd_below (hf : Fits env p.state.head p.producer) :
    env.tree.forest.Below (chainEnd p) p.state.head := by
  unfold chainEnd
  cases hphase : p.producer with
  | accepting s payload tried =>
    rw [hphase] at hf
    exact hf.2.below
  | accepted s payload =>
    rw [hphase] at hf
    exact hf.2.below
  | _ => exact .refl

theorem SavedBelow.stored {s : ChainState} {head : B256} {height : Nat}
    (h : env.tree.forest.Below head s.head) : SavedBelow env head (s.stored height) := by
  unfold SavedBelow
  rwa [ChainState.restore_stored]

theorem SavedBelow.above {hash hash' : B256} {stored : StoredState}
    (h : SavedBelow env hash stored) (hb : env.tree.forest.Below hash' hash) :
    SavedBelow env hash' stored := hb.trans h

/-- A step of a process whose head does not change. -/
theorem Chained.proceed (hw : Chained env w) (hp : w.process = some p)
    (hf : Fits env p'.state.head p'.producer) (htip : w'.tip = some (chainEnd p'))
    (hhead : p'.state.head = p.state.head)
    (hfile : ∀ stored, w'.disk.state = some stored → w.disk.state = some stored ∨
      (∃ b, p.producer = .saving b stored) ∨ ∃ blob, p.finalizer = .saving blob stored)
    (hproducer : ∀ b stored, p'.producer = .saving b stored →
      p.producer = .saving b stored ∨ ∃ height, stored = p.state.stored height)
    (hfinalizer : ∀ blob stored, p'.finalizer = .saving blob stored →
      p.finalizer = .saving blob stored ∨ ∃ height, stored = p.state.stored height) :
    Chained env (w'.run p') := by
  have hr := hw.running p hp
  have hsaved : ∀ stored, w'.disk.state = some stored → SavedBelow env p'.state.head stored := by
    intro stored hstored
    rw [hhead]
    rcases hfile stored hstored with h | ⟨b, h⟩ | ⟨blob, h⟩
    · exact hr.file stored h
    · exact hr.producer b stored h
    · exact hr.finalizer blob stored h
  refine ⟨fun stored hstored => ⟨_, htip, (hsaved stored hstored).above hf.chainEnd_below⟩,
    fun q hq => ?_⟩
  cases hq
  refine ⟨htip, hsaved, fun b stored h => ?_, fun blob stored h => ?_⟩
  · rw [hhead]
    rcases hproducer b stored h with h | ⟨height, rfl⟩
    · exact hr.producer b stored h
    · exact SavedBelow.stored .refl
  · rw [hhead]
    rcases hfinalizer blob stored h with h | ⟨height, rfl⟩
    · exact hr.finalizer blob stored h
    · exact SavedBelow.stored .refl

/-- A step of the producer that keeps the state file. -/
theorem Chained.pass {next : Producer} (hw : Chained env w) (hp : w.process = some p)
    (hf : Fits env p.state.head next) (htip : w'.tip = some (chainEnd (p.pass next)))
    (hstate : w'.disk.state = w.disk.state) (hnext : ∀ b stored, next ≠ .saving b stored) :
    Chained env (w'.run (p.pass next)) :=
  hw.proceed hp hf htip rfl (fun _ h => .inl (hstate ▸ h))
    (fun b stored h => absurd h (hnext b stored)) fun _ _ h => .inl h

theorem Chained.produce {a : ProduceAction} (hw : Chained env w) (hp : w.process = some p)
    (hf : Fits env p.state.head p.producer) (h : ProduceStep env w p a w' p') :
    Chained env (w'.run p') := by
  have hr := hw.running p hp
  have hf' := hf.produce h
  have htip := hr.tip
  cases h with
  | start hphase | fetched hphase =>
    refine hw.pass hp hf' ?_ rfl fun _ _ => Producer.noConfusion
    rw [htip]
    simp only [chainEnd, SequencerProcess.pass, hphase]
  | buildAsked hphase hnext =>
    obtain rfl | rfl | rfl := hnext
    all_goals
      refine hw.pass hp hf' ?_ rfl fun _ _ => Producer.noConfusion
      rw [show (w.receive _).tip = w.tip from rfl, htip]
      simp only [chainEnd, SequencerProcess.pass, hphase]
  | gaveUp hphase =>
    refine hw.pass hp hf' ?_ rfl fun _ _ => Producer.noConfusion
    rw [htip]
    unfold chainEnd
    generalize p.producer = phase at hphase
    cases hphase <;> rfl
  | submitted => exact hw.pass hp hf' rfl rfl fun _ _ => Producer.noConfusion
  | acceptAsked hphase hnext =>
    obtain rfl | rfl := hnext
    all_goals
      refine hw.pass hp hf' ?_ rfl fun _ _ => Producer.noConfusion
      rw [show (w.receive _).tip = w.tip from rfl, htip]
      simp only [chainEnd, SequencerProcess.pass, hphase]
  -- the client has the block by now, whatever it said about the head
  | acceptRefused hphase | acceptFailed hphase =>
    rw [hphase] at hf
    exact hw.pass hp hf' (congrArg some hf.1) rfl fun _ _ => Producer.noConfusion
  -- the pointers move up to the tip, and everything saved before is below it
  | @advanced s payload hphase =>
    rw [hphase] at hf
    have hbelow := hf.2.below
    have htip' : w.tip = some payload.blockHash := by
      rw [htip]
      simp only [chainEnd, hphase]
    refine ⟨fun stored hstored => ⟨_, htip', (hr.file stored hstored).above hbelow⟩, fun q hq => ?_⟩
    cases hq
    exact ⟨htip', fun stored hstored => (hr.file stored hstored).above hbelow,
      fun b stored h => (by cases h),
      fun blob stored h => (hr.finalizer blob stored h).above hbelow⟩
  | converted hphase | stored hphase | observed hphase | observedAll hphase | marked hphase
  | broadcast hphase =>
    refine hw.pass hp hf' ?_ rfl fun _ _ => Producer.noConfusion
    refine Eq.trans htip ?_
    simp only [chainEnd, SequencerProcess.pass, hphase]
  -- the snapshot taken is the only new thing that may be saved
  | snapshot hphase =>
    refine hw.proceed hp hf' ?_ rfl (fun _ h => .inl h) (fun b stored h => ?_) fun _ _ h => .inl h
    · refine Eq.trans htip ?_
      simp only [chainEnd, SequencerProcess.pass, hphase]
    · cases h
      exact .inr ⟨_, rfl⟩
  | @saved b stored hphase =>
    refine hw.proceed hp hf' ?_ rfl (fun stored' h => .inr (.inl ⟨b, ?_⟩)) (fun b stored h => ?_)
      fun _ _ h => .inl h
    · refine Eq.trans htip ?_
      simp only [chainEnd, SequencerProcess.pass, hphase]
    · cases h
      exact hphase
    · cases h
  | sent hphase =>
    refine hw.proceed hp hf' ?_ rfl (fun _ h => .inl h) (fun b stored h => ?_) fun _ _ h => .inl h
    · refine Eq.trans htip ?_
      simp only [chainEnd, hphase]
    · cases h
  | abandoned hphase =>
    refine hw.proceed hp hf' ?_ rfl (fun _ h => .inl h) (fun b stored h => ?_) fun _ _ h => .inl h
    · refine Eq.trans htip ?_
      obtain ⟨_, h⟩ | ⟨_, _, h⟩ | ⟨_, h⟩ | ⟨_, _, h⟩ := hphase
      all_goals simp only [chainEnd, SequencerProcess.abandon, h]
    · cases h
  | torn hphase =>
    refine hw.proceed hp hf' ?_ rfl (fun _ h => .inl h) (fun b stored h => ?_) fun _ _ h => .inl h
    · refine Eq.trans htip ?_
      simp only [chainEnd, SequencerProcess.abandon, hphase]
    · cases h

theorem Chained.finalize {a : FinalizeAction} (hw : Chained env w) (hp : w.process = some p)
    (hf : Fits env p.state.head p.producer) (h : FinalizeStep env w p a w' p') :
    Chained env (w'.run p') := by
  have hr := hw.running p hp
  obtain ⟨hhead, hproducer, -⟩ := h.frame
  have htip' : w'.tip = w.tip := by cases h <;> rfl
  refine hw.proceed hp (hhead ▸ hproducer ▸ hf) ?_ hhead (fun stored hstored => ?_)
    (fun b stored hb => .inl (hproducer ▸ hb)) fun blob stored hb => ?_
  · rw [htip', hr.tip]
    simp only [chainEnd, hhead, hproducer]
  · cases h with
    | saved hphase =>
      cases hstored
      exact .inr (.inr ⟨_, hphase⟩)
    | _ => exact .inl hstored
  · cases h with
    | snapshot hphase =>
      cases hb
      exact .inr ⟨_, rfl⟩
    | received hphase hchannel hnext => obtain rfl | rfl := hnext <;> cases hb
    | publishFailed hphase => exact .inl hb
    | asked hphase hnext => obtain rfl | rfl := hnext <;> cases hb
    | @refused _ blob' b _ _ _ _ => cases blob' <;> cases hb
    | @failed blob' b _ _ _ => cases blob' <;> cases hb
    | recorded hphase hnext => obtain ⟨_, -, rfl⟩ | rfl := hnext <;> cases hb
    | saved hphase | saveFailed hphase =>
      unfold nextSettlement at hb
      split at hb <;> cases hb
    | _ => cases hb

theorem Chained.boot {discovered : B256} {now : Nat} {pendingReadable : Bool}
    (_ : Chained env w) : Chained env (w.boot env discovered now pendingReadable) := by
  have hfile : ∀ stored, w.disk.state = some stored →
      SavedBelow env (w.bootState env discovered now).head stored := by
    intro stored hstored
    unfold bootState
    rw [hstored]
    exact .refl
  refine ⟨fun stored hstored => ⟨_, rfl, hfile stored hstored⟩, fun q hq => ?_⟩
  cases hq
  exact ⟨rfl, hfile, fun _ _ h => (by cases h), fun _ _ h => (by cases h)⟩

theorem Chained.step {a : Action} (hw : Chained env w)
    (hfits : ∀ p, w.process = some p → Fits env p.state.head p.producer)
    (h : enabled (exec env) w a w') : Chained env w' := by
  have hkeep : ∀ w₁ : SequencerWorld, w₁.process = w.process → w₁.disk.state = w.disk.state →
      w₁.tip = w.tip → Chained env w₁ := by
    intro w₁ hprocess hstate htip
    refine ⟨?_, fun p hp => ?_⟩
    · rw [hstate, htip]
      exact hw.file
    · have hr := hw.running p (hprocess ▸ hp)
      exact ⟨htip ▸ hr.tip, hstate ▸ hr.file, hr.producer, hr.finalizer⟩
  cases exec_step h with
  | boot => exact hw.boot
  | recover hp hr =>
    obtain ⟨hstate, hproducer, -⟩ := recover_frame hr
    obtain ⟨-, hfinalizer, -⟩ := recover_finalizer hr
    refine hw.proceed hp (hstate ▸ hproducer ▸ hfits _ hp) ?_ (by rw [hstate])
      (fun stored hstored => .inl ?_) (fun _ _ hb => .inl (hproducer ▸ hb))
      fun _ _ hb => .inl (hfinalizer ▸ hb)
    · refine Eq.trans ?_ ((hw.running _ hp).tip.trans ?_)
      · obtain ⟨_, _, -, ⟨_, _, -, -, rfl, -⟩ | ⟨rfl | rfl, -⟩⟩ := recover_cases hr <;> rfl
      · simp only [chainEnd, hstate, hproducer]
    · obtain ⟨_, _, -, ⟨_, _, -, -, rfl, -⟩ | ⟨rfl | rfl, -⟩⟩ := recover_cases hr <;>
        exact hstored
  | crash => exact ⟨hw.file, fun q hq => by cases hq⟩
  | shutdown hp =>
    have hf := hfits _ hp
    exact hw.proceed hp hf (hw.running _ hp).tip rfl (fun _ hb => .inl hb)
      (fun _ _ hb => .inl hb) fun _ _ hb => .inl hb
  | produce hp hr => exact hw.produce hp (hfits _ hp) hr
  | finalize hp hr => exact hw.finalize hp (hfits _ hp) hr
  | tracked | receipt | submitted | windowed => exact hkeep _ rfl rfl rfl
  | landed =>
    obtain ⟨-, hprocess, hdisk, -, htip, -⟩ := land_frame w _ _
    exact hkeep _ hprocess (by rw [hdisk]) htip

theorem reachable_chained (h : Reachable (· = fresh) (enabled (exec env)) w) :
    Chained env w := by
  refine h.inv_of (J := fun w => ∀ p, w.process = some p → Fits env p.state.head p.producer)
    (fun w hw p hp => reachable_fits hw hp) ?_ fun w a w' hfits _ hw hs => hw.step hfits hs
  rintro _ rfl
  exact ⟨fun _ h => (by cases h), fun _ h => (by cases h)⟩

/-- The end of the chain moves along one line, and down to a fallback only. -/
theorem tip_moves {a : Action} (hw : Chained env w)
    (hfits : ∀ p, w.process = some p → Fits env p.state.head p.producer)
    (hok : ResumesOnLine env w a) (h : enabled (exec env) w a w') {tip : B256}
    (htip : w.tip = some tip) : ∃ tip', w'.tip = some tip' ∧
      (env.tree.forest.Below tip' tip ∨
        env.tree.forest.Below tip tip' ∧ fallback env w a = some tip') := by
  have hstay : w'.tip = w.tip → ∃ tip', w'.tip = some tip' ∧
      (env.tree.forest.Below tip' tip ∨
        env.tree.forest.Below tip tip' ∧ fallback env w a = some tip') := fun heq =>
    ⟨tip, heq.trans htip, .inl .refl⟩
  cases exec_step h with
  | @boot discovered now _ _ =>
    refine ⟨_, rfl, ?_⟩
    cases hstate : w.disk.state with
    | none =>
      rcases hok hstate tip htip with hline | hline
      · exact .inr ⟨hline, rfl⟩
      · exact .inl hline
    | some stored =>
      obtain ⟨tip', htip', hbelow⟩ := hw.file stored hstate
      cases htip.symm.trans htip'
      refine .inr ⟨?_, rfl⟩
      unfold bootState
      rw [hstate]
      exact hbelow
  | recover hp hr =>
    refine hstay ?_
    obtain ⟨_, _, -, ⟨_, _, -, -, rfl, -⟩ | ⟨rfl | rfl, -⟩⟩ := recover_cases hr <;> rfl
  | @produce a p p' w' hp hr =>
    have hf := hfits _ hp
    have hend := htip.symm.trans (hw.running _ hp).tip
    cases hr with
    -- only these three steps move the tip: a new block, and the two ways back
    | submitted hphase =>
      rw [hphase] at hf
      simp only [chainEnd, hphase, Option.some.injEq] at hend
      exact ⟨_, rfl, .inl (hend ▸ hf.2.below)⟩
    | acceptRefused hphase hreply =>
      rw [hphase] at hf
      simp only [chainEnd, hphase, Option.some.injEq] at hend
      refine ⟨_, rfl, .inr ⟨hend ▸ hf.1 ▸ hf.2.below, ?_⟩⟩
      simp only [fallback, hp, Option.bind_some, hphase, hreply.1, hreply.2, or_self, if_false]
    | acceptFailed hphase =>
      rw [hphase] at hf
      simp only [chainEnd, hphase, Option.some.injEq] at hend
      refine ⟨_, rfl, .inr ⟨hend ▸ hf.1 ▸ hf.2.below, ?_⟩⟩
      simp only [fallback, hp, Option.bind_some, hphase]
    | _ => exact ⟨tip, htip, .inl .refl⟩
  | finalize hp hr => exact hstay (by cases hr <;> rfl)
  | landed => exact hstay (land_frame w _ _).2.2.2.2.1
  | crash | shutdown | tracked | receipt | submitted | windowed => exact hstay rfl

end SequencerWorld

end Podseq.Node
