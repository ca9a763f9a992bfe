import Podseq.Node.SequencerSteps

/-! # The order of the fork choices

The producer and the finalizer read the pointers, let go of them, and send a fork choice made of
what they read. The fork choices never fall back as long as the two do not overlap between the
reading and the recording, no request that moved a pointer fails, blocks are finalized in the
order of their numbers, and a start finds the pointers the client has seen last.
-/
namespace Podseq.Node
open Podseq.Lib

/-- No pointer of `fc` is above that of `fc'`. -/
def ForkchoiceState.NotAbove (tree : BlockTree) (fc fc' : ForkchoiceState) : Prop :=
  tree.number fc.headBlockHash ≤ tree.number fc'.headBlockHash ∧
    tree.number fc.safeBlockHash ≤ tree.number fc'.safeBlockHash ∧
    tree.number fc.finalizedBlockHash ≤ tree.number fc'.finalizedBlockHash

instance (tree : BlockTree) (fc fc' : ForkchoiceState) : Decidable (fc.NotAbove tree fc') :=
  inferInstanceAs (Decidable (_ ∧ _ ∧ _))

theorem ForkchoiceState.NotAbove.refl {tree : BlockTree} (fc : ForkchoiceState) :
    fc.NotAbove tree fc := ⟨Nat.le_refl _, Nat.le_refl _, Nat.le_refl _⟩

theorem ForkchoiceState.NotAbove.trans {tree : BlockTree} {fc fc' fc'' : ForkchoiceState}
    (h : fc.NotAbove tree fc') (k : fc'.NotAbove tree fc'') : fc.NotAbove tree fc'' :=
  ⟨h.1.trans k.1, h.2.1.trans k.2.1, h.2.2.trans k.2.2⟩

def ChainState.forkchoice (s : ChainState) : ForkchoiceState := ⟨s.head, s.safe, s.finalized⟩

/-- The pointers a pass has read and not yet recorded the outcome of. -/
def Producer.pointers : Producer → Option ChainState
  | .building s => some s
  | .fetching s => some s
  | .submitting s _ => some s
  | .accepting s _ _ => some s
  | .accepted s _ => some s
  | _ => none

/-- The block the finalizer has read the head for and not yet recorded. -/
def Finalizer.target : Finalizer → Option PendingBlock
  | .finalizing _ b _ _ => some b
  | .confirmed _ b => some b
  | _ => none

/-- The head of the last fork choice that was sent, where memory has `head`. -/
def Producer.sentHead (head : B256) : Producer → B256
  | .accepting _ payload true => payload.blockHash
  | .accepted _ payload => payload.blockHash
  | _ => head

/-- The final block of the last fork choice that was sent, where memory has `hash`. -/
def Finalizer.sentFinal (hash : B256) : Finalizer → B256
  | .finalizing _ b _ true => b.blockHash
  | .confirmed _ b => b.blockHash
  | _ => hash

namespace SequencerWorld

variable {env : SequencerEnv} {w w' : SequencerWorld} {p p' : SequencerProcess}

/-- The client answered, and not with a refusal. -/
def settles (reply : Reply PayloadStatus) : Bool :=
  reply = some .valid || reply = some .syncing

/-- When a step cannot make the fork choices fall back. -/
def keepsOrder (env : SequencerEnv) (w : SequencerWorld) : Action → Bool
  -- a start finds pointers that are not below the last fork choice
  | .boot discovered now _ => w.received.head?.all fun fc =>
      fc.NotAbove env.tree (w.bootState env discovered now).forkchoice
  -- one side reads the pointers while the other is not between reading and recording
  | .produce (.start _) => w.process.all fun p => p.finalizer.target.isNone
  | .finalize .readHead => w.process.all fun p => p.producer.pointers.isNone &&
      match p.finalizer with
      | .advancing _ b =>
        env.tree.number p.state.safe ≤ env.tree.number b.blockHash &&
          env.tree.number p.state.finalized ≤ env.tree.number b.blockHash
      | _ => true
  -- a request that was sent does not fail
  | .produce (.forkchoice reply) => w.process.all fun p =>
      match p.producer with
      | .accepting .. => settles reply
      | _ => true
  | .produce (.fail _) => w.process.all fun p =>
      match p.producer with
      | .accepting _ _ tried => !tried
      | _ => true
  | .finalize (.forkchoice reply) => settles reply
  | .finalize .fail => w.process.all fun p =>
      match p.finalizer with
      | .finalizing _ _ _ tried => !tried
      | _ => true
  | _ => true

/-- The pointers of the last fork choice that was sent, or those in memory. -/
def reach (p : SequencerProcess) : ForkchoiceState where
  headBlockHash := p.producer.sentHead p.state.head
  safeBlockHash := p.finalizer.sentFinal p.state.safe
  finalizedBlockHash := p.finalizer.sentFinal p.state.finalized

/-- What a running process keeps. -/
structure Bounded (env : SequencerEnv) (w : SequencerWorld) (p : SequencerProcess) : Prop where
  received : ∀ fc ∈ w.received, fc.NotAbove env.tree (reach p)
  producer : ∀ s, p.producer.pointers = some s → s.safe = p.state.safe ∧
    s.finalized = p.state.finalized ∧ p.finalizer.target = none
  finalizer : ∀ b, p.finalizer.target = some b →
    env.tree.number p.state.safe ≤ env.tree.number b.blockHash ∧
      env.tree.number p.state.finalized ≤ env.tree.number b.blockHash
  head : ∀ blob b head tried, p.finalizer = .finalizing blob b head tried → head = p.state.head

/-- While a block is finalized, no pass has read the pointers. -/
theorem Bounded.pointers_none {finalizer : Finalizer} {b : PendingBlock} (h : Bounded env w p)
    (hphase : p.finalizer = finalizer) (htarget : finalizer.target = some b) :
    p.producer.pointers = none := by
  cases hs : p.producer.pointers with
  | none => rfl
  | some s =>
    rw [← hphase, (h.producer s hs).2.2] at htarget
    cases htarget

theorem sentHead_of_no_pointers {producer : Producer} {head : B256}
    (h : producer.pointers = none) : producer.sentHead head = head := by
  cases producer with
  | accepting s payload tried => cases h
  | accepted s payload => cases h
  | _ => rfl

/-- No fork choice is below an earlier one. -/
def InOrder (tree : BlockTree) (received : List ForkchoiceState) : Prop :=
  received.Pairwise fun later earlier => earlier.NotAbove tree later

structure Ordered (env : SequencerEnv) (w : SequencerWorld) : Prop where
  inOrder : InOrder env.tree w.received
  running : ∀ p, w.process = some p → Bounded env w p

/-- A step that sends no fork choice. -/
theorem Ordered.quiet (hw : Ordered env w) (hp : w.process = some p)
    (hreceived : w'.received = w.received) (hreach : reach p' = reach p)
    (hproducer : ∀ s, p'.producer.pointers = some s → s.safe = p'.state.safe ∧
      s.finalized = p'.state.finalized ∧ p'.finalizer.target = none)
    (hfinalizer : ∀ b, p'.finalizer.target = some b →
      env.tree.number p'.state.safe ≤ env.tree.number b.blockHash ∧
        env.tree.number p'.state.finalized ≤ env.tree.number b.blockHash)
    (hhead : ∀ blob b head tried, p'.finalizer = .finalizing blob b head tried →
      head = p'.state.head) : Ordered env (w'.run p') := by
  refine ⟨?_, fun q hq => ?_⟩
  · exact hreceived ▸ hw.inOrder
  · cases hq
    refine ⟨fun fc hfc => ?_, hproducer, hfinalizer, hhead⟩
    rw [hreach]
    exact (hw.running p hp).received fc (hreceived ▸ hfc)

/-- A step that sends a fork choice which nothing sent before is above. -/
theorem Ordered.send {fc : ForkchoiceState} (hw : Ordered env w) (hp : w.process = some p)
    (hreceived : w'.received = fc :: w.received) (hup : (reach p).NotAbove env.tree fc)
    (hreach : fc.NotAbove env.tree (reach p'))
    (hproducer : ∀ s, p'.producer.pointers = some s → s.safe = p'.state.safe ∧
      s.finalized = p'.state.finalized ∧ p'.finalizer.target = none)
    (hfinalizer : ∀ b, p'.finalizer.target = some b →
      env.tree.number p'.state.safe ≤ env.tree.number b.blockHash ∧
        env.tree.number p'.state.finalized ≤ env.tree.number b.blockHash)
    (hhead : ∀ blob b head tried, p'.finalizer = .finalizing blob b head tried →
      head = p'.state.head) : Ordered env (w'.run p') := by
  have hall : ∀ fc' ∈ w.received, fc'.NotAbove env.tree fc := fun fc' h =>
    ((hw.running p hp).received fc' h).trans hup
  refine ⟨?_, fun q hq => ?_⟩
  · change InOrder env.tree w'.received
    rw [hreceived]
    exact List.pairwise_cons.2 ⟨hall, hw.inOrder⟩
  · cases hq
    refine ⟨fun fc' h => ?_, hproducer, hfinalizer, hhead⟩
    rw [show (w'.run p').received = fc :: w.received from hreceived] at h
    rcases List.mem_cons.1 h with rfl | h
    · exact hreach
    · exact (hall fc' h).trans hreach

/-- A step of the producer that sends nothing and has read nothing new. -/
theorem Ordered.pass {next : Producer} (hw : Ordered env w) (hp : w.process = some p)
    (hreceived : w'.received = w.received)
    (hsent : next.sentHead p.state.head = p.producer.sentHead p.state.head)
    (hpointers : ∀ s, next.pointers = some s → p.producer.pointers = some s) :
    Ordered env (w'.run (p.pass next)) := by
  have hb := hw.running p hp
  refine hw.quiet hp hreceived ?_ (fun s hs => hb.producer s (hpointers s hs)) hb.finalizer hb.head
  simp only [reach, SequencerProcess.pass, hsent]

/-- A step of the producer that asks the client with the pointers it read. -/
theorem Ordered.ask {s : ChainState} {hash : B256} {next : Producer} (hw : Ordered env w)
    (hp : w.process = some p) (hs : p.producer.pointers = some s)
    (hreceived : w'.received = ⟨hash, s.safe, s.finalized⟩ :: w.received)
    (hup : env.tree.number (p.producer.sentHead p.state.head) ≤ env.tree.number hash)
    (hsent : next.sentHead p.state.head = hash)
    (hpointers : ∀ s, next.pointers = some s → p.producer.pointers = some s) :
    Ordered env (w'.run (p.pass next)) := by
  have hb := hw.running p hp
  obtain ⟨hsafe, hfinalized, htarget⟩ := hb.producer s hs
  have hfinal : ∀ hash, p.finalizer.sentFinal hash = hash := by
    intro hash
    cases hf : p.finalizer with
    | finalizing blob b head tried =>
      rw [hf] at htarget
      cases htarget
    | confirmed blob b =>
      rw [hf] at htarget
      cases htarget
    | _ => rfl
  refine hw.send hp hreceived ⟨hup, ?_, ?_⟩ ⟨?_, ?_, ?_⟩
    (fun s hs => hb.producer s (hpointers s hs)) hb.finalizer hb.head
  · rw [hsafe]
    exact (congrArg env.tree.number (hfinal p.state.safe)).le
  · rw [hfinalized]
    exact (congrArg env.tree.number (hfinal p.state.finalized)).le
  · exact (congrArg env.tree.number hsent).ge
  · rw [hsafe]
    exact (congrArg env.tree.number (hfinal p.state.safe)).ge
  · rw [hfinalized]
    exact (congrArg env.tree.number (hfinal p.state.finalized)).ge

theorem Ordered.produce {a : ProduceAction} (hw : Ordered env w) (hp : w.process = some p)
    (hf : Fits env p.state.head p.producer) (hok : keepsOrder env w (.produce a))
    (h : ProduceStep env w p a w' p') : Ordered env (w'.run p') := by
  have hb := hw.running p hp
  cases h with
  -- a pass starts while the finalizer is not between reading and recording
  | start hphase =>
    simp only [keepsOrder, hp, Option.all_some, Option.isNone_iff_eq_none] at hok
    refine hw.quiet hp rfl ?_ (fun s hs => ?_) hb.finalizer hb.head
    · simp only [reach, SequencerProcess.pass, hphase, Producer.sentHead]
    · cases hs
      exact ⟨rfl, rfl, hok⟩
  | @buildAsked _ s next hphase hnext =>
    rw [hphase] at hf
    have hs : p.producer.pointers = some s := hphase ▸ rfl
    refine hw.ask hp hs rfl ?_ ?_ ?_
    · rw [hphase]
      exact (congrArg env.tree.number hf).ge
    · obtain rfl | rfl | rfl := hnext <;> exact hf.symm
    · rw [hs]
      obtain rfl | rfl | rfl := hnext
      · exact fun _ h => h
      · exact fun _ h => h
      · exact fun _ h => by cases h
  | gaveUp hphase =>
    refine hw.pass hp rfl ?_ fun _ h => by cases h
    generalize p.producer = phase at hphase
    cases hphase <;> rfl
  | fetched hphase | submitted hphase =>
    exact hw.pass hp rfl (hphase ▸ rfl) (hphase ▸ fun _ h => h)
  -- on a retry the head is the one asked for before, at first it is one block above
  | @acceptAsked _ s payload tried next hphase hnext =>
    rw [hphase] at hf
    have hs : p.producer.pointers = some s := hphase ▸ rfl
    have hnumber := hf.2.number
    refine hw.ask hp hs rfl ?_ ?_ ?_
    · rw [hphase]
      cases tried with
      | true => exact Nat.le_refl _
      | false =>
        change env.tree.number p.state.head ≤ _
        omega
    · obtain rfl | rfl := hnext <;> rfl
    · rw [hs]
      obtain rfl | rfl := hnext <;> exact fun _ h => h
  -- the condition excludes a refusal
  | acceptRefused hphase hreply =>
    simp only [keepsOrder, hp, Option.all_some, hphase, settles, Bool.or_eq_true,
      decide_eq_true_eq] at hok
    exact absurd hok (not_or.2 hreply)
  | @acceptFailed _ s payload tried hphase =>
    simp only [keepsOrder, hp, Option.all_some, hphase, Bool.not_eq_true'] at hok
    subst hok
    exact hw.pass hp rfl (hphase ▸ rfl) fun _ h => by cases h
  | @advanced s payload hphase =>
    rw [hphase] at hf
    have hs : p.producer.pointers = some s := hphase ▸ rfl
    have htarget := (hb.producer s hs).2.2
    refine hw.quiet hp rfl ?_ (fun _ h => by cases h) hb.finalizer fun _ _ _ _ hfin => ?_
    · simp only [reach, hphase, Producer.sentHead]
    · change p.finalizer = _ at hfin
      rw [hfin] at htarget
      cases htarget
  | converted hphase | stored hphase | observed hphase | observedAll hphase | marked hphase
  | snapshot hphase | saved hphase | broadcast hphase =>
    exact hw.pass hp rfl (hphase ▸ rfl) fun _ h => by cases h
  | sent hphase =>
    refine hw.quiet hp rfl ?_ (fun _ h => by cases h) hb.finalizer hb.head
    simp only [reach, hphase, Producer.sentHead]
  | abandoned hphase =>
    refine hw.quiet hp rfl ?_ (fun _ h => by cases h) hb.finalizer hb.head
    obtain ⟨_, h⟩ | ⟨_, _, h⟩ | ⟨_, h⟩ | ⟨_, _, h⟩ := hphase
    all_goals simp only [reach, SequencerProcess.abandon, h, Producer.sentHead]
  | torn hphase =>
    refine hw.quiet hp rfl ?_ (fun _ h => by cases h) hb.finalizer hb.head
    simp only [reach, SequencerProcess.abandon, hphase, Producer.sentHead]

/-- A step of the finalizer outside the exchange with the client. -/
theorem Ordered.settle (hw : Ordered env w) (hp : w.process = some p)
    (hreceived : w'.received = w.received) (hstate : p'.state = p.state)
    (hproducer : p'.producer = p.producer) (htarget : p'.finalizer.target = none)
    (hsent : ∀ hash, p.finalizer.sentFinal hash = hash) : Ordered env (w'.run p') := by
  have hb := hw.running p hp
  have hsent' : ∀ hash, p'.finalizer.sentFinal hash = hash := by
    intro hash
    cases hf : p'.finalizer with
    | finalizing blob b head tried =>
      rw [hf] at htarget
      cases htarget
    | confirmed blob b =>
      rw [hf] at htarget
      cases htarget
    | _ => rfl
  refine hw.quiet hp hreceived ?_ (fun s hs => ?_) (fun b hb' => ?_) fun blob b head tried hf => ?_
  · simp only [reach, hstate, hproducer, hsent, hsent']
  · rw [hproducer] at hs
    obtain ⟨hsafe, hfinalized, -⟩ := hb.producer s hs
    rw [hstate]
    exact ⟨hsafe, hfinalized, htarget⟩
  · rw [htarget] at hb'
    cases hb'
  · rw [hf] at htarget
    cases htarget

/-- Reading the head to ask with, when no produced block is under way. -/
theorem Ordered.readHead {blob : Option Bytes} {b : PendingBlock} (hw : Ordered env w)
    (hp : w.process = some p) (hok : keepsOrder env w (.finalize .readHead))
    (hphase : p.finalizer = .advancing blob b) :
    Ordered env (w.run (p.finalize (.finalizing blob b p.state.head false))) := by
  simp only [keepsOrder, hp, hphase, Option.all_some, Bool.and_eq_true, Option.isNone_iff_eq_none,
    decide_eq_true_eq] at hok
  obtain ⟨hpointers, hnumbers⟩ := hok
  refine hw.quiet hp rfl ?_ (fun s hs => ?_) (fun c hc => ?_) fun _ _ _ _ hf => ?_
  · simp only [reach, SequencerProcess.finalize, hphase, Finalizer.sentFinal]
  · change p.producer.pointers = _ at hs
    rw [hpointers] at hs
    cases hs
  · cases hc
    exact hnumbers
  · cases hf
    rfl

/-- Asking the client to finalize a block, under the head it already has. -/
theorem Ordered.askFinal {blob : Option Bytes} {b : PendingBlock} {head : B256} {tried : Bool}
    {next : Finalizer} (hw : Ordered env w) (hp : w.process = some p)
    (hphase : p.finalizer = .finalizing blob b head tried)
    (hnext : next = .confirmed blob b ∨ next = .finalizing blob b head true) :
    Ordered env ((w.receive ⟨head, b.blockHash, b.blockHash⟩).run (p.finalize next)) := by
  have hb := hw.running p hp
  have hnumbers := hb.finalizer b (hphase ▸ rfl)
  have hpointers : p.producer.pointers = none := hb.pointers_none hphase rfl
  have hhead := hb.head _ _ _ _ hphase
  have hsent : p.producer.sentHead p.state.head = head := by
    rw [hhead, sentHead_of_no_pointers hpointers]
  have htarget : next.target = some b := by obtain rfl | rfl := hnext <;> rfl
  have hfinal : ∀ hash, next.sentFinal hash = b.blockHash := by
    intro hash
    obtain rfl | rfl := hnext <;> rfl
  refine hw.send hp rfl ⟨?_, ?_, ?_⟩ ⟨?_, ?_, ?_⟩ (fun s hs => ?_) (fun c hc => ?_)
    fun _ _ _ _ hf => ?_
  · exact (congrArg env.tree.number hsent).le
  · simp only [reach, hphase]
    cases tried with
    | true => exact Nat.le_refl _
    | false => exact hnumbers.1
  · simp only [reach, hphase]
    cases tried with
    | true => exact Nat.le_refl _
    | false => exact hnumbers.2
  · exact (congrArg env.tree.number hsent).ge
  · exact (congrArg env.tree.number (hfinal p.state.safe)).ge
  · exact (congrArg env.tree.number (hfinal p.state.finalized)).ge
  · change p.producer.pointers = _ at hs
    rw [hpointers] at hs
    cases hs
  · change next.target = _ at hc
    rw [htarget] at hc
    cases hc
    exact hnumbers
  · change next = _ at hf
    obtain rfl | rfl := hnext
    · cases hf
    · cases hf
      exact hhead

/-- Writing a confirmed block into the state: the client was told of it already. -/
theorem Ordered.record {blob : Option Bytes} {b : PendingBlock} {next : Finalizer}
    (hw : Ordered env w) (hp : w.process = some p) (hphase : p.finalizer = .confirmed blob b)
    (hnext : (∃ blob', blob = some blob' ∧ next = .clearing blob' b) ∨ next = .draining) :
    Ordered env (w.run { p with
      state := { p.state with safe := b.blockHash, finalized := b.blockHash }
      finalizer := next }) := by
  have hb := hw.running p hp
  have htarget : next.target = none := by obtain ⟨_, -, rfl⟩ | rfl := hnext <;> rfl
  refine hw.quiet hp rfl ?_ (fun s hs => ?_) (fun c hc => ?_) fun _ _ _ _ hf => ?_
  · simp only [reach, hphase, Finalizer.sentFinal]
    obtain ⟨_, -, rfl⟩ | rfl := hnext <;> rfl
  · have hnone := hb.pointers_none hphase rfl
    rw [show p.producer.pointers = some s from hs] at hnone
    cases hnone
  · change next.target = _ at hc
    rw [htarget] at hc
    cases hc
  · change next = _ at hf
    rw [hf] at htarget
    cases htarget

theorem Ordered.finalize {a : FinalizeAction} (hw : Ordered env w) (hp : w.process = some p)
    (hok : keepsOrder env w (.finalize a)) (h : FinalizeStep env w p a w' p') :
    Ordered env (w'.run p') := by
  cases h with
  | received hphase hchannel hnext =>
    obtain rfl | rfl := hnext
    all_goals exact hw.settle hp rfl rfl rfl rfl (hphase ▸ fun _ => rfl)
  | timed hphase | stopReceiving hphase | published hphase | stopPublishing hphase
  | gated hphase | cursorRead hphase | called hphase | confirmed hphase | drained hphase
  | drainReceived hphase | cleared hphase | clearFailed hphase | snapshot hphase =>
    exact hw.settle hp rfl rfl rfl rfl (hphase ▸ fun _ => rfl)
  | publishFailed hphase =>
    exact hw.settle hp rfl rfl rfl (hphase ▸ rfl) (hphase ▸ fun _ => rfl)
  | stopSettling hphase =>
    obtain hphase | hphase := hphase
    all_goals exact hw.settle hp rfl rfl rfl rfl (hphase ▸ fun _ => rfl)
  | retried hphase =>
    obtain ⟨_, hphase⟩ | ⟨_, hphase⟩ := hphase
    all_goals exact hw.settle hp rfl rfl rfl rfl (hphase ▸ fun _ => rfl)
  | headRead hphase => exact hw.readHead hp hok hphase
  | asked hphase hnext => exact hw.askFinal hp hphase hnext
  | refused hphase hreply =>
    simp only [keepsOrder, settles, Bool.or_eq_true, decide_eq_true_eq] at hok
    exact absurd hok (not_or.2 hreply)
  | @failed blob b head tried hphase =>
    -- The drain goes on to the next block of its batch, a flushed batch is given up.
    simp only [keepsOrder, hp, hphase, Option.all_some, Bool.not_eq_true'] at hok
    subst hok
    cases blob
    all_goals exact hw.settle hp rfl rfl rfl rfl (hphase ▸ fun _ => rfl)
  | recorded hphase hnext => exact hw.record hp hphase hnext
  | saved hphase | saveFailed hphase =>
    unfold nextSettlement
    split
    all_goals exact hw.settle hp rfl rfl rfl rfl (hphase ▸ fun _ => rfl)

theorem Ordered.boot {discovered : B256} {now : Nat} {pendingReadable : Bool}
    (hw : Ordered env w) (hok : keepsOrder env w (.boot discovered now pendingReadable)) :
    Ordered env (w.boot env discovered now pendingReadable) := by
  refine ⟨hw.inOrder, fun q hq => ?_⟩
  cases hq
  refine ⟨fun fc hfc => ?_, fun _ h => (by cases h), fun _ h => (by cases h),
    fun _ _ _ _ h => (by cases h)⟩
  change fc.NotAbove env.tree (w.bootState env discovered now).forkchoice
  have hinOrder := hw.inOrder
  change fc ∈ w.received at hfc
  -- the last fork choice is above the others
  cases hlist : w.received with
  | nil =>
    rw [hlist] at hfc
    cases hfc
  | cons last earlier =>
    rw [hlist] at hfc hinOrder
    simp only [keepsOrder, hlist, List.head?_cons, Option.all_some, decide_eq_true_eq] at hok
    rcases List.mem_cons.1 hfc with rfl | hfc
    · exact hok
    · exact ((List.pairwise_cons.1 hinOrder).1 fc hfc).trans hok

theorem Ordered.step {a : Action} (hw : Ordered env w) (hok : keepsOrder env w a)
    (hfits : ∀ p, w.process = some p → Fits env p.state.head p.producer)
    (h : enabled (exec env) w a w') : Ordered env w' := by
  have hkeep : ∀ w₁ : SequencerWorld, w₁.received = w.received → w₁.process = w.process →
      Ordered env w₁ := by
    intro w₁ hreceived hprocess
    refine ⟨hreceived ▸ hw.inOrder, fun p hp => ?_⟩
    have hb := hw.running p (hprocess ▸ hp)
    exact ⟨hreceived ▸ hb.received, hb.producer, hb.finalizer, hb.head⟩
  cases exec_step h with
  | boot => exact hw.boot hok
  | @recover _ p p' _ hp hr =>
    have hb := hw.running _ hp
    obtain ⟨hstate, hproducer, -⟩ := recover_frame hr
    obtain ⟨-, hfinalizer, -⟩ := recover_finalizer hr
    refine hw.quiet hp ?_ ?_ ?_ ?_ ?_
    · obtain ⟨_, _, -, ⟨_, _, -, -, rfl, -⟩ | ⟨rfl | rfl, -⟩⟩ := recover_cases hr <;> rfl
    · simp only [reach, hstate, hproducer, hfinalizer]
    · rw [hstate, hproducer, hfinalizer]
      exact hb.producer
    · rw [hstate, hfinalizer]
      exact hb.finalizer
    · rw [hstate, hfinalizer]
      exact hb.head
  | crash => exact ⟨hw.inOrder, fun p hp => by cases hp⟩
  | shutdown hp =>
    have hb := hw.running _ hp
    exact hw.quiet hp rfl rfl hb.producer hb.finalizer hb.head
  | produce hp hr => exact hw.produce hp (hfits _ hp) hok hr
  | finalize hp hr => exact hw.finalize hp hok hr
  | tracked | receipt | submitted | windowed => exact hkeep _ rfl rfl
  | landed =>
    obtain ⟨-, hprocess, -, -, -, -, hreceived, -⟩ := land_frame w _ _
    exact hkeep _ hreceived hprocess

/-- In a run whose steps all keep the order, no fork choice the client receives is below an
earlier one, in its head, its safe or its finalized block. -/
theorem received_inOrder
    (h : Reachable (· = fresh) (guarded (fun w a => keepsOrder env w a) (enabled (exec env))) w) :
    InOrder env.tree w.received := by
  suffices hw : Ordered env w from hw.inOrder
  refine h.inv_of (J := fun w => ∀ p, w.process = some p → Fits env p.state.head p.producer)
    (fun w hw p hp => reachable_fits hw.of_guarded hp) ?_ ?_
  · rintro _ rfl
    exact ⟨.nil, fun p hp => by cases hp⟩
  · exact fun w a w' hfits _ hw hs => hw.step hs.1 hfits hs.2

/-! ## Runs -/

def settleFirst : List Action := .boot (.repeated 0) 0 true :: wholePass payload1 ++
  publishAndCall ++ [.land ⟨block1, [], 0⟩ true, .finalize (.reply true)]

def finalizeThenProduce : List Action := settleFirst ++ [.finalize .readHead,
  .finalize (.forkchoice (some .valid)), .finalize .record] ++ wholePass payload2

def afterTurns : SequencerWorld :=
  (execAll (exec (smallEnv fun _ => [])) fresh finalizeThenProduce).getD fresh

theorem received_inOrder_turns : InOrder smallTree afterTurns.received := by
  have hrun : Run (guarded (fun w a => keepsOrder (smallEnv fun _ => []) w a)
      (enabled (exec (smallEnv fun _ => [])))) fresh finalizeThenProduce afterTurns :=
    run_of_execOk rfl
  exact received_inOrder ⟨_, _, rfl, hrun⟩

/-- The pass for block 2 reads the pointers before block 1 is finalized, and has its block
accepted afterwards. -/
def produceAround : List Action := settleFirst ++ [.produce (.start 0),
  .produce (.forkchoice (some .valid)), .produce (.getPayload (some payload2)),
  .produce (.newPayload (some .valid)), .finalize .readHead,
  .finalize (.forkchoice (some .valid)), .finalize .record,
  .produce (.forkchoice (some .valid))]

def afterOverlap : SequencerWorld :=
  (execAll (exec (smallEnv fun _ => [])) fresh produceAround).getD fresh

/-- The safe and the finalized block go back from block 1 to genesis. -/
theorem overlap_falls_back :
    Reachable (· = fresh) (enabled (exec (smallEnv fun _ => []))) afterOverlap ∧
    afterOverlap.received.take 2 = [⟨.repeated 2, .repeated 0, .repeated 0⟩,
      ⟨.repeated 1, .repeated 1, .repeated 1⟩] ∧
    ¬ InOrder smallTree afterOverlap.received := by
  have hrun : Run (enabled (exec (smallEnv fun _ => []))) fresh produceAround afterOverlap :=
    run_of_execAll rfl
  refine ⟨⟨_, _, rfl, hrun⟩, rfl, fun h => ?_⟩
  have hlast := (List.pairwise_cons.1 h).1 ⟨.repeated 1, .repeated 1, .repeated 1⟩
    List.mem_cons_self
  exact absurd hlast (by decide)

end SequencerWorld

end Podseq.Node
