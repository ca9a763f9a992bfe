import Podseq.Lib.PrefixCode
import Podseq.Node.SequencerSteps

/-! # Settling a height again

Within one flush the blob never changes, so a settle call that is repeated finds its own blob.
A block that settled and comes back in another batch does not, and one whose predecessor is not
settled comes too early. The condition is on the batch that is published: it goes on where the
Registry stands, or its first block is the one that was settled last, with this very batch.
-/
namespace Podseq.Node
open Podseq.Lib Podseq.Move

namespace SequencerWorld

variable {env : SequencerEnv} {w w' : SequencerWorld} {p p' : SequencerProcess}

/-- The batch settles in order under `blob`: its heights go up one by one, or stand still; its
first block is the next to be settled, or the latest that was and under `blob`; and no settle
transaction in flight can settle anything but that first block. -/
structure Settling (w : SequencerWorld) (blob : Bytes) (batch : List PendingBlock) : Prop where
  climbs : (batch.map (·.block.header.height)).IsChain fun n m => n ≤ m ∧ m ≤ n + 1
  front : ∀ b ∈ batch.head?, b.block.header.height = w.registry.latestHeight + 1 ∨
    b.block.header.height = w.registry.latestHeight ∧
      w.registry.commitments w.registry.latestHeight = some blob
  inFlight : ∀ call ∈ w.inFlight, call.block.header.height ≤ w.registry.latestHeight ∨
    ∃ b ∈ batch.head?, call.block.header.height = b.block.header.height ∧ call.blobId = blob

instance (w : SequencerWorld) (blob : Bytes) (batch : List PendingBlock) :
    Decidable (Settling w blob batch) :=
  decidable_of_iff (_ ∧ _ ∧ _)
    ⟨fun h => ⟨h.1, h.2.1, h.2.2⟩, fun h => ⟨h.climbs, h.front, h.inFlight⟩⟩

/-- A batch is published only if it settles in order under the blob it gets. -/
def PublishesInOrder (env : SequencerEnv) (w : SequencerWorld) : Action → Prop
  | .finalize (.publish true) => ∀ p, w.process = some p →
      Settling w (env.blobId (p.batch.map (·.block))) p.batch
  | _ => True

instance (env : SequencerEnv) (w : SequencerWorld) (a : Action) :
    Decidable (PublishesInOrder env w a) :=
  match a with
  | .finalize (.publish true) =>
    match hp : w.process with
    | none => isTrue fun p h => by rw [hp] at h; cases h
    | some p => decidable_of_iff (Settling w (env.blobId (p.batch.map (·.block))) p.batch)
        ⟨fun h q hq => by rw [hp] at hq; cases hq; exact h, fun h => h p hp⟩
  | .finalize (.publish false) | .finalize .receive | .finalize .timer | .finalize .interrupt
  | .finalize (.gate _) | .finalize (.readCursor _) | .finalize .call | .finalize (.reply _)
  | .finalize .readHead | .finalize (.forkchoice _) | .finalize .fail | .finalize .record
  | .finalize (.clear _) | .finalize .snapshot | .finalize (.save _) | .boot .. | .recover _
  | .crash | .shutdown | .produce _ | .track .. | .receipt .. | .submit ..
  | .stageWindowChange .. | .cancelWindowChange | .land .. => inferInstanceAs (Decidable True)

def Finalizer.blob : Finalizer → Option Bytes
  | .gating blob => some blob
  | .committing blob => some blob
  | .submitting blob _ => some blob
  | .awaiting blob _ => some blob
  | .advancing blob _ => blob
  | .finalizing blob _ _ _ => blob
  | .confirmed blob _ => blob
  | .clearing blob _ => some blob
  | .reading blob _ => some blob
  | .saving blob _ => some blob
  | _ => none

variable {blob : Bytes} {batch : List PendingBlock}

/-- A call for a height that is settled repeats the latest settlement. -/
def Repeats (call : SettleCall) (registry : Registry) : Prop :=
  call.block.header.height = registry.latestHeight ∧
    registry.commitments call.block.header.height = some call.blobId

/-- The contract accepts the repetition of the latest settlement. -/
theorem Repeats.doSettle {call : SettleCall} {registry : Registry} (h : Repeats call registry)
    (inbox : Inbox) (blockTs cursor : Nat) :
    Settlement.doSettle registry inbox call.blobId call.block.header.height blockTs cursor =
      .ok (registry, inbox) := by
  unfold Settlement.doSettle
  rw [if_pos h.1]
  simp only [bind_eq_ok, Table.borrow_eq_ok, require_eq_ok, exists_const, pure_eq_ok]
  exact ⟨_, h.2, rfl, trivial⟩

/-- The call is for the height that is settled next, or repeats the latest settlement. -/
def Follows (call : SettleCall) (registry : Registry) : Prop :=
  call.block.header.height = registry.latestHeight + 1 ∨ Repeats call registry

/-- The contract answers with the abort for a wrong height, or for another blob. -/
def Refused {α : Type} (r : Tx α) : Prop :=
  r = .error Settlement.eInvalidHeight ∨ r = .error Settlement.eConflictingBlob

/-- The answer to a call that follows is neither. -/
theorem Follows.not_refused {call : SettleCall} {registry : Registry} (h : Follows call registry)
    (inbox : Inbox) (blockTs cursor : Nat) :
    ¬Refused (Settlement.doSettle registry inbox call.blobId call.block.header.height blockTs
      cursor) := by
  intro hrefused
  rcases h with hnext | hrepeats
  · have hwithin := @Settlement.doSettle_next_failsWithin registry inbox call.blobId _ blockTs
      cursor hnext
    rcases hrefused with he | he
    · exact hwithin _ he _ rfl
    · exact hwithin _ he _ rfl
  · rw [hrepeats.doSettle] at hrefused
    rcases hrefused with he | he <;> cases he

/-- What holds in every state. -/
structure Resettling (w : SequencerWorld) : Prop where
  issued : ∀ e ∈ w.issued, Follows e.1 e.2
  executed : ∀ call ∈ w.executed, call.block.header.height ≤ w.registry.latestHeight
  settling : ∀ p blob, w.process = some p → Finalizer.blob p.finalizer = some blob →
    Settling w blob p.batch
  awaiting : ∀ p blob call, w.process = some p → p.finalizer = .awaiting blob call →
    ∃ b batch, p.batch = b :: batch ∧ call.block = b.block ∧ call.blobId = blob

theorem Settling.congr (hs : Settling w blob batch) (hregistry : w'.registry = w.registry)
    (hinFlight : w'.inFlight = w.inFlight) : Settling w' blob batch := by
  obtain ⟨hclimbs, hfront, hflight⟩ := hs
  refine ⟨hclimbs, ?_, ?_⟩
  · rwa [hregistry]
  · rwa [hregistry, hinFlight]

/-- Once the first block is settled, the rest of the batch goes on under the same blob. -/
theorem Settling.pop {b : PendingBlock} (hs : Settling w blob (b :: batch))
    (hdone : b.block.header.height ≤ w.registry.latestHeight) : Settling w blob batch := by
  obtain ⟨hclimbs, hfront, hflight⟩ := hs
  simp only [List.head?_cons, Option.mem_def, Option.some.injEq, forall_eq',
    exists_eq_left'] at hfront hflight
  obtain ⟨hheight, hcommitment⟩ := hfront.resolve_left (by omega)
  refine ⟨hclimbs.tail, fun c hc => ?_, fun call hcall => .inl ?_⟩
  · obtain ⟨rest, rfl⟩ := List.head?_eq_some_iff.1 hc
    obtain ⟨hle, hstep⟩ := (List.isChain_cons_cons.1 hclimbs).1
    dsimp only at hle hstep
    rcases Nat.lt_or_eq_of_le hle with hlt | heq
    · exact .inl (by omega)
    · exact .inr ⟨by omega, hcommitment⟩
  · rcases hflight call hcall with hle | ⟨heq, -⟩
    · exact hle
    · omega

/-- The call for the first block follows. -/
theorem Settling.follows {b : PendingBlock} {call : SettleCall}
    (hs : Settling w blob (b :: batch)) (hblock : call.block = b.block)
    (hblob : call.blobId = blob) : Follows call w.registry := by
  rw [Follows, Repeats, hblock, hblob]
  rcases hs.front b rfl with hnext | ⟨hheight, hcommitment⟩
  · exact .inl hnext
  · exact .inr ⟨hheight, hheight ▸ hcommitment⟩

/-- A call for the first block joins those in flight. -/
theorem Settling.call {b : PendingBlock} {tracked : Option Nat}
    (hs : Settling w blob (b :: batch)) (issued : List (SettleCall × Registry)) :
    Settling { w with inFlight := w.settleCall b blob tracked :: w.inFlight, issued } blob
      (b :: batch) := by
  refine ⟨hs.climbs, hs.front, fun call hcall => ?_⟩
  rcases List.mem_cons.1 hcall with rfl | hcall
  · exact .inr ⟨b, rfl, rfl, rfl⟩
  · exact hs.inFlight call hcall

/-- Whatever lands settles the first block at most. -/
theorem Settling.land {call : SettleCall} {admitted : Bool} (hs : Settling w blob batch)
    (hmem : call ∈ w.inFlight) : Settling (w.land call admitted) blob batch := by
  obtain ⟨hclimbs, hfront, hflight⟩ := hs
  obtain he | ⟨-, -, he⟩ | ⟨inbox, hheight, -, he⟩ := land_cases w call admitted
  · rw [he]
    exact ⟨hclimbs, hfront, fun c hc => hflight c (List.mem_of_mem_erase hc)⟩
  · rw [he]
    exact ⟨hclimbs, hfront, fun c hc => hflight c (List.mem_of_mem_erase hc)⟩
  · obtain ⟨b, hb, heq, rfl⟩ := (hflight call hmem).resolve_left (by omega)
    rw [he]
    refine ⟨hclimbs, fun b' hb' => .inr ⟨?_, ?_⟩, fun c hc => ?_⟩
    · cases (Option.mem_unique hb hb' : b = b')
      exact heq.symm
    · exact Function.update_self ..
    · rcases hflight c (List.mem_of_mem_erase hc) with hle | hother
      · refine .inl (Nat.le_trans hle ?_)
        dsimp only
        omega
      · exact .inr hother

/-! ## What the steps keep -/

/-- The invariant only looks at the chain, the calls and the finalizer. -/
theorem Resettling.congr (hw : Resettling w) (hissued : w'.issued = w.issued)
    (hexecuted : w'.executed = w.executed) (hregistry : w'.registry = w.registry)
    (hinFlight : w'.inFlight = w.inFlight)
    (hprocess : ∀ p', w'.process = some p' → Finalizer.blob p'.finalizer = none ∨
      ∃ p, w.process = some p ∧ p'.batch = p.batch ∧ p'.finalizer = p.finalizer) :
    Resettling w' := by
  refine ⟨?_, ?_, ?_, ?_⟩
  · rw [hissued]
    exact hw.issued
  · rw [hexecuted, hregistry]
    exact hw.executed
  · intro p' blob hp' hblob
    rcases hprocess p' hp' with hnone | ⟨p, hp, hbatch, hfinalizer⟩
    · rw [hnone] at hblob
      cases hblob
    · rw [hbatch]
      exact (hw.settling p blob hp (hfinalizer ▸ hblob)).congr hregistry hinFlight
  · intro p' blob call hp' hphase
    rcases hprocess p' hp' with hnone | ⟨p, hp, hbatch, hfinalizer⟩
    · rw [hphase] at hnone
      cases hnone
    · rw [hbatch]
      exact hw.awaiting p blob call hp (hfinalizer ▸ hphase)

theorem Resettling.land {call : SettleCall} {admitted : Bool} (hw : Resettling w)
    (hmem : call ∈ w.inFlight) : Resettling (w.land call admitted) := by
  obtain ⟨-, hprocess, -, -, -, -, -, hissued⟩ := land_frame w call admitted
  refine ⟨?_, ?_, ?_, ?_⟩
  · rw [hissued]
    exact hw.issued
  · obtain he | ⟨hheight, -, he⟩ | ⟨inbox, hheight, -, he⟩ := land_cases w call admitted
    · rw [he]
      exact hw.executed
    · rw [he]
      intro c hc
      rcases List.mem_cons.1 hc with rfl | hc
      · exact hheight.le
      · exact hw.executed c hc
    · rw [he]
      intro c hc
      rcases List.mem_cons.1 hc with rfl | hc
      · exact Nat.le_refl _
      · have := hw.executed c hc
        dsimp only
        omega
  · rw [hprocess]
    exact fun p blob hp hblob => (hw.settling p blob hp hblob).land hmem
  · rw [hprocess]
    exact hw.awaiting

/-- The finalizer moves on, and settles its batch in order where it settles one. -/
theorem Resettling.proceed (hw : Resettling w) (hissued : w'.issued = w.issued)
    (hexecuted : w'.executed = w.executed) (hregistry : w'.registry = w.registry)
    (hsettling : ∀ blob, Finalizer.blob p'.finalizer = some blob → Settling w' blob p'.batch)
    (hawaiting : ∀ blob call, p'.finalizer = .awaiting blob call →
      ∃ b batch, p'.batch = b :: batch ∧ call.block = b.block ∧ call.blobId = blob) :
    Resettling (w'.run p') := by
  refine ⟨?_, ?_, ?_, ?_⟩
  · exact hissued ▸ hw.issued
  · rw [show (w'.run p').executed = w.executed from hexecuted,
      show (w'.run p').registry = w.registry from hregistry]
    exact hw.executed
  · intro q blob hq hblob
    cases hq
    exact (hsettling blob hblob).congr rfl rfl
  · intro q blob call hq hphase
    cases hq
    exact hawaiting blob call hphase

/-- The finalizer leaves the flush. -/
theorem Resettling.leave (hw : Resettling w) (hissued : w'.issued = w.issued)
    (hexecuted : w'.executed = w.executed) (hregistry : w'.registry = w.registry)
    (hblob : Finalizer.blob p'.finalizer = none) : Resettling (w'.run p') := by
  refine hw.proceed hissued hexecuted hregistry (fun blob h => ?_) fun blob call h => ?_
  · rw [hblob] at h
    cases h
  · rw [h] at hblob
    cases hblob

/-- The finalizer goes on with the same batch and blob, and awaits no reply. -/
theorem Resettling.stay (hw : Resettling w) (hp : w.process = some p)
    (hissued : w'.issued = w.issued) (hexecuted : w'.executed = w.executed)
    (hregistry : w'.registry = w.registry) (hinFlight : w'.inFlight = w.inFlight)
    (hbatch : p'.batch = p.batch)
    (hblob : ∀ blob, Finalizer.blob p'.finalizer = some blob →
      Finalizer.blob p.finalizer = some blob)
    (hawaiting : ∀ blob call, p'.finalizer ≠ .awaiting blob call) : Resettling (w'.run p') := by
  refine hw.proceed hissued hexecuted hregistry (fun blob h => ?_) fun blob call h => ?_
  · rw [hbatch]
    exact (hw.settling p blob hp (hblob blob h)).congr hregistry hinFlight
  · exact absurd h (hawaiting blob call)

theorem Resettling.next (hw : Resettling w) (hp : w.process = some p)
    {stored : StoredState} (hphase : p.finalizer = .saving blob stored)
    (hissued : w'.issued = w.issued) (hexecuted : w'.executed = w.executed)
    (hregistry : w'.registry = w.registry) (hinFlight : w'.inFlight = w.inFlight) :
    Resettling (w'.run (nextSettlement p blob)) := by
  unfold nextSettlement
  split
  · exact hw.leave hissued hexecuted hregistry rfl
  · refine hw.stay hp hissued hexecuted hregistry hinFlight rfl (fun blob' h => ?_) ?_
    · rw [hphase]
      exact h
    · exact fun _ _ => Finalizer.noConfusion

theorem Resettling.failed {b : PendingBlock} {blob : Option Bytes} (hw : Resettling w)
    (hissued : w'.issued = w.issued) (hexecuted : w'.executed = w.executed)
    (hregistry : w'.registry = w.registry) :
    Resettling (w'.run (finalizeFailed p blob b)) := by
  cases blob <;> exact hw.leave hissued hexecuted hregistry rfl

theorem Resettling.finalize {a : FinalizeAction} (hw : Resettling w) (hp : w.process = some p)
    (hok : PublishesInOrder env w (.finalize a)) (h : FinalizeStep env w p a w' p') :
    Resettling (w'.run p') := by
  cases h with
  | received hphase hchannel hnext =>
    obtain rfl | rfl := hnext <;> exact hw.leave rfl rfl rfl rfl
  | timed | stopReceiving | stopPublishing | stopSettling | drained | drainReceived =>
    exact hw.leave rfl rfl rfl rfl
  | published =>
    refine hw.proceed rfl rfl rfl (fun blob hblob => ?_) fun _ _ => Finalizer.noConfusion
    cases hblob
    exact (hok p hp).congr rfl rfl
  | publishFailed hphase =>
    refine hw.leave rfl rfl rfl ?_
    rw [hphase]
    rfl
  | gated hphase | cursorRead hphase =>
    refine hw.stay hp rfl rfl rfl rfl rfl (fun blob' hblob => ?_) fun _ _ => Finalizer.noConfusion
    rw [hphase]
    exact hblob
  -- the batch settles in order, so the call for its front block follows the registry
  | @called blob tracked b batch hphase hbatch =>
    have hs := hw.settling p blob hp (by rw [hphase]; rfl)
    rw [hbatch] at hs
    have hcalled : Settling { w with
        inFlight := w.settleCall b blob tracked :: w.inFlight
        issued := (w.settleCall b blob tracked, w.registry) :: w.issued } blob (b :: batch) :=
      hs.call _
    refine ⟨fun e he => ?_, hw.executed, ?_, ?_⟩
    · rcases List.mem_cons.1 he with rfl | he
      · exact hs.follows rfl rfl
      · exact hw.issued e he
    · intro q blob' hq hblob
      cases hq
      cases hblob
      exact hbatch ▸ hcalled.congr rfl rfl
    · intro q blob' call hq hcall
      cases hq
      cases hcall
      exact ⟨b, batch, hbatch, rfl, rfl⟩
  | retried hphase =>
    refine hw.stay hp rfl rfl rfl rfl rfl (fun blob' hblob => ?_) fun _ _ => Finalizer.noConfusion
    obtain ⟨_, hphase⟩ | ⟨_, hphase⟩ := hphase
    all_goals
      rw [hphase]
      exact hblob
  -- with its front block settled, the rest of the batch is still in order
  | @confirmed blob call b batch hphase hbatch hcall =>
    have hs := hw.settling p blob hp (by rw [hphase]; rfl)
    obtain ⟨b', batch', hbatch', hblock, -⟩ := hw.awaiting p blob call hp hphase
    rw [hbatch] at hs hbatch'
    cases hbatch'
    refine hw.proceed rfl rfl rfl (fun blob' hblob => ?_) fun _ _ => Finalizer.noConfusion
    cases hblob
    exact hs.pop (hblock ▸ hw.executed call hcall)
  | headRead hphase | cleared hphase | clearFailed hphase | snapshot hphase =>
    refine hw.stay hp rfl rfl rfl rfl rfl (fun blob' hblob => ?_) fun _ _ => Finalizer.noConfusion
    rw [hphase]
    exact hblob
  | asked hphase hnext =>
    obtain rfl | rfl := hnext
    all_goals
      refine hw.stay hp rfl rfl rfl rfl rfl (fun blob' hblob => ?_) fun _ _ =>
        Finalizer.noConfusion
      rw [hphase]
      exact hblob
  | refused => exact hw.failed rfl rfl rfl
  | failed => exact hw.failed rfl rfl rfl
  | recorded hphase hnext =>
    obtain ⟨blob', rfl, rfl⟩ | rfl := hnext
    · refine hw.stay hp rfl rfl rfl rfl rfl (fun blob'' hblob => ?_) fun _ _ =>
        Finalizer.noConfusion
      rw [hphase]
      exact hblob
    · exact hw.leave rfl rfl rfl rfl
  | saved hphase => exact hw.next hp hphase rfl rfl rfl rfl
  | saveFailed hphase => exact hw.next hp hphase rfl rfl rfl rfl

theorem Resettling.step {a : Action} (hw : Resettling w) (hok : PublishesInOrder env w a)
    (h : enabled (exec env) w a w') : Resettling w' := by
  cases exec_step h with
  | boot =>
    refine hw.congr rfl rfl rfl rfl fun p' hp' => .inl ?_
    cases hp'
    rfl
  | recover hp hr =>
    obtain ⟨hbatch, hfinalizer, hregistry, -, hinFlight, hissued, hexecuted, -⟩ :=
      recover_finalizer hr
    refine hw.congr hissued hexecuted hregistry hinFlight fun p' hp' => .inr ⟨_, hp, ?_⟩
    cases hp'
    exact ⟨hbatch, hfinalizer⟩
  | crash => exact hw.congr rfl rfl rfl rfl fun p' hp' => by cases hp'
  | shutdown hp =>
    refine hw.congr rfl rfl rfl rfl fun p' hp' => .inr ⟨_, hp, ?_⟩
    cases hp'
    exact ⟨rfl, rfl⟩
  | produce hp hr =>
    obtain ⟨hbatch, hfinalizer, hregistry, -, hinFlight, hissued, hexecuted, -⟩ := hr.frame
    refine hw.congr hissued hexecuted hregistry hinFlight fun p' hp' => .inr ⟨_, hp, ?_⟩
    cases hp'
    exact ⟨hbatch, hfinalizer⟩
  | finalize hp hr => exact hw.finalize hp hok hr
  | tracked | receipt | submitted | windowed =>
    exact hw.congr rfl rfl rfl rfl fun p' hp' => .inr ⟨p', hp', rfl, rfl⟩
  | landed hmem => exact hw.land hmem

theorem reachable_resettling
    (h : Reachable (· = fresh) (guarded (PublishesInOrder env) (enabled (exec env))) w) :
    Resettling w := by
  refine h.inv ?_ fun w a w' hw hs => hw.step hs.1 hs.2
  rintro _ rfl
  refine ⟨?_, ?_, ?_, ?_⟩
  · intro e he
    cases he
  · intro c hc
    cases hc
  · intro p blob hp
    cases hp
  · intro p blob call hp
    cases hp

/-- If every batch is published in order, each settle call for a height that is already settled
is for the latest height with the blob it was settled with, and the contract accepts it; and
neither when a call is sent nor while its reply is awaited does the contract answer it with
`E_INVALID_HEIGHT` or `E_CONFLICTING_BLOB`. -/
theorem resettled_accepted
    (h : Reachable (· = fresh) (guarded (PublishesInOrder env) (enabled (exec env))) w) :
    (∀ call registry, (call, registry) ∈ w.issued →
      (call.block.header.height ≤ registry.latestHeight →
        call.block.header.height = registry.latestHeight ∧
        registry.commitments call.block.header.height = some call.blobId ∧
        ∀ inbox blockTs cursor, Settlement.doSettle registry inbox call.blobId
          call.block.header.height blockTs cursor = .ok (registry, inbox)) ∧
      ∀ inbox blockTs cursor, ¬Refused (Settlement.doSettle registry inbox call.blobId
        call.block.header.height blockTs cursor)) ∧
    ∀ p blob call, w.process = some p → p.finalizer = .awaiting blob call →
      ∀ inbox blockTs cursor, ¬Refused (Settlement.doSettle w.registry inbox call.blobId
        call.block.header.height blockTs cursor) := by
  have hw := reachable_resettling h
  refine ⟨fun call registry hissued => ⟨fun hsettled => ?_, ?_⟩, fun p blob call hp hphase => ?_⟩
  · have hrepeats : Repeats call registry :=
      (hw.issued _ hissued).resolve_left fun hnext => by
        dsimp only at hnext
        omega
    exact ⟨hrepeats.1, hrepeats.2, hrepeats.doSettle⟩
  · exact (hw.issued _ hissued).not_refused
  · obtain ⟨b, batch, hbatch, hblock, hblob⟩ := hw.awaiting p blob call hp hphase
    have hs := hw.settling p blob hp (by rw [hphase]; rfl)
    rw [hbatch] at hs
    exact (hs.follows hblock hblob).not_refused

/-! ## Runs -/

/-- The bytes of a block, with unary numbers. -/
def plainBytes (block : Block) : Bytes :=
  ((unary 0 1 block.header.height ++ block.header.parentHash.val) ++
    (block.header.stateRoot.val ++ unary 0 1 block.header.timestamp)) ++
    (encodeList (unary 0 1) (fun byte => [byte]) block.data ++
      encodeOption (fun some => if some then 1 else 0) Subtype.val block.signature)

/-- A blob id that tells the batches apart: their bytes. -/
def plainBlobId : List Block → Bytes := encodeList (unary 0 1) plainBytes

theorem plainBlobId_injective : Function.Injective plainBlobId := by
  have hnat : PrefixFree (unary (0 : UInt8) 1) := .unary (by decide)
  have hhash : PrefixFree (Subtype.val : B256 → Bytes) :=
    .of_length (fun hash => hash.property) Subtype.val_injective
  have hsignature : PrefixFree (Subtype.val : FixedBytes 64 → Bytes) :=
    .of_length (fun s => s.property) Subtype.val_injective
  have hdata : PrefixFree fun byte : UInt8 => [byte] :=
    .of_length (fun _ => rfl) fun _ _ h => (List.cons.inj h).1
  have hblock : PrefixFree plainBytes := by
    refine PrefixFree.comp (f := fun block : Block => (((block.header.height,
      block.header.parentHash), (block.header.stateRoot, block.header.timestamp)),
      (block.data, block.signature)))
      (((hnat.pair hhash).pair (hhash.pair hnat)).pair
        ((PrefixFree.list hnat hdata).pair (.option (by decide) hsignature))) ?_
    rintro ⟨⟨_, _, _, _⟩, _, _⟩ ⟨⟨_, _, _, _⟩, _, _⟩ h
    simp only [Prod.mk.injEq] at h
    obtain ⟨⟨⟨rfl, rfl⟩, rfl, rfl⟩, rfl, rfl⟩ := h
    rfl
  exact (PrefixFree.list hnat hblock).injective

def firstCall : SettleCall where
  block := block1
  blobId := plainBlobId [block1]
  cursor := 0

/-- The reply to a settle call that executed is lost, and the call is repeated. -/
def lostReply : List Action := .boot (.repeated 0) 0 true :: wholePass payload1 ++
  publishAndCall ++ [.land firstCall true, .finalize (.reply false),
    .finalize (.readCursor true), .finalize .call]

def afterLostReply : SequencerWorld :=
  (execAll (exec (smallEnv plainBlobId)) fresh lostReply).getD fresh

def settledOnce : Registry :=
  { Settlement.initializeRegistry 0 with
    commitments := Function.update Table.empty 1 (some firstCall.blobId)
    latestHeight := 1 }

set_option maxRecDepth 4000 in
theorem resettled_accepted_lostReply :
    ((firstCall.block.header.height = settledOnce.latestHeight ∧
      settledOnce.commitments firstCall.block.header.height = some firstCall.blobId ∧
      ∀ inbox blockTs cursor, Settlement.doSettle settledOnce inbox firstCall.blobId
        firstCall.block.header.height blockTs cursor = .ok (settledOnce, inbox)) ∧
      ∀ inbox blockTs cursor, ¬Refused (Settlement.doSettle settledOnce inbox firstCall.blobId
        firstCall.block.header.height blockTs cursor)) ∧
    ∀ inbox blockTs cursor, ¬Refused (Settlement.doSettle afterLostReply.registry inbox
      firstCall.blobId firstCall.block.header.height blockTs cursor) := by
  have hrun : Run (guarded (PublishesInOrder (smallEnv plainBlobId))
      (enabled (exec (smallEnv plainBlobId)))) fresh lostReply afterLostReply :=
    run_of_execDecide rfl
  obtain ⟨hissued, hawaited⟩ := resettled_accepted ⟨_, _, rfl, hrun⟩
  obtain ⟨hrepeat, hanswer⟩ := hissued firstCall settledOnce List.mem_cons_self
  exact ⟨⟨hrepeat (by decide), hanswer⟩, hawaited _ (plainBlobId [block1]) firstCall rfl rfl⟩

/-- Block 1 settles, its finalization is refused, and block 2 joins the batch before block 1 is
published again. -/
def refusedFinalization : List Action := .boot (.repeated 0) 0 true :: wholePass payload1 ++
  publishAndCall ++ [.land firstCall true, .finalize (.reply true), .finalize .readHead,
    .finalize (.forkchoice none)] ++ wholePass payload2 ++ publishAndCall

def afterRefusal : SequencerWorld :=
  (execAll (exec (smallEnv plainBlobId)) fresh refusedFinalization).getD fresh

def secondCall : SettleCall := { firstCall with blobId := plainBlobId [block1, block2] }

set_option maxRecDepth 4000 in
/-- The settled block is called again under another blob, which the contract never accepts. -/
theorem resettled_conflicting : Function.Injective (smallEnv plainBlobId).blobId ∧
    Reachable (· = fresh) (enabled (exec (smallEnv plainBlobId))) afterRefusal ∧
    (secondCall, settledOnce) ∈ afterRefusal.issued ∧
    secondCall.block.header.height = settledOnce.latestHeight ∧
    settledOnce.commitments secondCall.block.header.height ≠ some secondCall.blobId ∧
    ∀ inbox blockTs cursor, Settlement.doSettle settledOnce inbox secondCall.blobId
      secondCall.block.header.height blockTs cursor = .error Settlement.eConflictingBlob := by
  have hrun : Run (enabled (exec (smallEnv plainBlobId))) fresh refusedFinalization
      afterRefusal := run_of_execAll rfl
  refine ⟨plainBlobId_injective, ⟨_, _, rfl, hrun⟩, List.mem_cons_self, rfl, ?_, ?_⟩
  · decide
  · exact fun _ _ _ => rfl

end SequencerWorld

end Podseq.Node
