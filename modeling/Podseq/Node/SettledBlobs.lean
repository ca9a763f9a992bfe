import Podseq.Node.SettleTransaction

/-! # What stands behind a settled height

A height is settled under the id of a batch that was published before, and the first block of
that height in the batch is the one that was settled: the finalizer goes through a batch in its
order, and calls for no block before the blocks in front of it have executed. What it called may
land late, or twice; the book tells.
-/
namespace Podseq.Node
open Podseq.Lib Podseq.Move

namespace SequencerWorld

variable {env : SequencerEnv} {w w' : SequencerWorld} {p p' : SequencerProcess}
  {blob : Bytes} {rest : List Block} {block : Block}

/-- `rest` is the end of a batch that was published as `blob`, and the heights of the blocks in
front of it are settled. -/
def PublishedEnd (env : SequencerEnv) (w : SequencerWorld) (blob : Bytes) (rest : List Block) :
    Prop :=
  ∃ batch ∈ w.published, env.blobId batch = blob ∧ ∃ front, batch = front ++ rest ∧
    ∀ b ∈ front, b.header.height ≤ w.registry.latestHeight

/-- The block is the first of its height in a batch that was published, and the height is settled
under the id of that batch. -/
def FirstOfBatch (env : SequencerEnv) (w : SequencerWorld) (block : Block) : Prop :=
  ∃ batch ∈ w.published, w.registry.commitments block.header.height = some (env.blobId batch) ∧
    batch.find? (fun b => b.header.height = block.header.height) = some block

/-- The root is that of a block in the batch its height is settled under. -/
def RootOfBatch (env : SequencerEnv) (w : SequencerWorld) (height : Nat) (root : Bytes) : Prop :=
  ∃ batch ∈ w.published, w.registry.commitments height = some (env.blobId batch) ∧
    ∃ block ∈ batch, block.header.height = height ∧ block.header.stateRoot.val = root

/-- What holds in every state. -/
structure Available (env : SequencerEnv) (w : SequencerWorld) : Prop where
  inFlight : ∀ call ∈ w.inFlight, ∃ rest, PublishedEnd env w call.blobId (call.block :: rest)
  executed : ∀ call ∈ w.executed, call.block.header.height ≤ w.registry.latestHeight
  flushing : ∀ p blob, w.process = some p → Finalizer.blob p.finalizer = some blob →
    PublishedEnd env w blob (p.batch.map (·.block))
  awaiting : ∀ p blob call, w.process = some p → p.finalizer = .awaiting blob call →
    ∃ b batch, p.batch = b :: batch ∧ call.block = b.block
  heights : w.settled.map (·.header.height) = (List.range' 1 w.registry.latestHeight).reverse
  book : ∀ height blob, w.registry.commitments height = some blob →
    1 ≤ height ∧ height ≤ w.registry.latestHeight
  settled : ∀ block ∈ w.settled, FirstOfBatch env w block
  roots : ∀ height root, w.registry.stateRoots height = some root → RootOfBatch env w height root

theorem PublishedEnd.mono (h : PublishedEnd env w blob rest)
    (hpublished : ∀ batch ∈ w.published, batch ∈ w'.published)
    (hlatest : w.registry.latestHeight ≤ w'.registry.latestHeight) :
    PublishedEnd env w' blob rest := by
  obtain ⟨batch, hbatch, hblob, front, heq, hfront⟩ := h
  exact ⟨batch, hpublished batch hbatch, hblob, front, heq, fun b hb => (hfront b hb).trans hlatest⟩

/-- Once the first block is settled, the rest is what is left. -/
theorem PublishedEnd.tail (h : PublishedEnd env w blob (block :: rest))
    (hdone : block.header.height ≤ w.registry.latestHeight) : PublishedEnd env w blob rest := by
  obtain ⟨batch, hbatch, hblob, front, heq, hfront⟩ := h
  refine ⟨batch, hbatch, hblob, front ++ [block], by simpa using heq, fun b hb => ?_⟩
  rcases List.mem_append.1 hb with hb | hb
  · exact hfront b hb
  · rw [List.mem_singleton.1 hb]
    exact hdone

/-- The block to settle next is the first of its height. -/
theorem PublishedEnd.first (h : PublishedEnd env w blob (block :: rest))
    (hnext : w.registry.latestHeight < block.header.height) :
    ∃ batch ∈ w.published, env.blobId batch = blob ∧
      batch.find? (fun b => b.header.height = block.header.height) = some block := by
  obtain ⟨batch, hbatch, hblob, front, rfl, hfront⟩ := h
  refine ⟨_, hbatch, hblob, ?_⟩
  have hnone : front.find? (fun b => b.header.height = block.header.height) = none := by
    refine List.find?_eq_none.2 fun b hb hheight => ?_
    have hle := hfront b hb
    rw [of_decide_eq_true hheight] at hle
    omega
  rw [List.find?_append, hnone, Option.none_or, List.find?_cons_of_pos (by simp)]

theorem FirstOfBatch.mono (h : FirstOfBatch env w block)
    (hpublished : ∀ batch ∈ w.published, batch ∈ w'.published)
    (hbook : ∀ height blob, w.registry.commitments height = some blob →
      w'.registry.commitments height = w.registry.commitments height) :
    FirstOfBatch env w' block := by
  obtain ⟨batch, hbatch, hcommitment, hfirst⟩ := h
  exact ⟨batch, hpublished batch hbatch, (hbook _ _ hcommitment).trans hcommitment, hfirst⟩

theorem RootOfBatch.mono {height : Nat} {root : Bytes} (h : RootOfBatch env w height root)
    (hpublished : ∀ batch ∈ w.published, batch ∈ w'.published)
    (hbook : ∀ height blob, w.registry.commitments height = some blob →
      w'.registry.commitments height = w.registry.commitments height) :
    RootOfBatch env w' height root := by
  obtain ⟨batch, hbatch, hcommitment, hblock⟩ := h
  exact ⟨batch, hpublished batch hbatch, (hbook _ _ hcommitment).trans hcommitment, hblock⟩

/-! ## The steps of the node -/

/-- A step that leaves the chain alone, and the batch under way to what it was or less. -/
theorem Available.proceed (hw : Available env w)
    (hpublished : ∀ batch ∈ w.published, batch ∈ w'.published)
    (hlatest : w'.registry.latestHeight = w.registry.latestHeight)
    (hbook : w'.registry.commitments = w.registry.commitments)
    (hroots : w'.registry.stateRoots = w.registry.stateRoots)
    (hexecuted : w'.executed = w.executed) (hsettled : w'.settled = w.settled)
    (hinFlight : ∀ call ∈ w'.inFlight, call ∈ w.inFlight ∨
      ∃ rest, PublishedEnd env w' call.blobId (call.block :: rest))
    (hflushing : ∀ p blob, w'.process = some p → Finalizer.blob p.finalizer = some blob →
      PublishedEnd env w' blob (p.batch.map (·.block)))
    (hawaiting : ∀ p blob call, w'.process = some p → p.finalizer = .awaiting blob call →
      ∃ b batch, p.batch = b :: batch ∧ call.block = b.block) : Available env w' := by
  refine ⟨fun call hcall => ?_, ?_, hflushing, hawaiting, ?_, ?_, fun block hblock => ?_,
    fun height root hroot => ?_⟩
  · rcases hinFlight call hcall with hcall | hnew
    · obtain ⟨rest, hend⟩ := hw.inFlight call hcall
      exact ⟨rest, hend.mono hpublished hlatest.ge⟩
    · exact hnew
  · rw [hexecuted, hlatest]
    exact hw.executed
  · rw [hsettled, hlatest]
    exact hw.heights
  · rw [hbook, hlatest]
    exact hw.book
  · rw [hsettled] at hblock
    exact (hw.settled block hblock).mono hpublished fun _ _ _ => by rw [hbook]
  · rw [hroots] at hroot
    exact (hw.roots height root hroot).mono hpublished fun _ _ _ => by rw [hbook]

/-- A step that leaves the chain and its calls alone, and flushes what was flushed. -/
theorem Available.congr (hw : Available env w) (hpublished : w'.published = w.published)
    (hregistry : w'.registry = w.registry) (hinFlight : w'.inFlight = w.inFlight)
    (hexecuted : w'.executed = w.executed) (hsettled : w'.settled = w.settled)
    (hprocess : ∀ p', w'.process = some p' → Finalizer.blob p'.finalizer = none ∨
      ∃ p, w.process = some p ∧ p'.batch = p.batch ∧
        (∀ blob, Finalizer.blob p'.finalizer = some blob → Finalizer.blob p.finalizer = some blob) ∧
        ∀ blob call, p'.finalizer = .awaiting blob call → p.finalizer = .awaiting blob call) :
    Available env w' := by
  have hmem : ∀ batch ∈ w.published, batch ∈ w'.published := fun batch hbatch => hpublished ▸ hbatch
  refine hw.proceed hmem (by rw [hregistry]) (by rw [hregistry]) (by rw [hregistry]) hexecuted
    hsettled (fun call hcall => .inl (hinFlight ▸ hcall)) (fun p' blob hp' hblob => ?_)
    fun p' blob call hp' hphase => ?_
  · rcases hprocess p' hp' with hnone | ⟨p, hp, hbatch, hblobs, -⟩
    · rw [hnone] at hblob
      cases hblob
    · rw [hbatch]
      exact (hw.flushing p blob hp (hblobs blob hblob)).mono hmem (by rw [hregistry])
  · rcases hprocess p' hp' with hnone | ⟨p, hp, hbatch, -, hphases⟩
    · rw [hphase] at hnone
      cases hnone
    · rw [hbatch]
      exact hw.awaiting p blob call hp (hphases blob call hphase)

/-- The finalizer leaves the flush. -/
theorem Available.leave (hw : Available env w) (hpublished : w'.published = w.published)
    (hregistry : w'.registry = w.registry) (hinFlight : w'.inFlight = w.inFlight)
    (hexecuted : w'.executed = w.executed) (hsettled : w'.settled = w.settled)
    (hblob : Finalizer.blob p'.finalizer = none) : Available env (w'.run p') := by
  refine hw.congr hpublished hregistry hinFlight hexecuted hsettled fun q hq => .inl ?_
  cases hq
  exact hblob

/-- The finalizer goes on with the batch and the blob, and awaits no reply. -/
theorem Available.stay (hw : Available env w) (hp : w.process = some p)
    (hpublished : w'.published = w.published) (hregistry : w'.registry = w.registry)
    (hinFlight : w'.inFlight = w.inFlight) (hexecuted : w'.executed = w.executed)
    (hsettled : w'.settled = w.settled) (hbatch : p'.batch = p.batch)
    (hblob : ∀ blob, Finalizer.blob p'.finalizer = some blob →
      Finalizer.blob p.finalizer = some blob)
    (hawaiting : ∀ blob call, p'.finalizer ≠ .awaiting blob call) : Available env (w'.run p') := by
  refine hw.congr hpublished hregistry hinFlight hexecuted hsettled fun q hq => .inr ⟨p, hp, ?_⟩
  cases hq
  exact ⟨hbatch, hblob, fun blob call h => absurd h (hawaiting blob call)⟩

theorem Available.failed {b : PendingBlock} {blob : Option Bytes} (hw : Available env w)
    (hpublished : w'.published = w.published) (hregistry : w'.registry = w.registry)
    (hinFlight : w'.inFlight = w.inFlight) (hexecuted : w'.executed = w.executed)
    (hsettled : w'.settled = w.settled) : Available env (w'.run (finalizeFailed p blob b)) := by
  cases blob <;> exact hw.leave hpublished hregistry hinFlight hexecuted hsettled rfl

theorem Available.next {stored : StoredState} (hw : Available env w) (hp : w.process = some p)
    (hphase : p.finalizer = .saving blob stored) (hpublished : w'.published = w.published)
    (hregistry : w'.registry = w.registry) (hinFlight : w'.inFlight = w.inFlight)
    (hexecuted : w'.executed = w.executed) (hsettled : w'.settled = w.settled) :
    Available env (w'.run (nextSettlement p blob)) := by
  unfold nextSettlement
  split
  · exact hw.leave hpublished hregistry hinFlight hexecuted hsettled rfl
  · refine hw.stay hp hpublished hregistry hinFlight hexecuted hsettled rfl (fun blob' h => ?_)
      fun _ _ => Finalizer.noConfusion
    rw [hphase]
    exact h

theorem Available.finalize {a : FinalizeAction} (hw : Available env w) (hp : w.process = some p)
    (h : FinalizeStep env w p a w' p') : Available env (w'.run p') := by
  cases h with
  | received hphase hchannel hnext =>
    obtain rfl | rfl := hnext <;> exact hw.leave rfl rfl rfl rfl rfl rfl
  | timed | stopReceiving | stopPublishing | stopSettling | drained | drainReceived =>
    exact hw.leave rfl rfl rfl rfl rfl rfl
  | published hphase =>
    refine hw.proceed (fun _ => List.mem_cons_of_mem _) rfl rfl rfl rfl rfl
      (fun _ hcall => .inl hcall) (fun q blob hq hblob => ?_) fun q blob call hq hcall => ?_
    · cases hq
      cases hblob
      exact ⟨_, List.mem_cons_self, rfl, [], rfl, fun _ hb => absurd hb List.not_mem_nil⟩
    · cases hq
      cases hcall
  | publishFailed hphase =>
    refine hw.leave rfl rfl rfl rfl rfl ?_
    rw [hphase]
    rfl
  | gated hphase | cursorRead hphase =>
    refine hw.stay hp rfl rfl rfl rfl rfl rfl (fun blob' hblob => ?_)
      fun _ _ => Finalizer.noConfusion
    rw [hphase]
    exact hblob
  -- the call names the front block of the batch, which was served under the blob
  | @called blob tracked b batch hphase hbatch =>
    have hend := hw.flushing p blob hp (by rw [hphase]; rfl)
    refine hw.proceed (fun _ => id) rfl rfl rfl rfl rfl (fun call hcall => ?_)
      (fun q blob' hq hblob => ?_) fun q blob' call hq hcall => ?_
    · rcases List.mem_cons.1 hcall with rfl | hcall
      · rw [hbatch] at hend
        exact .inr ⟨_, hend.mono (fun _ => id) (Nat.le_refl _)⟩
      · exact .inl hcall
    · cases hq
      cases hblob
      exact hend.mono (fun _ => id) (Nat.le_refl _)
    · cases hq
      cases hcall
      exact ⟨b, batch, hbatch, rfl⟩
  | retried hphase =>
    refine hw.stay hp rfl rfl rfl rfl rfl rfl (fun blob' hblob => ?_)
      fun _ _ => Finalizer.noConfusion
    obtain ⟨_, hphase⟩ | ⟨_, hphase⟩ := hphase
    all_goals
      rw [hphase]
      exact hblob
  -- the call that was awaited has executed, so the front block of the batch is settled
  | @confirmed blob call b batch hphase hbatch hcall =>
    have hend := hw.flushing p blob hp (by rw [hphase]; rfl)
    obtain ⟨b', batch', hbatch', hblock⟩ := hw.awaiting p blob call hp hphase
    rw [hbatch] at hend hbatch'
    cases hbatch'
    refine hw.proceed (fun _ => id) rfl rfl rfl rfl rfl (fun _ hcall => .inl hcall)
      (fun q blob' hq hblob => ?_) fun q blob' call' hq hcall' => ?_
    · cases hq
      cases hblob
      have hdone := hw.executed call hcall
      rw [hblock] at hdone
      exact hend.tail hdone
    · cases hq
      cases hcall'
  | headRead hphase | cleared hphase | clearFailed hphase | snapshot hphase =>
    refine hw.stay hp rfl rfl rfl rfl rfl rfl (fun blob' hblob => ?_)
      fun _ _ => Finalizer.noConfusion
    rw [hphase]
    exact hblob
  | asked hphase hnext =>
    obtain rfl | rfl := hnext
    all_goals
      refine hw.stay hp rfl rfl rfl rfl rfl rfl (fun blob' hblob => ?_)
        fun _ _ => Finalizer.noConfusion
      rw [hphase]
      exact hblob
  | refused | failed => exact hw.failed rfl rfl rfl rfl rfl
  | recorded hphase hnext =>
    obtain ⟨blob', rfl, rfl⟩ | rfl := hnext
    · refine hw.stay hp rfl rfl rfl rfl rfl rfl (fun blob'' hblob => ?_)
        fun _ _ => Finalizer.noConfusion
      rw [hphase]
      exact hblob
    · exact hw.leave rfl rfl rfl rfl rfl rfl
  | saved hphase | saveFailed hphase => exact hw.next hp hphase rfl rfl rfl rfl rfl

/-- The producer publishes nothing. -/
theorem ProduceStep.published {a : ProduceAction} (h : ProduceStep env w p a w' p') :
    w'.published = w.published := by
  cases h <;> rfl

theorem recover_published {cleared : Bool} (h : w.recover env p cleared = some (w', p')) :
    w'.published = w.published := by
  obtain ⟨_, _, -, ⟨_, _, -, -, rfl, -⟩ | ⟨rfl | rfl, -⟩⟩ := recover_cases h <;> rfl

theorem Available.node {a : Action} (hw : Available env w)
    (hland : ∀ call admitted, a ≠ .land call admitted) (h : Step env w a w') :
    Available env w' := by
  cases h with
  | boot =>
    refine hw.congr rfl rfl rfl rfl rfl fun p' hp' => .inl ?_
    cases hp'
    rfl
  | recover hp hr =>
    obtain ⟨hbatch, hfinalizer, hregistry, -, hinFlight, -, hexecuted, hsettled, -⟩ :=
      recover_finalizer hr
    have hpublished := recover_published hr
    refine hw.congr hpublished hregistry hinFlight hexecuted hsettled
      fun p' hp' => .inr ⟨_, hp, ?_⟩
    cases hp'
    rw [hfinalizer]
    exact ⟨hbatch, fun _ => id, fun _ _ => id⟩
  | crash => exact hw.congr rfl rfl rfl rfl rfl fun p' hp' => by cases hp'
  | shutdown hp =>
    refine hw.congr rfl rfl rfl rfl rfl fun p' hp' => .inr ⟨_, hp, ?_⟩
    cases hp'
    exact ⟨rfl, fun _ => id, fun _ _ => id⟩
  | produce hp hr =>
    obtain ⟨hbatch, hfinalizer, hregistry, -, hinFlight, -, hexecuted, hsettled, -⟩ := hr.frame
    refine hw.congr hr.published hregistry hinFlight hexecuted hsettled
      fun p' hp' => .inr ⟨_, hp, ?_⟩
    cases hp'
    rw [hfinalizer]
    exact ⟨hbatch, fun _ => id, fun _ _ => id⟩
  | finalize hp hr => exact hw.finalize hp hr
  | tracked | receipt | submitted | windowed =>
    exact hw.congr rfl rfl rfl rfl rfl fun p' hp' => .inr ⟨p', hp', rfl, fun _ => id, fun _ _ => id⟩
  | landed => exact absurd rfl (hland _ _)

/-! ## The chain -/

/-- A settle transaction that returned, seen from the chain: the height it repeats, or the next
one under the id of the batch whose first block of that height it settled. -/
theorem Available.settle {commitStateRoots : Bool} {call : SettleCall} {now : Nat}
    {sender : Address} (hw : Available env w) (hmem : call ∈ w.inFlight) :
    Available env (w.settle commitStateRoots call now sender) := by
  obtain he | ⟨registry, inbox, hsettles, he⟩ := w.settle_cases commitStateRoots call now sender
  · rw [he]
    exact hw.proceed (fun _ => id) rfl rfl rfl rfl rfl
      (fun c hc => .inl (List.mem_of_mem_erase hc)) hw.flushing hw.awaiting
  obtain ⟨rest, batch, hbatch, hblob, front, heq, hfront⟩ := hw.inFlight call hmem
  obtain ⟨hbook, hlatest, hroots, -, -, -⟩ := hsettles
  have hgrows : w.registry.latestHeight ≤ registry.latestHeight := by
    rw [hlatest]
    rcases hbook with h | h <;> omega
  -- what stood in the book stands there still
  have hkept : ∀ height blob, w.registry.commitments height = some blob →
      registry.commitments height = w.registry.commitments height := by
    intro height blob hcommitted
    obtain ⟨-, -, hsame⟩ | ⟨hnext, hadded⟩ := hbook
    · rw [hsame]
    · have hle := (hw.book height blob hcommitted).2
      rw [hadded, Function.update_of_ne (by omega)]
  have hother : ∀ height, height ≠ call.block.header.height →
      registry.commitments height = w.registry.commitments height := by
    intro height hne
    obtain ⟨-, -, hsame⟩ | ⟨-, hadded⟩ := hbook
    · rw [hsame]
    · rw [hadded, Function.update_of_ne hne]
  have hone : 1 ≤ call.block.header.height := by
    rcases hbook with ⟨-, hold, -⟩ | ⟨hnext, -⟩
    · exact (hw.book _ _ hold).1
    · omega
  have hcommitted : registry.commitments call.block.header.height = some call.blobId := by
    obtain ⟨-, hold, hsame⟩ | ⟨-, hadded⟩ := hbook
    · rw [hsame, hold]
    · rw [hadded, Function.update_self]
  rw [he]
  refine ⟨fun c hc => ?_, fun c hc => ?_, fun p blob hp hpblob => ?_, hw.awaiting, ?_,
    fun height blob hheight => ?_, fun block hblock => ?_, fun height root hroot => ?_⟩
  · obtain ⟨rest', hend⟩ := hw.inFlight c (List.mem_of_mem_erase hc)
    exact ⟨rest', hend.mono (fun _ => id) hgrows⟩
  · rcases List.mem_cons.1 hc with rfl | hc
    · exact hlatest.ge
    · exact (hw.executed c hc).trans hgrows
  · exact (hw.flushing p blob hp hpblob).mono (fun _ => id) hgrows
  · dsimp only
    obtain ⟨hsame, -⟩ | ⟨hnext, -⟩ := hbook
    · rw [if_pos hsame, hlatest, hsame]
      exact hw.heights
    · rw [if_neg (by omega), hlatest, hnext, List.map_cons, hw.heights, List.range'_concat]
      simp [hnext, Nat.add_comm]
  · by_cases hnew : height = call.block.header.height
    · subst hnew
      exact ⟨hone, hlatest.ge⟩
    · obtain ⟨hpos, hle⟩ := hw.book height blob ((hother height hnew).symm.trans hheight)
      exact ⟨hpos, hle.trans hgrows⟩
  · have hold : ∀ b ∈ w.settled, FirstOfBatch env w b := hw.settled
    rcases hbook with ⟨hsame, -⟩ | ⟨hnext, -⟩
    · rw [if_pos hsame] at hblock
      exact (hold block hblock).mono (fun _ => id) hkept
    · rw [if_neg (by omega)] at hblock
      rcases List.mem_cons.1 hblock with rfl | hblock
      · have hend : PublishedEnd env w call.blobId (call.block :: rest) :=
          ⟨batch, hbatch, hblob, front, heq, hfront⟩
        obtain ⟨batch', hbatch', hblob', hfirst⟩ := hend.first (by omega)
        exact ⟨batch', hbatch', by rw [hblob']; exact hcommitted, hfirst⟩
      · exact (hold block hblock).mono (fun _ => id) hkept
  · have hold : ∀ height root, w.registry.stateRoots height = some root →
        RootOfBatch env w height root := hw.roots
    rcases hroots with hsame | ⟨-, hset⟩
    · exact (hold height root (hsame ▸ hroot)).mono (fun _ => id) hkept
    · by_cases hnew : height = call.block.header.height
      · subst hnew
        have hvalue : registry.stateRoots call.block.header.height =
            some call.block.header.stateRoot.val := by rw [hset, Function.update_self]
        have heqroot := Option.some.inj (hvalue.symm.trans hroot)
        exact ⟨batch, hbatch, by rw [hblob]; exact hcommitted, call.block, by simp [heq], rfl,
          heqroot⟩
      · have hkeptRoot : w.registry.stateRoots height = some root := by
          rw [← hroot, hset, Function.update_of_ne hnew]
        exact (hold height root hkeptRoot).mono (fun _ => id) hkept

/-- Who may settle is no concern of the book. -/
theorem Available.govern (hw : Available env w) (uid : Rotation.Guarded SettlerCap) :
    Available env { w with registry := { w.registry with uid } } :=
  hw.proceed (fun _ => id) rfl rfl rfl rfl rfl (fun _ hcall => .inl hcall) hw.flushing hw.awaiting

theorem Available.fresh : Available env fresh := by
  refine ⟨fun _ h => ?_, fun _ h => ?_, fun _ _ h => ?_, fun _ _ _ h => ?_, rfl, fun _ _ h => ?_,
    fun _ h => ?_, fun _ _ h => ?_⟩ <;> cases h

theorem Available.ledger {a : LedgerAction} (hw : Available env w) (h : LedgerStep env w a w') :
    Available env w' := by
  cases h with
  | node hland hstep => exact hw.node hland hstep
  | settle hmem => exact hw.settle hmem
  | govern => exact hw.govern _

theorem reachable_available
    (h : Reachable (· = fresh) (enabled (execOnLedger env)) w) : Available env w := by
  refine h.inv ?_ fun w a w' hw hs => hw.ledger (ledger_step hs)
  intro w hw
  subst hw
  exact .fresh

/-- Up to the latest height, each is settled under the id of a batch that was published. -/
theorem Available.committed {height : Nat} (hw : Available env w) (hpos : 1 ≤ height)
    (hle : height ≤ w.registry.latestHeight) :
    ∃ batch ∈ w.published, w.registry.commitments height = some (env.blobId batch) := by
  have hmem : height ∈ w.settled.map (·.header.height) := by
    rw [hw.heights, List.mem_reverse, List.mem_range'_1]
    omega
  obtain ⟨block, hblock, rfl⟩ := List.mem_map.1 hmem
  obtain ⟨batch, hbatch, hcommitment, -⟩ := hw.settled block hblock
  exact ⟨batch, hbatch, hcommitment⟩

/-- The settled heights are one to the latest in their order, and no other is in the book. Each is
settled under the id of a batch that was published, and the first block of that height in the
batch is the one that was settled. -/
theorem settled_available (h : Reachable (· = fresh) (enabled (execOnLedger env)) w) :
    w.settled.map (·.header.height) = (List.range' 1 w.registry.latestHeight).reverse ∧
      (∀ height, (∃ blob, w.registry.commitments height = some blob) ↔
        1 ≤ height ∧ height ≤ w.registry.latestHeight) ∧
      ∀ block ∈ w.settled, FirstOfBatch env w block := by
  have hw := reachable_available h
  refine ⟨hw.heights, fun height => ⟨?_, ?_⟩, hw.settled⟩
  · intro hcommitted
    obtain ⟨blob, hblob⟩ := hcommitted
    exact hw.book height blob hblob
  · intro hrange
    obtain ⟨batch, -, hcommitment⟩ := hw.committed hrange.1 hrange.2
    exact ⟨env.blobId batch, hcommitment⟩

/-! ## Anchored roots -/

/-- Every settle transaction is built with its root. -/
def RootsOn (_ : SequencerWorld) : LedgerAction → Prop
  | .settle commitStateRoots _ _ _ => commitStateRoots
  | _ => True

instance (w : SequencerWorld) (a : LedgerAction) : Decidable (RootsOn w a) :=
  match a with
  | .settle commitStateRoots _ _ _ => inferInstanceAs (Decidable (commitStateRoots = true))
  | .node _ | .govern _ => inferInstanceAs (Decidable True)

def Anchored (w : SequencerWorld) : Prop :=
  ∀ block ∈ w.settled, w.registry.stateRoots block.header.height = some block.header.stateRoot.val

theorem Anchored.settle {call : SettleCall} {now : Nat} {sender : Address} (hw : Anchored w) :
    Anchored (w.settle true call now sender) := by
  obtain he | ⟨registry, inbox, hsettles, he⟩ := w.settle_cases true call now sender
  · rw [he]
    exact hw
  obtain ⟨hbook, hlatest, hroots, hanchored, -, -⟩ := hsettles
  rw [he]
  intro block hblock
  have hkept : ∀ b ∈ w.settled,
      registry.stateRoots b.header.height = some b.header.stateRoot.val := by
    intro b hb
    have hroot := hw b hb
    rcases hroots with hsame | ⟨hfree, hset⟩
    · rw [hsame, hroot]
    · rw [hset, Function.update_of_ne, hroot]
      intro heq
      rw [heq, hfree] at hroot
      cases hroot
  rcases hbook with ⟨hsame, -⟩ | ⟨hnext, -⟩
  · rw [if_pos hsame] at hblock
    exact hkept block hblock
  · rw [if_neg (by omega)] at hblock
    rcases List.mem_cons.1 hblock with rfl | hblock
    · exact hanchored rfl
    · exact hkept block hblock

/-- Nothing but a settle transaction touches the roots. -/
theorem Anchored.congr (hw : Anchored w)
    (hregistry : w'.registry.stateRoots = w.registry.stateRoots)
    (hsettled : w'.settled = w.settled) : Anchored w' := by
  intro block hblock
  rw [hsettled] at hblock
  rw [hregistry]
  exact hw block hblock

theorem guarded_anchored
    (h : Reachable (· = fresh) (guarded RootsOn (enabled (execOnLedger env))) w) : Anchored w := by
  refine h.inv ?_ fun w a w' hw hs => ?_
  · intro w hw block hblock
    subst hw
    cases hblock
  · cases ledger_step hs.2 with
    | node hland hstep =>
      obtain ⟨hregistry, hsettled⟩ := hstep.sameBook hland
      exact hw.congr (by rw [hregistry]) hsettled
    | settle =>
      have hon : _ = true := hs.1
      subst hon
      exact hw.settle
    | govern => exact hw.congr rfl rfl

/-- If every settle transaction carries its root, the roots on the chain are those of the settled
blocks, each at the height of its block. -/
theorem roots_of_settled
    (h : Reachable (· = fresh) (guarded RootsOn (enabled (execOnLedger env))) w)
    (height : Nat) (root : Bytes) : w.registry.stateRoots height = some root ↔
      ∃ block ∈ w.settled, block.header.height = height ∧ block.header.stateRoot.val = root := by
  have hroots := guarded_anchored h
  have hw := reachable_available (h.mono fun _ _ _ hs => hs.2)
  constructor
  · intro hroot
    obtain ⟨batch, -, hcommitted, -⟩ := hw.roots height root hroot
    have hrange := hw.book _ _ hcommitted
    have hmem : height ∈ w.settled.map (·.header.height) := by
      rw [hw.heights, List.mem_reverse, List.mem_range'_1]
      omega
    obtain ⟨block, hblock, rfl⟩ := List.mem_map.1 hmem
    exact ⟨block, hblock, rfl, Option.some.inj ((hroots block hblock).symm.trans hroot)⟩
  · intro hblock
    obtain ⟨block, hblock, rfl, rfl⟩ := hblock
    exact hroots block hblock

/-! ## A run -/

/-- A registry entombed by the account at 7. -/
def entombedUid : Rotation.Guarded SettlerCap where
  id := 0
  record := some { authority := 7, prev := none, pending := none }
  tomb := some ⟨1⟩
  opsMinted := true

def nodeActs (as : List Action) : List LedgerAction := as.map .node

/-- Block 1 settles after a transaction of a stranger aborted, the reply to it is lost and the
transaction is sent again. -/
def settleTwice : List LedgerAction :=
  .govern entombedUid :: nodeActs (.boot (.repeated 0) 0 true :: wholePass payload1 ++
    publishAndCall) ++ [.settle true firstCall 0 8] ++ nodeActs [.finalize (.reply false),
    .finalize (.readCursor true), .finalize .call] ++ [.settle true firstCall 0 7] ++
    nodeActs [.finalize (.reply false), .finalize (.readCursor true), .finalize .call] ++
    [.settle true firstCall 0 7] ++ nodeActs [.finalize (.reply true)]

def settledTwice : SequencerWorld :=
  (execAll (execOnLedger (smallEnv plainBlobId)) fresh settleTwice).getD fresh

set_option maxRecDepth 4000 in
theorem settled_available_twice :
    settledTwice.settled.map (·.header.height) = [1] ∧
      FirstOfBatch (smallEnv plainBlobId) settledTwice block1 := by
  have hrun : Run (enabled (execOnLedger (smallEnv plainBlobId))) fresh settleTwice settledTwice :=
    run_of_execAll rfl
  have hsettled := settled_available ⟨_, _, rfl, hrun⟩
  exact ⟨hsettled.1, hsettled.2.2 block1 List.mem_cons_self⟩

set_option maxRecDepth 4000 in
theorem roots_of_settled_twice :
    settledTwice.registry.stateRoots 1 = some block1.header.stateRoot.val ∧
      settledTwice.registry.stateRoots 2 = none := by
  have hrun : Run (guarded RootsOn (enabled (execOnLedger (smallEnv plainBlobId)))) fresh
      settleTwice settledTwice := run_of_execDecide rfl
  have hroots := roots_of_settled ⟨_, _, rfl, hrun⟩
  refine ⟨(hroots 1 _).2 ⟨block1, List.mem_cons_self, rfl, rfl⟩, ?_⟩
  refine Option.eq_none_iff_forall_not_mem.2 fun root hroot => ?_
  obtain ⟨block, hblock, hheight, -⟩ := (hroots 2 root).1 hroot
  rw [List.mem_singleton.1 hblock] at hheight
  exact absurd hheight (by decide)

end SequencerWorld

end Podseq.Node
