import Podseq.Node.SequencerChain

/-! # What the inclusion markers stand for

A marker is written after the block file and before the state that has the block for its head.
A process that restarts below a marker builds another block of that height, and the marker
stays. Where no head the node goes on from is below a marker, and receipts are those of the
node's own chain, each marker names a block on it that has the transaction.
-/
namespace Podseq.Node
open Podseq.Lib Podseq.Move

namespace SequencerWorld

variable {env : SequencerEnv} {w w' : SequencerWorld} {p p' : SequencerProcess}

/-! ## Records and submissions -/

/-- The record is of the transaction submitted under its nonce. -/
def Recorded (env : SequencerEnv) (submissions : List Bytes) (nonce : Nat)
    (record : NonceRecord) : Prop :=
  ∃ bytes, submissions[nonce]? = some bytes ∧
    record.txHash = Hex.encodePrefixed (env.hash.digest bytes)

/-- The inbox and the store of markers hold what was submitted. -/
structure Tracks (env : SequencerEnv) (w : SequencerWorld) : Prop where
  records : ∀ nonce record, w.disk.inbox.get nonce = some record →
    Recorded env w.submissions nonce record
  pending : ∀ nonce entry, w.inbox.pending nonce = some entry →
    w.submissions[nonce]? = some entry.txBytes
  next : w.inbox.nextNonce = w.submissions.length
  snapshot : ∀ p payload b rest, w.process = some p → p.producer = .observing payload b rest →
    ∀ e ∈ rest, Recorded env w.submissions e.1 e.2

theorem Recorded.append {submissions more : List Bytes} {nonce : Nat} {record : NonceRecord}
    (h : Recorded env submissions nonce record) :
    Recorded env (submissions ++ more) nonce record := by
  obtain ⟨bytes, hbytes, hhash⟩ := h
  obtain ⟨hlt, -⟩ := List.getElem?_eq_some_iff.1 hbytes
  exact ⟨bytes, by rw [List.getElem?_append_left hlt, hbytes], hhash⟩

/-- A marked store is still one of records of what was submitted. -/
theorem Recorded.mark {submissions : List Bytes} {store store' : InboxStore} {nonce height : Nat}
    (hrecords : ∀ n record, store.get n = some record → Recorded env submissions n record)
    (h : store.markIncluded nonce height = .ok store') :
    ∀ n record, store'.get n = some record → Recorded env submissions n record := by
  obtain ⟨hother, record, hget, hget'⟩ := InboxStore.get_markIncluded h
  intro n record' hn
  by_cases heq : n = nonce
  · subst heq
    rw [hget'] at hn
    cases hn
    exact hrecords n record hget
  · exact hrecords n record' (hother n heq ▸ hn)

/-- A step that touches neither the inbox nor the records, where no new snapshot is taken. -/
theorem Tracks.congr (hw : Tracks env w) (hinbox : w'.inbox = w.inbox)
    (hstore : w'.disk.inbox = w.disk.inbox) (hsubmissions : w'.submissions = w.submissions)
    (hprocess : ∀ p', w'.process = some p' → (∀ payload b rest,
        p'.producer ≠ .observing payload b rest) ∨
      ∃ p, w.process = some p ∧ p'.producer = p.producer) : Tracks env w' := by
  refine ⟨?_, ?_, ?_, ?_⟩
  · rw [hstore, hsubmissions]
    exact hw.records
  · rw [hinbox, hsubmissions]
    exact hw.pending
  · rw [hinbox, hsubmissions]
    exact hw.next
  · intro p' payload b rest hp' hphase
    rw [hsubmissions]
    rcases hprocess p' hp' with hnot | ⟨p, hp, hproducer⟩
    · exact absurd hphase (hnot _ _ _)
    · exact hw.snapshot p payload b rest hp (hproducer ▸ hphase)

theorem Tracks.produce {a : ProduceAction} (hw : Tracks env w) (hp : w.process = some p)
    (h : ProduceStep env w p a w' p') : Tracks env (w'.run p') := by
  cases h with
  | stored hphase =>
    refine ⟨hw.records, hw.pending, hw.next, fun q payload b rest hq hphase e he => ?_⟩
    cases hq
    cases hphase
    exact hw.records _ _ (InboxStore.mem_snapshot.1 he)
  | @observed payload b entry rest inbox marked hphase hobserve =>
    have hrecords : ∀ n record, inbox.get n = some record →
        Recorded env w.submissions n record := by
      obtain ⟨txHash, -, rfl | ⟨-, hmark⟩⟩ := InboxTracker.observeStep_cases hobserve
      · exact hw.records
      · exact Recorded.mark hw.records hmark
    refine ⟨hrecords, hw.pending, hw.next, fun q payload' b' rest' hq hphase' e he => ?_⟩
    cases hq
    cases hphase'
    exact hw.snapshot p payload b _ hp hphase e (List.mem_cons_of_mem _ he)
  | buildAsked _ hnext =>
    refine hw.congr rfl rfl rfl fun q hq => .inl ?_
    cases hq
    obtain rfl | rfl | rfl := hnext <;> exact fun _ _ _ => Producer.noConfusion
  | acceptAsked _ hnext =>
    refine hw.congr rfl rfl rfl fun q hq => .inl ?_
    cases hq
    obtain rfl | rfl := hnext <;> exact fun _ _ _ => Producer.noConfusion
  | _ =>
    refine hw.congr rfl rfl rfl fun q hq => .inl ?_
    cases hq
    exact fun _ _ _ => Producer.noConfusion

/-- A settle call only takes entries out of the inbox. -/
theorem land_inbox (w : SequencerWorld) (call : SettleCall) (admitted : Bool) :
    (∀ n entry, (w.land call admitted).inbox.pending n = some entry →
      w.inbox.pending n = some entry) ∧
    (w.land call admitted).inbox.nextNonce = w.inbox.nextNonce := by
  obtain he | ⟨-, -, he⟩ | ⟨inbox, -, hs, he⟩ := land_cases w call admitted
  · rw [he]
    exact ⟨fun _ _ hn => hn, rfl⟩
  · rw [he]
    exact ⟨fun _ _ hn => hn, rfl⟩
  · obtain ⟨-, -, -, -, -, rfl⟩ := Inbox.enforceSettle_eq_ok.1 hs
    rw [he]
    refine ⟨fun n entry hn => ?_, rfl⟩
    simp only at hn
    split at hn
    · cases hn
    · exact hn

theorem Tracks.step {a : Action} (hw : Tracks env w) (h : enabled (exec env) w a w') :
    Tracks env w' := by
  have hsame : ∀ {inbox : InboxStore}, (∀ nonce record, inbox.get nonce = some record →
      Recorded env w.submissions nonce record) →
      Tracks env (w.write { w.disk with inbox }) := fun hrecords =>
    ⟨hrecords, hw.pending, hw.next, hw.snapshot⟩
  cases exec_step h with
  | boot =>
    refine hw.congr rfl rfl rfl fun q hq => .inl ?_
    cases hq
    exact fun _ _ _ => Producer.noConfusion
  | recover hp hr =>
    obtain ⟨-, hproducer, -⟩ := recover_frame hr
    obtain ⟨-, -, -, hinbox, -, -, -, -, hsubmissions⟩ := recover_finalizer hr
    refine hw.congr hinbox ?_ hsubmissions fun q hq => .inr ⟨_, hp, ?_⟩
    · obtain ⟨_, _, -, ⟨_, _, -, -, rfl, -⟩ | ⟨rfl | rfl, -⟩⟩ := recover_cases hr <;> rfl
    · cases hq
      exact hproducer
  | crash => exact hw.congr rfl rfl rfl fun q hq => by cases hq
  | shutdown hp =>
    refine hw.congr rfl rfl rfl fun q hq => .inr ⟨_, hp, ?_⟩
    cases hq
    rfl
  | produce hp hr => exact hw.produce hp hr
  | @finalize _ p p' w' hp hr =>
    obtain ⟨-, hproducer, -⟩ := hr.frame
    obtain ⟨hinbox, hstore, hsubmissions⟩ : w'.inbox = w.inbox ∧
        w'.disk.inbox = w.disk.inbox ∧ w'.submissions = w.submissions := by
      cases hr <;> exact ⟨rfl, rfl, rfl⟩
    refine hw.congr hinbox hstore hsubmissions fun q hq => .inr ⟨_, hp, ?_⟩
    cases hq
    exact hproducer
  -- a new record is made of the entry that waits under its nonce
  | tracked hup ht =>
    obtain ⟨rfl, -⟩ | ⟨-, pending, hentry, hnone, rfl⟩ := InboxTracker.trackEntry_cases ht
    · exact hsame hw.records
    · refine hsame fun n record hn => ?_
      rw [InboxStore.get_insert] at hn
      split at hn
      · rename_i heq
        subst heq
        cases hn
        exact ⟨pending.txBytes, hw.pending _ _ hentry, rfl⟩
      · exact hw.records n record hn
  | receipt hup hr =>
    exact hsame (Recorded.mark hw.records (InboxTracker.observeInclusion_eq_ok hr))
  -- the entry goes under the next nonce, the one after all earlier submissions
  | @submitted now txBytes inbox hs =>
    obtain ⟨-, -, -, -, rfl⟩ := Inbox.submit_eq_ok.1 hs
    refine ⟨fun n record hn => (hw.records n record hn).append, fun n entry hn => ?_, ?_, ?_⟩
    · simp only [Function.update_apply] at hn
      split at hn
      · rename_i heq
        cases hn
        subst heq
        rw [hw.next]
        exact List.getElem?_concat_length
      · have hget := hw.pending n entry hn
        obtain ⟨hlt, -⟩ := List.getElem?_eq_some_iff.1 hget
        rw [List.getElem?_append_left hlt]
        exact hget
    · simp only [hw.next, List.length_append, List.length_singleton]
    · exact fun q payload b rest hq hphase e he =>
        (hw.snapshot q payload b rest hq hphase e he).append
  | windowed hsame' =>
    refine ⟨hw.records, ?_, ?_, hw.snapshot⟩
    · rw [show _ = w.inbox.pending from hsame'.pending]
      exact hw.pending
    · exact hsame'.nextNonce.trans hw.next
  | @landed call admitted hmem =>
    obtain ⟨-, hprocess, hdisk, -, -, hsubmissions, -⟩ := land_frame w call admitted
    obtain ⟨hpending, hnext⟩ := land_inbox w call admitted
    refine ⟨?_, fun n entry hn => ?_, ?_, ?_⟩
    · rw [hdisk, hsubmissions]
      exact hw.records
    · rw [hsubmissions]
      exact hw.pending n entry (hpending n entry hn)
    · rw [hsubmissions, hnext, hw.next]
    · rw [hprocess, hsubmissions]
      exact hw.snapshot

theorem reachable_tracks (h : Reachable (· = fresh) (enabled (exec env)) w) : Tracks env w := by
  refine h.inv ?_ fun _ _ _ hw hs => Tracks.step hw hs
  rintro _ rfl
  refine ⟨fun n record hn => ?_, fun n entry hn => ?_, rfl, fun p _ _ _ hp => ?_⟩
  · have hempty : InboxStore.fresh.get n = none := Std.TreeMap.getElem?_emptyc
    exact absurd (hempty.symm.trans hn) (Option.some_ne_none _).symm
  · cases hn
  · cases hp

/-! ## Markers and blocks -/

def Marked (w : SequencerWorld) (nonce height : Nat) : Prop :=
  ∃ txHash, w.disk.inbox.get nonce = some (.included height txHash)

/-- The block of `height` on the chain that ends in `head` has the transaction of `nonce`. -/
def HasTransaction (env : SequencerEnv) (w : SequencerWorld) (head : B256)
    (nonce height : Nat) : Prop :=
  ∃ payload bytes, env.tree.OnChain head payload ∧ payload.blockNumber = height ∧
    w.submissions[nonce]? = some bytes ∧ bytes ∈ payload.transactions

/-- A receipt names a block of the node's chain that has the transaction. -/
def TrueReceipt (env : SequencerEnv) (w : SequencerWorld) : Action → Prop
  | .receipt nonce height => ∀ p, w.process = some p →
      HasTransaction env w (chainEnd p) nonce height
  | _ => True

/-- No transaction of the block under way has the hash of another one that was submitted. -/
def NoCollision (env : SequencerEnv) (w : SequencerWorld) : Action → Prop
  | .produce .work => ∀ p payload b rest, w.process = some p →
      p.producer = .observing payload b rest → ∀ bytes ∈ w.submissions,
        ∀ tx ∈ payload.transactions, env.hash.digest bytes = env.hash.digest tx → bytes = tx
  | _ => True

/-- When a step leaves every marker true. -/
structure KeepsMarkers (env : SequencerEnv) (w : SequencerWorld) (a : Action) : Prop where
  /-- The chain is not taken back below a marker. -/
  fallback : ∀ head, SequencerWorld.fallback env w a = some head →
    ∀ nonce height, Marked w nonce height → height ≤ env.tree.number head
  resumes : ResumesOnLine env w a
  receipt : TrueReceipt env w a
  collision : NoCollision env w a

/-- Where a marker comes from. -/
theorem marked_cases {a : Action} {nonce height : Nat} (h : enabled (exec env) w a w')
    (hmarked : Marked w' nonce height) : Marked w nonce height ∨
    (a = .produce .work ∧ ∃ p payload b record rest txHash, w.process = some p ∧
      p.producer = .observing payload b ((nonce, record) :: rest) ∧ height = b.height ∧
      InboxTracker.parseTxHash record.txHash = .ok txHash ∧
      txHash ∈ payload.transactions.map env.hash.digest ∧ w'.tip = w.tip) ∨
    (a = .receipt nonce height ∧ w.process.isSome ∧ w'.tip = w.tip) := by
  obtain ⟨txHash, hget⟩ := hmarked
  have hold : w'.disk.inbox = w.disk.inbox → Marked w nonce height := fun heq =>
    ⟨txHash, heq ▸ hget⟩
  -- a mark for `n` at `k` leaves the others alone
  have hmark : ∀ {inbox : InboxStore} {n k : Nat}, w.disk.inbox.markIncluded n k = .ok inbox →
      inbox.get nonce = some (.included height txHash) →
      Marked w nonce height ∨ nonce = n ∧ height = k := by
    intro inbox n k hok hget
    obtain ⟨hother, record, -, hn⟩ := InboxStore.get_markIncluded hok
    by_cases heq : nonce = n
    · subst heq
      rw [hn] at hget
      cases hget
      exact .inr ⟨rfl, rfl⟩
    · exact .inl ⟨txHash, hother nonce heq ▸ hget⟩
  cases exec_step h with
  | boot | crash | shutdown | submitted | windowed => exact .inl (hold rfl)
  | recover hp hr =>
    refine .inl (hold ?_)
    obtain ⟨_, _, -, ⟨_, _, -, -, rfl, -⟩ | ⟨rfl | rfl, -⟩⟩ := recover_cases hr <;> rfl
  | produce hp hr =>
    cases hr with
    | @observed payload b entry rest inbox marked hphase hobserve =>
      obtain ⟨n, record⟩ := entry
      obtain ⟨txHash', hparse, rfl | ⟨hmem, hok⟩⟩ := InboxTracker.observeStep_cases hobserve
      · exact .inl ⟨txHash, hget⟩
      · rcases hmark hok hget with hm | ⟨rfl, rfl⟩
        · exact .inl hm
        · exact .inr (.inl ⟨rfl, _, payload, b, record, rest, txHash', hp, hphase, rfl, hparse,
            hmem, rfl⟩)
    | _ => exact .inl (hold rfl)
  | finalize hp hr => exact .inl (hold (by cases hr <;> rfl))
  | tracked hup ht =>
    obtain ⟨rfl, -⟩ | ⟨-, pending, -, -, rfl⟩ := InboxTracker.trackEntry_cases ht
    · exact .inl ⟨txHash, hget⟩
    · refine .inl ⟨txHash, ?_⟩
      change (⟨_⟩ : InboxStore).get nonce = _ at hget
      rw [InboxStore.get_insert] at hget
      split at hget
      · cases hget
      · exact hget
  | receipt hup hr =>
    rcases hmark (InboxTracker.observeInclusion_eq_ok hr) hget with hm | ⟨rfl, rfl⟩
    · exact .inl hm
    · exact .inr (.inr ⟨rfl, hup, rfl⟩)
  | landed => exact .inl (hold (by rw [(land_frame w _ _).2.2.1]))

/-- What was submitted stays submitted, under its nonce. -/
theorem submissions_step {a : Action} (h : enabled (exec env) w a w') {nonce : Nat}
    {bytes : Bytes} (hbytes : w.submissions[nonce]? = some bytes) :
    w'.submissions[nonce]? = some bytes := by
  have hsame : w'.submissions = w.submissions → w'.submissions[nonce]? = some bytes := fun heq =>
    heq ▸ hbytes
  cases exec_step h with
  | recover hp hr => exact hsame (recover_finalizer hr).2.2.2.2.2.2.2.2
  | produce hp hr => exact hsame hr.frame.2.2.2.2.2.2.2.2
  | finalize hp hr => exact hsame (by cases hr <;> rfl)
  | landed => exact hsame (land_frame w _ _).2.2.2.2.2.1
  | submitted =>
    obtain ⟨hlt, -⟩ := List.getElem?_eq_some_iff.1 hbytes
    change (w.submissions ++ _)[nonce]? = _
    rw [List.getElem?_append_left hlt]
    exact hbytes
  | boot | crash | shutdown | tracked | receipt | windowed => exact hsame rfl

/-- A transaction stays on the chain unless the chain is taken back below it. -/
theorem HasTransaction.step {a : Action} {tip : B256} {nonce height : Nat}
    (hw : Chained env w) (hfits : ∀ p, w.process = some p → Fits env p.state.head p.producer)
    (hresumes : ResumesOnLine env w a) (h : enabled (exec env) w a w')
    (htip : w.tip = some tip) (ht : HasTransaction env w tip nonce height)
    (hkeep : ∀ head, fallback env w a = some head → height ≤ env.tree.number head) :
    ∃ tip', w'.tip = some tip' ∧ HasTransaction env w' tip' nonce height := by
  obtain ⟨payload, bytes, hchain, hnumber, hbytes, hmem⟩ := ht
  obtain ⟨tip', htip', hline⟩ := tip_moves hw hfits hresumes h htip
  refine ⟨tip', htip', payload, bytes, ?_, hnumber, submissions_step h hbytes, hmem⟩
  rcases hline with hup | ⟨hdown, hfallback⟩
  · exact hchain.of_below hup
  · exact hchain.of_line (.inl hdown) (hnumber ▸ hkeep tip' hfallback)

/-- Every marker names a block of the node's chain that has its transaction. -/
def Truthful (env : SequencerEnv) (w : SequencerWorld) : Prop :=
  ∀ nonce height, Marked w nonce height →
    ∃ tip, w.tip = some tip ∧ HasTransaction env w tip nonce height

theorem Truthful.step {a : Action} (ht : Truthful env w) (hw : Chained env w)
    (hfits : ∀ p, w.process = some p → Fits env p.state.head p.producer)
    (htracks : Tracks env w) (hok : KeepsMarkers env w a) (h : enabled (exec env) w a w') :
    Truthful env w' := by
  intro nonce height hmarked
  obtain hmarked | ⟨rfl, p, payload, b, record, rest, txHash, hp, hphase, rfl, hparse, hmem,
    htip'⟩ | ⟨rfl, hup, htip'⟩ := marked_cases h hmarked
  · obtain ⟨tip, htip, htx⟩ := ht nonce height hmarked
    exact htx.step hw hfits hok.resumes h htip fun head hhead =>
      hok.fallback head hhead nonce height hmarked
  · have hf := hfits p hp
    rw [hphase] at hf
    obtain ⟨⟨hhash, hpayload⟩, hmade⟩ := hf
    have htip := (hw.running p hp).tip
    simp only [chainEnd, hphase] at htip
    obtain ⟨bytes, hbytes, hrecord⟩ := htracks.snapshot p payload b _ hp hphase _
      List.mem_cons_self
    -- the hash in the record is that of the bytes submitted
    rw [hrecord, InboxTracker.parseTxHash_encodePrefixed] at hparse
    cases hparse
    obtain ⟨tx, htx, hdigest⟩ := List.mem_map.1 hmem
    have heq := hok.collision p payload b _ hp hphase bytes (List.mem_of_getElem? hbytes) tx htx
      hdigest.symm
    subst heq
    refine ⟨p.state.head, htip'.trans htip, payload, bytes, ⟨?_, ?_⟩, hmade.height.symm,
      submissions_step h hbytes, htx⟩
    · rw [hhash]
      exact hpayload
    · rw [hhash]
      exact .refl
  · obtain ⟨p, hp⟩ := Option.isSome_iff_exists.1 hup
    obtain ⟨payload, bytes, hchain, hnumber, hbytes, hin⟩ := hok.receipt p hp
    exact ⟨_, htip'.trans (hw.running p hp).tip, payload, bytes, hchain, hnumber,
      submissions_step h hbytes, hin⟩

theorem reachable_truthful
    (h : Reachable (· = fresh) (guarded (KeepsMarkers env) (enabled (exec env))) w) :
    Truthful env w := by
  refine h.inv_of (J := fun w => Chained env w ∧ Tracks env w ∧
    ∀ p, w.process = some p → Fits env p.state.head p.producer) ?_ ?_ ?_
  · exact fun w hw => ⟨reachable_chained hw.of_guarded, reachable_tracks hw.of_guarded,
      fun p hp => reachable_fits hw.of_guarded hp⟩
  · rintro _ rfl nonce height ⟨txHash, hget⟩
    have hempty : InboxStore.fresh.get nonce = none := Std.TreeMap.getElem?_emptyc
    exact absurd (hempty.symm.trans hget) (Option.some_ne_none _).symm
  · exact fun w a w' hJ _ ht hs => ht.step hJ.1 hJ.2.2 hJ.2.1 hs.1 hs.2

/-- In a run whose steps keep the markers, the block of the height that a marker names, on the
chain of the running node, has the very bytes submitted under its nonce. -/
theorem marked_hasTransaction
    (h : Reachable (· = fresh) (guarded (KeepsMarkers env) (enabled (exec env))) w)
    (hp : w.process = some p) {nonce height : Nat} (hmarked : Marked w nonce height) :
    HasTransaction env w (chainEnd p) nonce height := by
  obtain ⟨tip, htip, ht⟩ := reachable_truthful h nonce height hmarked
  cases htip.symm.trans ((reachable_chained h.of_guarded).running p hp).tip
  exact ht

/-! ## Runs -/

/-- A check of the condition, for steps that read no receipt. -/
def checkMarkers (env : SequencerEnv) (w : SequencerWorld) (a : Action) : Bool :=
  ((fallback env w a).all fun head => w.disk.inbox.snapshot.all fun e =>
    match e.2 with
    | .included height _ => height ≤ env.tree.number head
    | .submitted .. => true) &&
  match a with
  | .boot .. => w.disk.state.isSome || w.tip.isNone
  | .receipt .. => false
  | .produce .work => w.process.all fun p =>
    match p.producer with
    | .observing payload _ _ => w.submissions.all fun bytes => payload.transactions.all fun tx =>
        decide (env.hash.digest bytes = env.hash.digest tx → bytes = tx)
    | _ => true
  | _ => true

theorem keepsMarkers_of_check {a : Action} (h : checkMarkers env w a) : KeepsMarkers env w a := by
  obtain ⟨hfallback, ha⟩ := Bool.and_eq_true_iff.1 h
  refine ⟨?_, ?_, ?_, ?_⟩
  · rintro head hhead nonce height ⟨txHash, hget⟩
    rw [hhead, Option.all_some, List.all_eq_true] at hfallback
    have hmem : (nonce, NonceRecord.included height txHash) ∈ w.disk.inbox.snapshot :=
      InboxStore.mem_snapshot.2 hget
    simpa using hfallback _ hmem
  · cases a with
    | boot discovered now readable =>
      intro hnone tip htip
      rw [hnone, htip] at ha
      cases ha
    | _ => trivial
  · cases a with
    | receipt => cases ha
    | _ => trivial
  · cases a with
    | produce a =>
      cases a with
      | work =>
        intro p payload b rest hp hphase bytes hbytes tx htx
        simp only [hp, Option.all_some, hphase, List.all_eq_true, decide_eq_true_eq] at ha
        exact ha bytes hbytes tx htx
      | _ => trivial
    | _ => trivial

def markFirst : List Action := [.submit 0 [7], .boot (.repeated 0) 0 true, .track 0 1 0] ++
  passToFile payload1 ++ [.produce .work, .produce .work]

/-- The pass goes on to its state file; then the process dies, and the next one starts from that
file. -/
def restartMarked : List Action :=
  markFirst ++ List.replicate 3 (.produce .work) ++ [.crash, .boot (.repeated 0) 7 true]

def afterRestart : SequencerWorld :=
  (execAll (exec (smallEnv fun _ => [])) fresh restartMarked).getD fresh

def processAfterRestart : SequencerProcess := afterRestart.process.get rfl

theorem marked_hasTransaction_restarted :
    HasTransaction (smallEnv fun _ => []) afterRestart (chainEnd processAfterRestart) 0 1 := by
  have hrun : Run (guarded (KeepsMarkers (smallEnv fun _ => []))
      (enabled (exec (smallEnv fun _ => [])))) fresh restartMarked afterRestart :=
    run_of_check (fun _ _ => keepsMarkers_of_check) rfl
  exact marked_hasTransaction ⟨_, _, rfl, hrun⟩ rfl ⟨_, rfl⟩

/-- The process dies after the mark; the next one starts from genesis and builds a block 1
without the transaction. -/
def rebuildFirst : List Action :=
  markFirst ++ [.crash, .boot (.repeated 0) 0 true] ++ passToFile otherPayload1

def afterRebuildFirst : SequencerWorld :=
  (execAll (exec (smallEnv fun _ => [])) fresh rebuildFirst).getD fresh

def processAfterRebuild : SequencerProcess := afterRebuildFirst.process.get rfl

/-- The marker still names height 1, whose block has no transactions now. -/
theorem marker_outlives_block :
    Reachable (· = fresh) (enabled (exec (smallEnv fun _ => []))) afterRebuildFirst ∧
    afterRebuildFirst.process = some processAfterRebuild ∧ Marked afterRebuildFirst 0 1 ∧
    smallTree.OnChain (chainEnd processAfterRebuild) otherPayload1 ∧
    ¬ HasTransaction (smallEnv fun _ => []) afterRebuildFirst (chainEnd processAfterRebuild)
      0 1 := by
  have hrun : Run (enabled (exec (smallEnv fun _ => []))) fresh rebuildFirst
      afterRebuildFirst := run_of_execAll rfl
  have hchain : smallTree.OnChain (chainEnd processAfterRebuild) otherPayload1 :=
    ⟨rfl, .refl⟩
  refine ⟨⟨_, _, rfl, hrun⟩, rfl, ⟨_, rfl⟩, hchain, ?_⟩
  rintro ⟨payload, bytes, hpayload, hnumber, -, hmem⟩
  obtain rfl := hpayload.unique hchain hnumber
  cases hmem

end SequencerWorld

end Podseq.Node
