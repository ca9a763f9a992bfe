import Podseq.Node.ForcedSteps

/-! # When the sequencer can end a halt

A halt ends when the overdue submissions are in blocks: the next pass of the poller marks them,
and the cursor passes them. What the execution client refuses gets no marker, so a submission
that it never executes halts settlement for good once its deadline is over.
-/
namespace Podseq.Node
open Podseq.Lib Podseq.Move

namespace ForcedInclusion

variable {σ : Type} {H : HashFn} {client : ExecutionClient σ} {blockTimeMs : Nat}
  {s s' t : ForcedChain σ} {l2 : L2 σ} {store : InboxStore} {n m : Nat}

/-! ## Ending a halt -/

/-- The timestamp of the oldest block that waits, or of the next one built when none does. -/
def ForcedChain.frontTimestamp (s : ForcedChain σ) : Nat := s.awaiting.head?.getD s.nextTimestamp

/-- The gate is clear for the oldest block that waits, and the contract accepts the settle that
the node sends for it. -/
def Settleable (s : ForcedChain σ) : Prop :=
  InboxTracker.haltCheck (s.settled + 1) s.store = .clear ∧
  ∃ timestamp, s.awaiting.head? = some timestamp ∧
    ∃ inbox', s.inbox.enforceSettle (timestamp * 1000)
      (InboxTracker.commitCursor s.inbox.includedCount (InboxTracker.settleCursor s.store)) =
        .ok inbox'

/-- The sequencer alone can get to a state in which it settles. -/
def Recoverable (H : HashFn) (client : ExecutionClient σ) (blockTimeMs : Nat)
    (s : ForcedChain σ) : Prop :=
  ∃ as t, (∀ a ∈ as, a.bySequencer) ∧ Run (enabled (step H client blockTimeMs)) s as t ∧
    Settleable t

/-- Executes transactions in order, passing over those that are spent. -/
def serve (H : HashFn) (client : ExecutionClient σ) : List Bytes → σ → List Bytes → Option σ
  | [], accounts, _ => some accounts
  | tx :: txs, accounts, spent =>
    if spent.contains (H.digest tx) then serve H client txs accounts spent
    else (client.execute accounts tx).bind fun accounts =>
      serve H client txs accounts (H.digest tx :: spent)

/-- The first `m` submissions include those that hold up the next settle, and the client can
execute, in their order, the ones that it has not executed. -/
structure Servable (H : HashFn) (client : ExecutionClient σ) (s : ForcedChain σ) (m : Nat) :
    Prop where
  overdue : ∀ n deadlineHeight deadlineMs firstSeenHeight txHash txBytes,
    s.store.get n = some (.submitted deadlineHeight deadlineMs firstSeenHeight txHash txBytes) →
      deadlineHeight < s.settled + 1 → n < m
  late : ∀ n entry, s.inbox.pending n = some entry →
    entry.deadlineMs < s.frontTimestamp * 1000 → n < m
  executes : (serve H client ((s.history.submitted.take m).map (·.txBytes)) s.l2.accounts
    (s.l2.executed.map Prod.fst)).isSome
  fits : s.settled + 1 ≤ u64Max

/-! ## One pass of the poller -/

theorem observeInclusion_submitted {record : NonceRecord} (height : Nat)
    (hget : store.get n = some record) (hsub : record.isSubmitted) :
    ∃ store', InboxTracker.observeInclusion n height store = .ok store' := by
  cases record with
  | included => cases hsub
  | submitted deadlineHeight deadlineMs firstSeenHeight txHash txBytes =>
    have hmark : store.markIncluded n height = .ok _ :=
      InboxStore.markIncluded_eq_ok.2 (.inr ⟨_, _, _, _, _, hget, rfl⟩)
    simp only [InboxTracker.observeInclusion, hget, InboxTracker.storeResult_eq_ok]
    exact ⟨_, hmark⟩

/-- A submission with a receipt is marked, and the pass goes on with the others as they were. -/
theorem pollSubmission_mined (client : ExecutionClient σ) {submission : TrackedSubmission}
    {rest : List TrackedSubmission}
    (hsorted : (submission :: rest).Pairwise fun a b => a.nonce < b.nonce)
    (hrecord : ∀ submission' ∈ submission :: rest,
      ∃ record, store.get submission'.nonce = some record ∧ record.isSubmitted)
    (hmined : (l2.receipt submission.txHash).isSome) :
    ∃ store', pollSubmission client submission (l2, store) = some (l2, store') ∧
      store'.Included submission.nonce ∧ ∀ submission' ∈ rest,
        ∃ record, store'.get submission'.nonce = some record ∧ record.isSubmitted := by
  obtain ⟨height, hheight⟩ := Option.isSome_iff_exists.1 hmined
  obtain ⟨record, hget, hsub⟩ := hrecord submission List.mem_cons_self
  obtain ⟨store', hok⟩ := observeInclusion_submitted height hget hsub
  obtain ⟨hother, record', hget', hget''⟩ :=
    InboxStore.get_markIncluded (InboxTracker.observeInclusion_eq_ok hok)
  refine ⟨store', pollSubmission_eq_some.2 (.inl ⟨height, hheight, rfl, hok⟩),
    ⟨height, _, hget''⟩, ?_⟩
  intro submission' hmem
  have hlt := List.rel_of_pairwise_cons hsorted hmem
  rw [hother _ (Nat.ne_of_gt hlt)]
  exact hrecord submission' (List.mem_cons_of_mem _ hmem)

/-- The pass marks the submissions below `n` when all of them have receipts. -/
theorem pollSubmissions_included {submissions : List TrackedSubmission}
    (hsorted : submissions.Pairwise fun a b => a.nonce < b.nonce)
    (hrecord : ∀ submission ∈ submissions,
      ∃ record, store.get submission.nonce = some record ∧ record.isSubmitted)
    (hmined : ∀ submission ∈ submissions, submission.nonce < n →
      (l2.receipt submission.txHash).isSome) :
    ∀ submission ∈ submissions, submission.nonce < n →
      (pollSubmissions client submissions (l2, store)).2.Included submission.nonce := by
  induction submissions generalizing store with
  | nil => nofun
  | cons first rest ih =>
    intro submission hmem hlt
    have hfirst : first.nonce < n := by
      rcases List.mem_cons.1 hmem with rfl | hmem
      · exact hlt
      · exact (List.rel_of_pairwise_cons hsorted hmem).trans hlt
    obtain ⟨store', hone, hincluded, hrest⟩ :=
      pollSubmission_mined client hsorted hrecord (hmined first List.mem_cons_self hfirst)
    rw [pollSubmissions, hone]
    rcases List.mem_cons.1 hmem with rfl | hmem
    · exact (pollSubmissions_spec client rest l2 store').2.included hincluded
    · exact ih (List.pairwise_cons.1 hsorted).2 hrest
        (fun submission' h => hmined submission' (List.mem_cons_of_mem _ h)) submission hmem hlt

/-- The pool gets the first submission without a receipt, when it can be executed now. -/
theorem pollSubmissions_pool {submissions : List TrackedSubmission}
    {submission : TrackedSubmission}
    (hsorted : submissions.Pairwise fun a b => a.nonce < b.nonce)
    (hrecord : ∀ submission ∈ submissions,
      ∃ record, store.get submission.nonce = some record ∧ record.isSubmitted)
    (hmined : ∀ submission' ∈ submissions, submission'.nonce < submission.nonce →
      (l2.receipt submission'.txHash).isSome)
    (hmem : submission ∈ submissions) (hnew : l2.receipt submission.txHash = none)
    (hexec : (client.execute l2.accounts submission.txBytes).isSome) :
    submission.txBytes ∈ (pollSubmissions client submissions (l2, store)).1.pool := by
  induction submissions generalizing store with
  | nil => cases hmem
  | cons first rest ih =>
    rcases List.mem_cons.1 hmem with rfl | hmem
    · have hone : pollSubmission client submission (l2, store) =
          (l2.send client submission.txBytes).map (·, store) := by
        rw [pollSubmission, hnew]
      rw [pollSubmissions, hone]
      cases hsend : l2.send client submission.txBytes with
      | none =>
        obtain hpool | ⟨l2', hsend', -⟩ := send_pool hexec
        · exact hpool
        · rw [hsend] at hsend'; cases hsend'
      | some l2' =>
        obtain hpool | ⟨l2'', hsend', hpool⟩ := send_pool hexec
        · exact (pollSubmissions_spec client rest l2' store).1.pool ((send_polled hsend).pool hpool)
        · rw [hsend] at hsend'; cases hsend'
          exact (pollSubmissions_spec client rest l2' store).1.pool hpool
    · have hlt := List.rel_of_pairwise_cons hsorted hmem
      obtain ⟨store', hone, -, hrest⟩ :=
        pollSubmission_mined client hsorted hrecord (hmined first List.mem_cons_self hlt)
      rw [pollSubmissions, hone]
      exact ih (List.pairwise_cons.1 hsorted).2 hrest
        (fun submission' h => hmined submission' (List.mem_cons_of_mem _ h)) hmem

/-! ## What the way out of a halt leaves alone -/

/-- Nothing was settled in between: the inbox and the block to settle next are the same, and a
record that is new is not overdue for it. -/
structure Kept (s t : ForcedChain σ) : Prop where
  history : t.history = s.history
  settled : t.settled = s.settled
  front : t.frontTimestamp = s.frontTimestamp
  submitted : ∀ n deadlineHeight deadlineMs firstSeenHeight txHash txBytes,
    t.store.get n = some (.submitted deadlineHeight deadlineMs firstSeenHeight txHash txBytes) →
      s.store.get n = some (.submitted deadlineHeight deadlineMs firstSeenHeight txHash txBytes) ∨
      s.settled + 1 ≤ deadlineHeight

theorem Kept.refl (s : ForcedChain σ) : Kept s s :=
  ⟨rfl, rfl, rfl, fun _ _ _ _ _ _ h => .inl h⟩

theorem Kept.trans {u : ForcedChain σ} (h : Kept s t) (k : Kept t u) : Kept s u := by
  refine ⟨k.history.trans h.history, k.settled.trans h.settled, k.front.trans h.front, ?_⟩
  intro n dh dm fs txHash txBytes hn
  obtain hold | hlate := k.submitted n dh dm fs txHash txBytes hn
  · exact h.submitted n dh dm fs txHash txBytes hold
  · rw [h.settled] at hlate
    exact .inr hlate

theorem poll_kept (hs : Sound H s) (hwaits : s.awaiting ≠ []) (hfits : s.settled + 1 ≤ u64Max)
    (windowRead : Bool) : Kept s (poll H client blockTimeMs windowRead s) := by
  obtain ⟨deadlineBlocks, store, submissions, hsynced, -, hpoll⟩ :=
    poll_eq client blockTimeMs hs windowRead
  have hmarks := (pollSubmissions_spec client submissions s.l2 store).2
  rw [hpoll]
  refine ⟨rfl, rfl, rfl, fun n dh dm fs txHash txBytes hn => ?_⟩
  have htracked := hmarks.submitted hn rfl
  rw [hsynced n, Option.or_eq_some_iff] at htracked
  obtain hold | ⟨-, hnew⟩ := htracked
  · exact .inl hold
  · rw [Option.ite_none_right_eq_some, Option.map_eq_some_iff] at hnew
    obtain ⟨-, entry, -, hrecord⟩ := hnew
    cases hrecord
    right
    have hheight : s.settled + 1 ≤ s.height :=
      Nat.add_le_add_left (List.length_pos_iff.2 hwaits) _
    rw [saturatingAdd]
    omega

theorem produce_kept {txs : List Bytes} (h : produce H client txs s = some t) :
    Kept s t ∧ t.awaiting ≠ [] := by
  simp only [produce, Option.map_eq_some_iff] at h
  obtain ⟨l2, -, rfl⟩ := h
  refine ⟨⟨rfl, rfl, ?_, fun n dh dm fs txHash txBytes hn => .inl ?_⟩, by simp⟩
  · simp only [ForcedChain.frontTimestamp]
    cases s.awaiting <;> rfl
  · exact (InboxTracker.marks_observeTransactions _ _ _ _ _).submitted hn rfl

/-! ## Executing the submissions in order -/

theorem mem_executed {txHash : Bytes} :
    txHash ∈ l2.executed.map Prod.fst ↔ (l2.receipt txHash).isSome := by
  rw [L2.receipt, List.lookup_isSome_iff, List.mem_map]
  constructor
  · rintro ⟨p, hp, rfl⟩
    exact ⟨p, hp, beq_self_eq_true _⟩
  · rintro ⟨p, hp, heq⟩
    exact ⟨p, hp, (eq_of_beq heq).symm⟩

theorem produce_single {tx : Bytes} {l2 : L2 σ}
    (h : s.l2.executeTx H client (s.height + 1) tx = some l2) :
    ∃ t, produce H client [tx] s = some t ∧ t.l2 = l2 := by
  simp only [produce, List.foldlM_cons, List.foldlM_nil, h, Option.bind_eq_bind, Option.bind_some,
    pure, Option.map_some]
  exact ⟨_, rfl, rfl⟩

/-- The first submission that was not executed gets into a block of its own: a pass of the poller
offers it to the pool. -/
theorem execute_next (blockTimeMs : Nat) {accounts : σ} {entry : PendingTx} (hs : Sound H s)
    (hentry : s.history.submitted[n]? = some entry)
    (hbefore : ∀ (i : Nat) (entry' : PendingTx), i < n →
      s.history.submitted[i]? = some entry' → (s.l2.receipt (H.digest entry'.txBytes)).isSome)
    (hnew : s.l2.receipt (H.digest entry.txBytes) = none)
    (hexec : client.execute s.l2.accounts entry.txBytes = some accounts) :
    ∃ t height, produce H client [entry.txBytes] (poll H client blockTimeMs false s) = some t ∧
      t.l2.accounts = accounts ∧
      t.l2.executed = (H.digest entry.txBytes, height) :: s.l2.executed := by
  obtain ⟨deadlineBlocks, store, submissions, hsynced, hlisted, hpoll⟩ :=
    poll_eq client blockTimeMs hs false
  obtain ⟨hpolled, -⟩ := pollSubmissions_spec client submissions s.l2 store
  have hsound := hs.synced hsynced
  -- the nonce is tracked, and not marked: what is marked has a receipt
  have hsubmission : ∃ submission ∈ submissions, submission.nonce = n := by
    obtain ⟨hlt, -⟩ := List.getElem?_eq_some_iff.1 hentry
    obtain ⟨record, hget⟩ := Option.isSome_iff_exists.1 ((hsynced.tracked hs n).2 hlt)
    cases record with
    | submitted => exact hlisted.complete n _ hget rfl
    | included height txHash =>
      have hmined := hsound.marked n entry ⟨height, txHash, hget⟩ hentry
      rw [show (s.l2.receipt (H.digest entry.txBytes)) = none from hnew] at hmined
      cases hmined
  obtain ⟨submission, hmem, rfl⟩ := hsubmission
  obtain ⟨entry', hentry', hof⟩ := hlisted.entry submission hmem
  rw [hentry] at hentry'; cases hentry'
  have hpool : entry.txBytes ∈ (pollSubmissions client submissions (s.l2, store)).1.pool := by
    rw [← hof.txBytes]
    refine pollSubmissions_pool hlisted.sorted hlisted.record ?_ hmem ?_ ?_
    · intro submission' hmem' hlt
      obtain ⟨entry'', hentry'', hof'⟩ := hlisted.entry submission' hmem'
      rw [hof'.txHash]
      exact hbefore _ _ hlt hentry''
    · rw [hof.txHash]
      exact hnew
    · rw [hof.txBytes, hexec]
      rfl
  have hone : L2.executeTx H client (s.height + 1)
      (pollSubmissions client submissions (s.l2, store)).1 entry.txBytes = some _ :=
    executeTx_eq_some.2
      ⟨⟨hpool, (hpolled.receipt _).trans hnew⟩, accounts, hpolled.accounts ▸ hexec, rfl⟩
  rw [hpoll]
  obtain ⟨t, hproduce, hl2⟩ := produce_single (s := { s with
    deadlineBlocks
    l2 := (pollSubmissions client submissions (s.l2, store)).1
    store := (pollSubmissions client submissions (s.l2, store)).2 }) hone
  refine ⟨t, s.height + 1, hproduce, ?_, ?_⟩
  · rw [hl2]
  · rw [hl2, ← hpolled.executed]

/-- What `serve_run` does for one submission: the poller and the producer get it into a block. -/
theorem serve_next (blockTimeMs : Nat) {accounts : σ} {entry : PendingTx}
    {passed : List PendingTx} (hs : Sound H s) (hwaits : s.awaiting ≠ [])
    (hfits : s.settled + 1 ≤ u64Max) (hlog : passed ++ [entry] <+: s.history.submitted)
    (hpassed : ∀ entry' ∈ passed, (s.l2.receipt (H.digest entry'.txBytes)).isSome)
    (hnew : s.l2.receipt (H.digest entry.txBytes) = none)
    (hexec : client.execute s.l2.accounts entry.txBytes = some accounts) :
    ∃ s', Run (enabled (step H client blockTimeMs)) s
        [.poll false, .produce [entry.txBytes]] s' ∧
      Sound H s' ∧ Kept s s' ∧ s'.awaiting ≠ [] ∧ s'.l2.accounts = accounts ∧
      s'.l2.executed.map Prod.fst = H.digest entry.txBytes :: s.l2.executed.map Prod.fst := by
  have hat : ∀ (i : Nat) (entry' : PendingTx), (passed ++ [entry])[i]? = some entry' →
      s.history.submitted[i]? = some entry' := by
    intro i entry' hi
    obtain ⟨more, hmore⟩ := hlog
    obtain ⟨hlt, -⟩ := List.getElem?_eq_some_iff.1 hi
    rw [← hmore, List.getElem?_append_left hlt, hi]
  have hentry : s.history.submitted[passed.length]? = some entry :=
    hat _ _ List.getElem?_concat_length
  have hbefore : ∀ (i : Nat) (entry' : PendingTx), i < passed.length →
      s.history.submitted[i]? = some entry' →
      (s.l2.receipt (H.digest entry'.txBytes)).isSome := by
    intro i entry' hi hentry'
    have hsame := hat i passed[i] (by simp [List.getElem?_append_left hi])
    rw [hentry'] at hsame; cases hsame
    exact hpassed _ (List.getElem_mem hi)
  obtain ⟨s', height, hproduce, haccounts, hexecuted⟩ :=
    execute_next blockTimeMs hs hentry hbefore hnew hexec
  have hpolled : Kept s (poll H client blockTimeMs false s) :=
    poll_kept hs hwaits hfits false
  obtain ⟨hproduced, hwaits'⟩ := produce_kept hproduce
  refine ⟨s', .cons rfl (.single hproduce), (hs.poll false).produce hproduce,
    hpolled.trans hproduced, hwaits', haccounts, ?_⟩
  rw [hexecuted, List.map_cons]

/-- From a state in which a block waits, the sequencer can execute the submissions in order. -/
theorem serve_run (blockTimeMs : Nat) (pending passed : List PendingTx) (hs : Sound H s)
    (hwaits : s.awaiting ≠ []) (hfits : s.settled + 1 ≤ u64Max)
    (hlog : passed ++ pending <+: s.history.submitted)
    (hpassed : ∀ entry ∈ passed, (s.l2.receipt (H.digest entry.txBytes)).isSome)
    (hserve : (serve H client (pending.map (·.txBytes)) s.l2.accounts
      (s.l2.executed.map Prod.fst)).isSome) :
    ∃ as t, (∀ a ∈ as, a.bySequencer) ∧ Run (enabled (step H client blockTimeMs)) s as t ∧
      Sound H t ∧ Kept s t ∧ t.awaiting ≠ [] ∧
      ∀ entry ∈ passed ++ pending, (t.l2.receipt (H.digest entry.txBytes)).isSome := by
  induction pending generalizing passed s with
  | nil =>
    refine ⟨[], s, nofun, .nil, hs, .refl s, hwaits, ?_⟩
    rwa [List.append_nil]
  | cons entry pending ih =>
    have hassoc : passed ++ entry :: pending = passed ++ [entry] ++ pending := by simp
    rw [hassoc] at hlog ⊢
    rw [List.map_cons, serve] at hserve
    split_ifs at hserve with hspent
    · -- executed before: nothing to do
      refine ih (passed ++ [entry]) hs hwaits hfits hlog ?_ hserve
      intro entry' hmem
      rcases List.mem_append.1 hmem with hmem | hmem
      · exact hpassed entry' hmem
      · rw [List.mem_singleton.1 hmem]
        exact mem_executed.1 (List.contains_iff_mem.1 hspent)
    · obtain ⟨accounts, hexec⟩ := Option.isSome_iff_exists.1 (Option.isSome_of_isSome_bind hserve)
      rw [hexec, Option.bind_some] at hserve
      have hnew : s.l2.receipt (H.digest entry.txBytes) = none := by
        rw [List.contains_iff_mem, mem_executed] at hspent
        exact Option.not_isSome_iff_eq_none.1 hspent
      obtain ⟨s', hrun', hs', hkept, hwaits', haccounts, hexecuted⟩ :=
        serve_next blockTimeMs hs hwaits hfits ((List.prefix_append _ _).trans hlog) hpassed hnew
          hexec
      have hpassed' : ∀ entry' ∈ passed ++ [entry],
          (s'.l2.receipt (H.digest entry'.txBytes)).isSome := by
        intro entry' hmem
        rw [← mem_executed, hexecuted, List.mem_cons, mem_executed]
        rcases List.mem_append.1 hmem with hmem | hmem
        · exact .inr (hpassed entry' hmem)
        · exact .inl (by rw [List.mem_singleton.1 hmem])
      rw [← haccounts, ← hexecuted] at hserve
      obtain ⟨as, t, hseq, hrun, hsound, hkept', hwaits'', hmined⟩ :=
        ih (passed ++ [entry]) hs' hwaits' (hkept.settled ▸ hfits) (hkept.history ▸ hlog)
          hpassed' hserve
      refine ⟨_, t, ?_, hrun'.append hrun, hsound, hkept.trans hkept', hwaits'', hmined⟩
      simpa [Action.bySequencer] using hseq

/-! ## The end of a halt -/

/-- A pass of the poller marks every submission that was executed, up to the first that was
not. -/
theorem poll_included (hs : Sound H s) (windowRead : Bool)
    (hmined : ∀ entry ∈ s.history.submitted.take m,
      (s.l2.receipt (H.digest entry.txBytes)).isSome)
    (hn : n < m) (hlen : n < s.history.submitted.length) :
    (poll H client blockTimeMs windowRead s).store.Included n := by
  obtain ⟨deadlineBlocks, store, submissions, hsynced, hlisted, hpoll⟩ :=
    poll_eq client blockTimeMs hs windowRead
  rw [hpoll]
  obtain ⟨record, hget⟩ := Option.isSome_iff_exists.1 ((hsynced.tracked hs n).2 hlen)
  cases record with
  | included height txHash =>
    exact (pollSubmissions_spec client submissions s.l2 store).2.included ⟨height, txHash, hget⟩
  | submitted =>
    obtain ⟨submission, hmem, rfl⟩ := hlisted.complete n _ hget rfl
    refine pollSubmissions_included hlisted.sorted hlisted.record ?_ submission hmem hn
    intro submission' hmem' hlt
    obtain ⟨entry, hentry, hof⟩ := hlisted.entry submission' hmem'
    rw [hof.txHash]
    refine hmined entry (List.mem_of_getElem? (i := submission'.nonce) ?_)
    rw [List.getElem?_take_of_lt hlt, hentry]

/-- The cursor passes what is marked without a gap. -/
theorem le_commitCursor {c : Nat} (h : ∀ n, n < m → store.Included n) :
    m ≤ InboxTracker.commitCursor c (InboxTracker.settleCursor store) := by
  refine le_max_of_le_left ?_
  have hsub : Finset.range m ⊆ store.nonces.keysWhere NonceRecord.isIncluded := by
    intro n hn
    rw [NatMap.mem_keysWhere, InboxStore.holdsAt_isIncluded_iff]
    exact h n (Finset.mem_range.1 hn)
  have hcard := Finset.card_le_card hsub
  rwa [NatMap.card_keysWhere, Finset.card_range] at hcard

/-- A state is one to settle from when nothing is overdue for the block that waits, and the
cursor has passed what is late for it. -/
theorem settleable {timestamp : Nat} (hs : Sound H s) (hhead : s.awaiting.head? = some timestamp)
    (hclear : InboxTracker.haltCheck (s.settled + 1) s.store = .clear)
    (hlate : ∀ n entry, s.inbox.pending n = some entry → entry.deadlineMs < timestamp * 1000 →
      n < InboxTracker.commitCursor s.inbox.includedCount (InboxTracker.settleCursor s.store)) :
    Settleable s := by
  obtain ⟨k, hcursor, hlen, htracked⟩ := hs.tracked
  have hle := commitCursor_le hcursor htracked
  have hnext : s.inbox.nextNonce = s.history.submitted.length := hs.logged.nextNonce
  have hfront : timestamp ∈ s.awaiting ++ [s.timestamp] :=
    List.mem_append_left _ (List.mem_of_mem_head? hhead)
  refine ⟨hclear, timestamp, hhead, _, Inbox.enforceSettle_eq_ok.2
    ⟨Nat.le_max_right _ _, ?_, hs.settled timestamp hfront, ?_, ?_, rfl⟩⟩
  · omega
  · intro i hi hi'
    exact (hs.logged.pending_isSome i).2 ⟨hi, by rw [ForcedChain.inbox] at hnext; omega⟩
  · intro oldest ho
    exact Nat.le_of_not_lt fun hlt => Nat.lt_irrefl _ (hlate _ oldest ho hlt)

/-- Once the first `m` submissions are marked, the block that waits can be settled. -/
theorem Servable.settleable (hm : Servable H client s m) (hs : Sound H s) (ht : Sound H t)
    (hkept : Kept s t) (hwaits : t.awaiting ≠ [])
    (hincluded : ∀ n, n < m → n < s.history.submitted.length → t.store.Included n) :
    Settleable t := by
  obtain ⟨timestamp, rest, hawaiting⟩ := List.exists_cons_of_ne_nil hwaits
  have hfront : s.frontTimestamp = timestamp := by
    rw [← hkept.front, ForcedChain.frontTimestamp, hawaiting]
    rfl
  have hhead : t.awaiting.head? = some timestamp := by rw [hawaiting]; rfl
  refine ForcedInclusion.settleable ht hhead (InboxTracker.haltCheck_clear ?_) ?_
  · intro n dh dm fs txHash txBytes hn
    rw [hkept.settled]
    obtain hold | hlate := hkept.submitted n dh dm fs txHash txBytes hn
    · by_contra hlt
      obtain ⟨entry, hentry, -⟩ := hs.records n _ hold
      obtain ⟨hlen, -⟩ := List.getElem?_eq_some_iff.1 hentry
      obtain ⟨_, _, hmarked⟩ :=
        hincluded n (hm.overdue n dh dm fs txHash txBytes hold (Nat.lt_of_not_le hlt)) hlen
      rw [hn] at hmarked; cases hmarked
    · exact hlate
  · intro n entry hpending hlt
    rw [← hfront] at hlt
    rw [ForcedChain.inbox, hkept.history] at hpending
    have hn := hm.late n entry hpending hlt
    obtain ⟨hlen, -⟩ := List.getElem?_eq_some_iff.1 (hs.logged.pending_submitted hpending)
    have hle : min m s.history.submitted.length ≤
        InboxTracker.commitCursor t.inbox.includedCount (InboxTracker.settleCursor t.store) :=
      le_commitCursor fun i hi =>
        hincluded i (hi.trans_le (Nat.min_le_left _ _)) (hi.trans_le (Nat.min_le_right _ _))
    exact (Nat.lt_min.2 ⟨hn, hlen⟩).trans_le hle

/-- A block waits, or the sequencer builds an empty one. -/
theorem front_run (client : ExecutionClient σ) (blockTimeMs : Nat) (hs : Sound H s) :
    ∃ as t, (∀ a ∈ as, a.bySequencer) ∧ Run (enabled (step H client blockTimeMs)) s as t ∧
      Sound H t ∧ Kept s t ∧ t.awaiting ≠ [] ∧ t.l2 = s.l2 := by
  by_cases hwaits : s.awaiting = []
  · obtain ⟨t, hproduce, hl2⟩ : ∃ t, produce H client [] s = some t ∧ t.l2 = s.l2 :=
      ⟨_, rfl, rfl⟩
    obtain ⟨hkept, hwaits'⟩ := produce_kept hproduce
    refine ⟨[.produce []], t, ?_, .single hproduce, hs.produce hproduce, hkept, hwaits', hl2⟩
    simp [Action.bySequencer]
  · exact ⟨[], s, nofun, .nil, hs, .refl s, hwaits, rfl⟩

/-- **When the sequencer can end a halt.** From every state that submissions, window changes,
settles, passes of the poller and blocks can reach: if the client can execute, in their order,
the submissions up to the last that is overdue for the gate or late for the block to settle,
then the sequencer alone can get to a state in which the gate is clear and the contract accepts
its settle. -/
theorem halt_ends (hs : Reachable Start (enabled (step H client blockTimeMs)) s)
    (hm : Servable H client s m) : Recoverable H client blockTimeMs s := by
  have hsound := reachable_sound hs
  obtain ⟨as₀, s₀, hseq₀, hrun₀, hsound₀, hkept₀, hwaits₀, hl2⟩ :=
    front_run client blockTimeMs hsound
  have hserve : (serve H client ((s.history.submitted.take m).map (·.txBytes)) s₀.l2.accounts
      (s₀.l2.executed.map Prod.fst)).isSome := by
    rw [hl2]
    exact hm.executes
  have hlog : [] ++ s.history.submitted.take m <+: s₀.history.submitted := by
    rw [hkept₀.history]
    exact List.take_prefix _ _
  have hfits₀ : s₀.settled + 1 ≤ u64Max := hkept₀.settled ▸ hm.fits
  obtain ⟨as₁, s₁, hseq₁, hrun₁, hsound₁, hkept₁, hwaits₁, hmined⟩ :=
    serve_run blockTimeMs _ [] hsound₀ hwaits₀ hfits₀ hlog nofun hserve
  have hkept : Kept s s₁ := hkept₀.trans hkept₁
  have hpolled : Kept s₁ (poll H client blockTimeMs false s₁) :=
    poll_kept hsound₁ hwaits₁ (hkept.settled ▸ hm.fits) false
  have hwaits : (poll H client blockTimeMs false s₁).awaiting ≠ [] := by
    obtain ⟨_, _, _, -, -, hpoll⟩ := poll_eq client blockTimeMs hsound₁ false
    rw [hpoll]
    exact hwaits₁
  have hlast : enabled (step H client blockTimeMs) s₁ (.poll false)
      (poll H client blockTimeMs false s₁) := rfl
  refine ⟨as₀ ++ as₁ ++ [.poll false], _, ?_, (hrun₀.append hrun₁).append (.single hlast),
    hm.settleable hsound (hsound₁.poll false) (hkept.trans hpolled) hwaits fun n hn hlen => ?_⟩
  · intro a ha
    simp only [List.mem_append, List.mem_singleton] at ha
    rcases ha with (ha | ha) | rfl
    · exact hseq₀ a ha
    · exact hseq₁ a ha
    · rfl
  · rw [← hkept.history] at hlen
    refine poll_included hsound₁ false ?_ hn hlen
    rw [hkept.history]
    exact hmined

/-! ### A halt of one late transaction -/

/-- A client that cannot decode the transaction of one zero byte and executes every other. -/
def decoding : ExecutionClient Unit where
  execute _ tx := if paddingHash.digest tx = paddingHash.digest [0] then none else some ()
  admits _ tx := paddingHash.digest tx ≠ paddingHash.digest [0]
  admits_of_execute s tx h := by
    split_ifs at h with heq
    · cases h
    · exact decide_eq_true heq

def beforeBlocks : ForcedChain Unit :=
  ⟨⟨⟨0, Inbox.initializeInbox 0⟩, [], []⟩, .fresh, 1, ⟨(), [], []⟩, 0, [], 0, 0⟩

theorem beforeBlocks_start : Start beforeBlocks :=
  ⟨⟨⟨0, rfl⟩, rfl, rfl⟩, rfl, rfl, rfl, rfl⟩

/-- The client could execute the transaction, and the first two blocks were built without it. -/
theorem halt_ends_late :
    ∃ s, Reachable Start (enabled (step paddingHash decoding 600000)) s ∧
      InboxTracker.haltCheck (s.settled + 1) s.store ≠ .clear ∧
      Recoverable paddingHash decoding 600000 s := by
  have hreach : Reachable Start (enabled (step paddingHash decoding 600000)) _ :=
    ⟨beforeBlocks, [.call (.submit [7]), .poll true, .produce [], .settle], beforeBlocks_start,
      run_of_execAll rfl⟩
  have hsound := reachable_sound hreach
  refine ⟨_, hreach, by decide, halt_ends hreach (m := 1) ⟨?_, ?_, rfl, by decide⟩⟩
  · intro n _ _ _ _ _ hn _
    obtain ⟨entry, hentry, -⟩ := hsound.records n _ hn
    exact (List.getElem?_eq_some_iff.1 hentry).1
  · intro n entry hn _
    exact (List.getElem?_eq_some_iff.1 (hsound.logged.pending_submitted hn)).1

/-! ## A halt that does not end -/

/-- The first submission that is not marked is overdue for the next settle, and it was not
executed. -/
structure Stuck (H : HashFn) (s : ForcedChain σ) (n : Nat) (entry : PendingTx) : Prop where
  sound : Sound H s
  submitted : s.history.submitted[n]? = some entry
  overdue : ∃ deadlineHeight deadlineMs firstSeenHeight txHash txBytes,
    s.store.get n = some (.submitted deadlineHeight deadlineMs firstSeenHeight txHash txBytes) ∧
      deadlineHeight < s.settled + 1
  first : ∀ i, i < n → s.store.Included i
  unmined : s.l2.receipt (H.digest entry.txBytes) = none

variable {entry : PendingTx}

theorem Stuck.halted (h : Stuck H s n entry) :
    InboxTracker.haltCheck (s.settled + 1) s.store ≠ .clear := by
  obtain ⟨dh, dm, fs, txHash, txBytes, hget, hlate⟩ := h.overdue
  rw [InboxTracker.haltCheck_halt hget h.first hlate]
  nofun

/-- Marks of other nonces leave a stuck submission stuck. -/
theorem Stuck.marks {ok : Nat → Prop} (h : Stuck H s n entry) (ht : Sound H t)
    (hhistory : t.history = s.history) (hsettled : t.settled = s.settled)
    (hmarks : InboxStore.Marks ok store t.store) (hn : ¬ ok n)
    (hstore : ∀ i, (s.store.get i).isSome → store.get i = s.store.get i)
    (hunmined : t.l2.receipt (H.digest entry.txBytes) = none) : Stuck H t n entry := by
  obtain ⟨dh, dm, fs, txHash, txBytes, hget, hlate⟩ := h.overdue
  refine ⟨ht, hhistory ▸ h.submitted, ⟨dh, dm, fs, txHash, txBytes, ?_, hsettled ▸ hlate⟩,
    fun i hi => ?_, hunmined⟩
  · rw [hmarks.get_of_not hn, hstore n (by rw [hget]; rfl), hget]
  · obtain ⟨height, txHash', hincluded⟩ := h.first i hi
    refine hmarks.included ⟨height, txHash', ?_⟩
    rw [hstore i (by rw [hincluded]; rfl), hincluded]

theorem executeBlock_executes {height : Nat} {l2' : L2 σ} {txs : List Bytes}
    (h : txs.foldlM (L2.executeTx H client height) l2 = some l2') :
    ∀ tx ∈ txs, ∃ accounts, (client.execute accounts tx).isSome := by
  induction txs generalizing l2 with
  | nil => nofun
  | cons first txs ih =>
    rw [List.foldlM_cons, Option.bind_eq_bind, Option.bind_eq_some_iff] at h
    obtain ⟨l2₁, hone, hrest⟩ := h
    intro tx hmem
    rcases List.mem_cons.1 hmem with rfl | hmem
    · obtain ⟨-, accounts, hexec, -⟩ := executeTx_eq_some.1 hone
      exact ⟨_, by rw [hexec]; rfl⟩
    · exact ih hrest tx hmem

/-- The poller marks what has a receipt. -/
theorem Stuck.poll (h : Stuck H s n entry) (windowRead : Bool) :
    Stuck H (poll H client blockTimeMs windowRead s) n entry := by
  have ht : Sound H (ForcedInclusion.poll H client blockTimeMs windowRead s) :=
    h.sound.poll windowRead
  obtain ⟨deadlineBlocks, store, submissions, hsynced, hlisted, hpoll⟩ :=
    poll_eq client blockTimeMs h.sound windowRead
  obtain ⟨hpolled, hmarks⟩ := pollSubmissions_spec client submissions s.l2 store
  rw [hpoll] at ht ⊢
  refine h.marks ht rfl rfl hmarks ?_ ?_ ?_
  · rintro ⟨submission, hmem, rfl, hreceipt⟩
    obtain ⟨entry', hentry', hof⟩ := hlisted.entry submission hmem
    rw [h.submitted] at hentry'; cases hentry'
    rw [hof.txHash, h.unmined] at hreceipt
    cases hreceipt
  · intro i hi
    obtain ⟨record, hrecord⟩ := Option.isSome_iff_exists.1 hi
    rw [hsynced i, hrecord]
    rfl
  · rw [hpolled.receipt, h.unmined]

/-- A block marks what it executes. -/
theorem Stuck.produce {txs : List Bytes} (h : Stuck H s n entry)
    (hrefused : ∀ accounts tx, H.digest tx = H.digest entry.txBytes →
      client.execute accounts tx = none)
    (hst : produce H client txs s = some t) : Stuck H t n entry := by
  have ht : Sound H t := h.sound.produce hst
  simp only [ForcedInclusion.produce, Option.map_eq_some_iff] at hst
  obtain ⟨l2, hblock, rfl⟩ := hst
  have hnot : H.digest entry.txBytes ∉ txs.map H.digest := by
    intro hmem
    obtain ⟨tx, htx, hhash⟩ := List.mem_map.1 hmem
    obtain ⟨accounts, hexec⟩ := executeBlock_executes hblock tx htx
    rw [hrefused accounts tx hhash] at hexec
    cases hexec
  refine h.marks ht rfl rfl (InboxTracker.marks_observeTransactions _ _ _ _ _) ?_ (fun _ _ => rfl)
    ?_
  · rintro ⟨record, hrecord, hmem⟩
    obtain ⟨entry', hentry', hof⟩ := h.sound.records n record hrecord
    rw [h.submitted] at hentry'; cases hentry'
    exact hnot (hof.inBlock_iff.1 hmem)
  · rw [← Option.not_isSome_iff_eq_none, executeBlock_receipt hblock, h.unmined]
    simpa using hnot

/-- What the client never executes stays stuck, whatever anyone does. -/
theorem Stuck.next {a : Action} (h : Stuck H s n entry)
    (hrefused : ∀ accounts tx, H.digest tx = H.digest entry.txBytes →
      client.execute accounts tx = none)
    (hst : enabled (step H client blockTimeMs) s a t) : Stuck H t n entry := by
  have ht := h.sound.step hst
  cases a with
  | poll windowRead =>
    cases hst
    exact h.poll windowRead
  | produce txs => exact h.produce hrefused hst
  | settle =>
    simp only [enabled, step, settle] at hst
    split at hst
    · cases hst
    · rw [if_neg h.halted] at hst
      cases hst
  | call c =>
    cases c with
    | enforceSettle => cases hst
    | tick | submit | stageWindowChange | cancelWindowChange =>
      simp only [enabled, step, Option.map_eq_some_iff] at hst
      obtain ⟨history, hcall, rfl⟩ := hst
      obtain ⟨-, -, more, hmore⟩ := InboxHistory.step_keeps (by intro _ _ heq; cases heq) hcall
      obtain ⟨hlen, -⟩ := List.getElem?_eq_some_iff.1 h.submitted
      refine ⟨ht, ?_, h.overdue, h.first, h.unmined⟩
      rw [← hmore, List.getElem?_append_left hlen]
      exact h.submitted
  | hostClock unixNow =>
    cases hst
    exact ⟨ht, h.submitted, h.overdue, h.first, h.unmined⟩
  | send tx =>
    simp only [enabled, step, Option.map_eq_some_iff] at hst
    obtain ⟨l2, hsend, rfl⟩ := hst
    exact ⟨ht, h.submitted, h.overdue, h.first, ((send_polled hsend).receipt _).trans h.unmined⟩
  | evict tx =>
    cases hst
    exact ⟨ht, h.submitted, h.overdue, h.first, h.unmined⟩

/-- **A submission that is never executed halts settlement for good.** Once it is overdue and the
first that is not marked, no run gets to a state to settle from. -/
theorem stuck_forever {as : List Action} (h : Stuck H s n entry)
    (hrefused : ∀ accounts tx, H.digest tx = H.digest entry.txBytes →
      client.execute accounts tx = none)
    (hrun : Run (enabled (step H client blockTimeMs)) s as t) : ¬ Settleable t := by
  have ht : Stuck H t n entry :=
    hrun.inv (I := fun s => Stuck H s n entry) (fun _ _ _ hs hst => hs.next hrefused hst) h
  exact fun hsettle => ht.halted hsettle.1

/-- The first block is settled without the transaction, whose deadline was that block. -/
theorem undecodable_overdue :
    ∃ s, Run (enabled (step paddingHash decoding 600000)) beforeBlocks
        [.call (.submit [0]), .poll true, .produce [], .settle] s ∧
      s.history.submitted = [⟨600000, [0]⟩] ∧
      InboxTracker.haltCheck (s.settled + 1) s.store ≠ .clear ∧
      s.l2.receipt (paddingHash.digest [0]) = none :=
  ⟨_, run_of_execAll rfl, rfl, by decide, rfl⟩

/-- **An undecodable submission wedges the chain.** It is tracked with a deadline of one block;
the block is settled without it, and no block has it after that. -/
theorem undecodable_wedges :
    ¬ ∀ (client : ExecutionClient Unit) (blockTimeMs : Nat) (s : ForcedChain Unit),
      Reachable Start (enabled (step paddingHash client blockTimeMs)) s →
      Recoverable paddingHash client blockTimeMs s := by
  intro h
  obtain ⟨s, hbefore, hsubmitted, hhalt, hunmined⟩ := undecodable_overdue
  have hreach : Reachable Start (enabled (step paddingHash decoding 600000)) s :=
    ⟨_, _, beforeBlocks_start, hbefore⟩
  have hsound := reachable_sound hreach
  obtain ⟨n, dh, dm, fs, txHash, txBytes, hget, hlate⟩ := InboxTracker.overdue_of_haltCheck hhalt
  -- the one submission there is
  obtain ⟨entry, hentry, -⟩ := hsound.records n _ hget
  have hn : n = 0 := by
    have hlen := (List.getElem?_eq_some_iff.1 hentry).1
    rw [hsubmitted] at hlen
    exact Nat.lt_one_iff.1 hlen
  subst hn
  have hstuck : Stuck paddingHash s 0 ⟨600000, [0]⟩ :=
    ⟨hsound, by rw [hsubmitted]; rfl, ⟨dh, dm, fs, txHash, txBytes, hget, hlate⟩, nofun, hunmined⟩
  obtain ⟨as, t, -, hrun, hsettle⟩ := h decoding 600000 s hreach
  exact stuck_forever hstuck (fun _ _ heq => if_pos heq) hrun hsettle

end ForcedInclusion

end Podseq.Node
