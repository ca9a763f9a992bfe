import Podseq.Node.ForcedInclusion
import Podseq.Node.TrackerPasses

/-! # What holds of the inbox, the markers and the L2 in every run

The tracked nonces are an initial segment of the submitted ones and reach at least to the cursor
of the contract; each record is of the entry submitted under its nonce, and what is marked has
been executed.
-/
namespace Podseq.Node
open Podseq.Lib Podseq.Move

namespace ForcedInclusion

variable {σ : Type} {H : HashFn} {client : ExecutionClient σ} {blockTimeMs : Nat}
  {s s' t : ForcedChain σ} {l2 l2' : L2 σ} {store store' : InboxStore} {tx : Bytes}
  {height : Nat}

/-! ## The poller -/

/-- Nothing was executed in between; the pool may have grown. -/
structure Polled (l2 l2' : L2 σ) : Prop where
  accounts : l2'.accounts = l2.accounts
  executed : l2'.executed = l2.executed
  pool : l2.pool ⊆ l2'.pool

theorem Polled.refl (l2 : L2 σ) : Polled l2 l2 := ⟨rfl, rfl, List.Subset.refl _⟩

theorem Polled.trans {l2'' : L2 σ} (h : Polled l2 l2') (k : Polled l2' l2'') : Polled l2 l2'' :=
  ⟨k.accounts.trans h.accounts, k.executed.trans h.executed, List.Subset.trans h.pool k.pool⟩

theorem Polled.receipt (h : Polled l2 l2') (txHash : Bytes) :
    l2'.receipt txHash = l2.receipt txHash := by
  rw [L2.receipt, h.executed, L2.receipt]

theorem send_polled (h : l2.send client tx = some l2') : Polled l2 l2' := by
  unfold L2.send at h
  split_ifs at h
  cases h
  exact ⟨rfl, rfl, List.subset_cons_self _ _⟩

/-- What the pool is offered it has, when it could be executed now. -/
theorem send_pool (hexec : (client.execute l2.accounts tx).isSome) :
    tx ∈ l2.pool ∨ ∃ l2', l2.send client tx = some l2' ∧ tx ∈ l2'.pool := by
  by_cases hpool : tx ∈ l2.pool
  · exact .inl hpool
  · right
    rw [L2.send, if_neg (by rwa [List.contains_iff_mem]),
      if_pos (client.admits_of_execute _ _ hexec)]
    exact ⟨_, rfl, List.mem_cons_self⟩

theorem pollSubmission_eq_some {submission : TrackedSubmission} {s' : L2 σ × InboxStore} :
    pollSubmission client submission (l2, store) = some s' ↔
      (∃ height, l2.receipt submission.txHash = some height ∧ s'.1 = l2 ∧
        InboxTracker.observeInclusion submission.nonce height store = .ok s'.2) ∨
      l2.receipt submission.txHash = none ∧ l2.send client submission.txBytes = some s'.1 ∧
        s'.2 = store := by
  obtain ⟨l2', store'⟩ := s'
  simp only [pollSubmission]
  cases l2.receipt submission.txHash with
  | some height =>
    simp only [Option.map_eq_some_iff, toOption_eq_some, Prod.mk.injEq, Option.some.injEq,
      exists_eq_left', reduceCtorEq, false_and, or_false]
    constructor
    · rintro ⟨_, hmark, rfl, rfl⟩
      exact ⟨rfl, hmark⟩
    · rintro ⟨rfl, hmark⟩
      exact ⟨_, hmark, rfl, rfl⟩
  | none => simp [eq_comm (a := store)]

/-- A pass marks only what has a receipt. -/
theorem pollSubmissions_spec (client : ExecutionClient σ)
    (submissions : List TrackedSubmission) (l2 : L2 σ) (store : InboxStore) :
    Polled l2 (pollSubmissions client submissions (l2, store)).1 ∧
    InboxStore.Marks (fun n => ∃ submission ∈ submissions, submission.nonce = n ∧
        (l2.receipt submission.txHash).isSome)
      store (pollSubmissions client submissions (l2, store)).2 := by
  induction submissions generalizing l2 store with
  | nil => exact ⟨.refl _, .refl _ _⟩
  | cons submission rest ih =>
    rw [pollSubmissions]
    cases hone : pollSubmission client submission (l2, store) with
    | none => exact ⟨.refl _, .refl _ _⟩
    | some s' =>
      obtain ⟨l2', store'⟩ := s'
      obtain ⟨hpolled, hmarks⟩ := ih l2' store'
      obtain ⟨height, hreceipt, rfl, hmark⟩ | ⟨-, hsend, rfl⟩ := pollSubmission_eq_some.1 hone
      · have hfirst := InboxStore.marks_markIncluded (InboxTracker.observeInclusion_eq_ok hmark)
        refine ⟨hpolled, (hfirst.mono ?_).trans (hmarks.mono ?_)⟩
        · intro n hn
          refine ⟨submission, List.mem_cons_self, hn.symm, ?_⟩
          rw [hreceipt]; rfl
        · intro n ⟨submission', hs, hn, hr⟩
          exact ⟨submission', List.mem_cons_of_mem _ hs, hn, hr⟩
      · have hfirst := send_polled hsend
        refine ⟨hfirst.trans hpolled, hmarks.mono ?_⟩
        intro n ⟨submission', hs, hn, hr⟩
        rw [hfirst.receipt] at hr
        exact ⟨submission', List.mem_cons_of_mem _ hs, hn, hr⟩

/-! ## Blocks -/

theorem executeTx_eq_some :
    l2.executeTx H client height tx = some l2' ↔
      (tx ∈ l2.pool ∧ l2.receipt (H.digest tx) = none) ∧ ∃ accounts,
        client.execute l2.accounts tx = some accounts ∧
        l2' = ⟨accounts, (H.digest tx, height) :: l2.executed, l2.pool.erase tx⟩ := by
  unfold L2.executeTx
  simp only [List.contains_iff_mem]
  split_ifs with hguard
  · simp [hguard, eq_comm]
  · simp [hguard]

/-- An executed transaction has a receipt, and those before it keep theirs. -/
theorem executeTx_receipt (h : l2.executeTx H client height tx = some l2') (txHash : Bytes) :
    (l2'.receipt txHash).isSome ↔ txHash = H.digest tx ∨ (l2.receipt txHash).isSome := by
  obtain ⟨-, accounts, -, rfl⟩ := executeTx_eq_some.1 h
  simp only [L2.receipt, List.lookup_cons]
  by_cases heq : txHash = H.digest tx
  · simp [heq]
  · simp [heq, beq_eq_false_iff_ne.2 heq]

/-- The same for the transactions of a block. -/
theorem executeBlock_receipt {txs : List Bytes}
    (h : txs.foldlM (L2.executeTx H client height) l2 = some l2') (txHash : Bytes) :
    (l2'.receipt txHash).isSome ↔ txHash ∈ txs.map H.digest ∨ (l2.receipt txHash).isSome := by
  induction txs generalizing l2 with
  | nil =>
    cases h
    simp
  | cons tx txs ih =>
    rw [List.foldlM_cons, Option.bind_eq_bind, Option.bind_eq_some_iff] at h
    obtain ⟨l2₁, hone, hrest⟩ := h
    rw [ih hrest, executeTx_receipt hone, List.map_cons, List.mem_cons]
    tauto

/-! ## The invariant -/

/-- What holds in every state a run reaches. -/
structure Sound (H : HashFn) (s : ForcedChain σ) : Prop where
  logged : s.history.Logged
  tracked : ∃ k, s.inbox.includedCount ≤ k ∧ k ≤ s.history.submitted.length ∧
    ∀ n, (s.store.get n).isSome ↔ n < k
  records : ∀ n record, s.store.get n = some record →
    ∃ entry, s.history.submitted[n]? = some entry ∧ InboxTracker.RecordOf H entry record
  marked : ∀ n entry, s.store.Included n → s.history.submitted[n]? = some entry →
    (s.l2.receipt (H.digest entry.txBytes)).isSome
  settled : ∀ timestamp ∈ s.awaiting ++ [s.timestamp], s.inbox.lastSettledTs ≤ timestamp * 1000
  ordered : (s.awaiting ++ [s.timestamp]).Pairwise (· ≤ ·)

theorem Start.sound (h : Start s) : Sound H s := by
  obtain ⟨hhistory, hstore, -, -, hawaiting⟩ := h
  have hlogged := InboxHistory.reachable_logged (.start hhistory)
  obtain ⟨⟨id, hinbox⟩, hsubmitted, -⟩ := hhistory
  have hget : ∀ n, s.store.get n = none := by
    intro n
    rw [hstore]
    exact Std.TreeMap.getElem?_emptyc
  refine ⟨hlogged, ⟨0, ?_, Nat.zero_le _, fun n => ?_⟩, fun n record hn => ?_, ?_, ?_, ?_⟩
  · rw [ForcedChain.inbox, hinbox]; exact Nat.le_refl _
  · simp [hget n]
  · rw [hget n] at hn; cases hn
  · intro n entry ⟨_, _, hn⟩
    rw [hget n] at hn; cases hn
  · intro timestamp _
    rw [ForcedChain.inbox, hinbox]
    exact Nat.zero_le _
  · simp [hawaiting]

/-- Marks of what was executed. -/
theorem Sound.marks {ok : Nat → Prop} (hs : Sound H s) (hmarks : InboxStore.Marks ok s.store store)
    (hok : ∀ n entry, ok n → s.history.submitted[n]? = some entry →
      (l2.receipt (H.digest entry.txBytes)).isSome)
    (hreceipt : ∀ txHash, (s.l2.receipt txHash).isSome → (l2.receipt txHash).isSome)
    (deadlineBlocks : Nat) : Sound H { s with deadlineBlocks, l2, store } := by
  obtain ⟨hlogged, ⟨k, hcursor, hlen, htracked⟩, hrecords, hmarked, hsettled, hordered⟩ := hs
  refine ⟨hlogged, ⟨k, hcursor, hlen, fun n => (hmarks.isSome n).trans (htracked n)⟩,
    fun n record hn => ?_, fun n entry hn hentry => ?_, hsettled, hordered⟩
  · obtain hsame | ⟨-, record', height, hget, hget'⟩ := hmarks n
    · exact hrecords n record (hsame ▸ hn)
    · rw [hget'] at hn; cases hn
      obtain ⟨entry, hentry, hof⟩ := hrecords n record' hget
      exact ⟨entry, hentry, hof.txHash, nofun⟩
  · obtain hsame | ⟨hn', -⟩ := hmarks n
    · obtain ⟨height, txHash, hget⟩ := hn
      exact hreceipt _ (hmarked n entry ⟨height, txHash, hsame ▸ hget⟩ hentry)
    · exact hok n entry hn' hentry

/-- What `sync` leaves: the records there were, and new ones of the pending entries. -/
def Synced (H : HashFn) (s : ForcedChain σ) (deadlineBlocks : Nat) (store : InboxStore) : Prop :=
  ∀ n, store.get n = (s.store.get n).or
    (if s.inbox.includedCount ≤ n ∧ n < s.inbox.nextNonce
      then (s.inbox.pending n).map (InboxTracker.recordOf H s.height
        (saturatingAdd s.height deadlineBlocks))
      else none)

theorem Synced.tracked {deadlineBlocks : Nat} (h : Synced H s deadlineBlocks store)
    (hs : Sound H s) (n : Nat) :
    (store.get n).isSome ↔ n < s.history.submitted.length := by
  obtain ⟨k, hcursor, hlen, htracked⟩ := hs.tracked
  have hpending : (s.inbox.pending n).isSome ↔
      s.inbox.includedCount ≤ n ∧ n < s.inbox.nextNonce := hs.logged.pending_isSome n
  have hnext : s.inbox.nextNonce = _ := hs.logged.nextNonce
  rw [h n, Option.isSome_or, Bool.or_eq_true, htracked n]
  split_ifs with hin
  · rw [Option.isSome_map, hpending]
    omega
  · simp only [Option.isSome_none, Bool.false_eq_true, or_false]
    omega

theorem Sound.synced {deadlineBlocks : Nat} (hs : Sound H s)
    (h : Synced H s deadlineBlocks store) : Sound H { s with store } := by
  have hnew : ∀ n record, store.get n = some record → s.store.get n = some record ∨
      ∃ entry, s.history.submitted[n]? = some entry ∧ record = InboxTracker.recordOf H s.height
        (saturatingAdd s.height deadlineBlocks) entry := by
    intro n record hn
    rw [h n, Option.or_eq_some_iff] at hn
    obtain hold | ⟨-, hnew⟩ := hn
    · exact .inl hold
    · rw [Option.ite_none_right_eq_some, Option.map_eq_some_iff] at hnew
      obtain ⟨-, entry, hentry, rfl⟩ := hnew
      exact .inr ⟨entry, hs.logged.pending_submitted hentry, rfl⟩
  refine ⟨hs.logged, ⟨_, hs.logged.cursor, Nat.le_refl _, h.tracked hs⟩, ?_, ?_, hs.settled,
    hs.ordered⟩
  · intro n record hn
    obtain hold | ⟨entry, hentry, rfl⟩ := hnew n record hn
    · exact hs.records n record hold
    · exact ⟨entry, hentry, InboxTracker.recordOf_recordOf entry⟩
  · intro n entry ⟨height, txHash, hn⟩ hentry
    obtain hold | ⟨_, -, hrecord⟩ := hnew n _ hn
    · exact hs.marked n entry ⟨height, txHash, hold⟩ hentry
    · cases hrecord

/-- A pass of the poller: `sync`, then the submissions of what it leaves. -/
theorem poll_eq (client : ExecutionClient σ) (blockTimeMs : Nat) (hs : Sound H s)
    (windowRead : Bool) :
    ∃ deadlineBlocks store submissions, Synced H s deadlineBlocks store ∧
      InboxTracker.Listed H s.history.submitted store submissions ∧
      poll H client blockTimeMs windowRead s = { s with
        deadlineBlocks
        l2 := (pollSubmissions client submissions (s.l2, store)).1
        store := (pollSubmissions client submissions (s.l2, store)).2 } := by
  unfold poll
  generalize (if windowRead then InboxTracker.deadlineBlocksFor
    (s.inbox.effectiveWindowMs s.history.chain.now) blockTimeMs else s.deadlineBlocks) = blocks
  obtain ⟨store, hsync, hget⟩ := InboxTracker.sync_eq_ok H s.inbox blocks s.height s.store
  obtain ⟨submissions, hpending, hlisted⟩ :=
    InboxTracker.pendingSubmissions_eq_ok (hs.synced hget).records
  refine ⟨blocks, store, submissions, hget, hlisted, ?_⟩
  simp only [hsync, hpending]

theorem Sound.poll (hs : Sound H s) (windowRead : Bool) :
    Sound H (poll H client blockTimeMs windowRead s) := by
  obtain ⟨deadlineBlocks, store, submissions, hsynced, hlisted, hpoll⟩ :=
    poll_eq client blockTimeMs hs windowRead
  obtain ⟨hpolled, hmarks⟩ := pollSubmissions_spec client submissions s.l2 store
  rw [hpoll]
  refine (hs.synced hsynced).marks hmarks ?_ ?_ deadlineBlocks
  · intro n entry ⟨submission, hmem, hn, hr⟩ hentry
    obtain ⟨entry', hentry', hof⟩ := hlisted.entry submission hmem
    rw [hn, hentry] at hentry'; cases hentry'
    rwa [hpolled.receipt, ← hof.txHash]
  · intro txHash hr
    rwa [hpolled.receipt]

theorem Sound.produce {txs : List Bytes} (hs : Sound H s)
    (h : produce H client txs s = some s') : Sound H s' := by
  simp only [ForcedInclusion.produce, Option.map_eq_some_iff] at h
  obtain ⟨l2, hblock, rfl⟩ := h
  have hmarked : Sound H { s with
      l2
      store := (InboxTracker.observeTransactions H noFaults (s.height + 1) txs s.store).1 } := by
    refine hs.marks (InboxTracker.marks_observeTransactions _ _ _ _ _) ?_ ?_ s.deadlineBlocks
    · intro n entry hwith hentry
      obtain ⟨record, hrecord, hmem⟩ := hwith
      obtain ⟨entry', hentry', hof⟩ := hs.records n record hrecord
      rw [hentry] at hentry'; cases hentry'
      rw [hof.inBlock_iff] at hmem
      exact (executeBlock_receipt hblock _).2 (.inl hmem)
    · intro txHash hr
      exact (executeBlock_receipt hblock _).2 (.inr hr)
  have hnext : s.timestamp ≤ s.nextTimestamp := by
    unfold ForcedChain.nextTimestamp Node.nextTimestamp
    omega
  have hbefore : ∀ timestamp ∈ s.awaiting, timestamp ≤ s.timestamp := by
    intro timestamp hmem
    exact (List.pairwise_append.1 hs.ordered).2.2 timestamp hmem s.timestamp List.mem_cons_self
  have hlast : s.inbox.lastSettledTs ≤ s.timestamp * 1000 :=
    hs.settled s.timestamp (by simp)
  refine ⟨hmarked.logged, hmarked.tracked, hmarked.records, hmarked.marked, ?_, ?_⟩
  · intro timestamp hmem
    simp only [List.mem_append, List.mem_singleton, or_assoc, or_self] at hmem
    rcases hmem with hmem | rfl
    · exact hs.settled timestamp (List.mem_append_left _ hmem)
    · exact hlast.trans (Nat.mul_le_mul_right _ hnext)
  · have hawaiting := (List.pairwise_append.1 hs.ordered).1
    simp only [List.pairwise_append, List.mem_append, List.mem_singleton, List.pairwise_singleton]
    refine ⟨⟨hawaiting, trivial, ?_⟩, trivial, ?_⟩
    · intro timestamp hmem next heq
      rw [heq]
      exact (hbefore timestamp hmem).trans hnext
    · intro timestamp hmem next heq
      rw [heq]
      rcases hmem with hmem | rfl
      · exact (hbefore timestamp hmem).trans hnext
      · exact Nat.le_refl _

/-- The cursor of the markers stays within what is tracked. -/
theorem commitCursor_le {k : Nat} (hcursor : s.inbox.includedCount ≤ k)
    (htracked : ∀ n, (s.store.get n).isSome ↔ n < k) :
    InboxTracker.commitCursor s.inbox.includedCount (InboxTracker.settleCursor s.store) ≤ k := by
  refine Nat.max_le.2 ⟨?_, hcursor⟩
  have hsub : s.store.nonces.keysWhere NonceRecord.isIncluded ⊆ Finset.range k := by
    intro n hn
    rw [NatMap.mem_keysWhere, InboxStore.holdsAt_isIncluded_iff] at hn
    obtain ⟨height, txHash, hget⟩ := hn
    rw [Finset.mem_range, ← htracked n, hget]
    rfl
  have hcard := Finset.card_le_card hsub
  rwa [NatMap.card_keysWhere, Finset.card_range] at hcard

theorem Sound.settle (hs : Sound H s) (h : settle s = some s') : Sound H s' := by
  unfold ForcedInclusion.settle at h
  split at h
  · cases h
  · rename_i timestamp awaiting hawaiting
    split_ifs at h
    rw [Option.map_eq_some_iff] at h
    obtain ⟨history, hstep, rfl⟩ := h
    obtain ⟨hexec, hsub, -⟩ := InboxHistory.step_cases hstep
    simp only [InboxChain.exec, Option.map_eq_some_iff, toOption_eq_some] at hexec
    obtain ⟨inbox', hsettle, hchain⟩ := hexec
    obtain ⟨k, hcursor, hlen, htracked⟩ := hs.tracked
    have hle := commitCursor_le hcursor htracked
    have hsubmitted : history.submitted = s.history.submitted := hsub
    have hordered : (timestamp :: (awaiting ++ [s.timestamp])).Pairwise (· ≤ ·) := by
      have hall := hs.ordered
      rwa [hawaiting] at hall
    obtain ⟨-, -, -, -, -, rfl⟩ := Inbox.enforceSettle_eq_ok.1 hsettle
    refine ⟨hs.logged.step hstep, ⟨k, ?_, ?_, htracked⟩, ?_, ?_, ?_, ?_⟩
    · simp only [ForcedChain.inbox, ← hchain]
      exact hle
    · rw [hsubmitted]
      exact hlen
    · rw [hsubmitted]
      exact hs.records
    · rw [hsubmitted]
      exact hs.marked
    · intro timestamp' hmem
      simp only [ForcedChain.inbox, ← hchain]
      exact Nat.mul_le_mul_right _ (List.rel_of_pairwise_cons hordered hmem)
    · exact (List.pairwise_cons.1 hordered).2

theorem Sound.call {c : InboxChain.Call} {history : InboxHistory} (hs : Sound H s)
    (hc : ∀ blockTs cursor, c ≠ .enforceSettle blockTs cursor)
    (h : s.history.step c = some history) : Sound H { s with history } := by
  obtain ⟨hcount, hts, more, hmore⟩ := InboxHistory.step_keeps hc h
  obtain ⟨hlogged, ⟨k, hcursor, hlen, htracked⟩, hrecords, hmarked, hsettled, hordered⟩ := hs
  have hpre : ∀ (n : Nat) (entry : PendingTx), s.history.submitted[n]? = some entry →
      history.submitted[n]? = some entry := by
    intro n entry hentry
    obtain ⟨hlt, -⟩ := List.getElem?_eq_some_iff.1 hentry
    rw [← hmore, List.getElem?_append_left hlt]
    exact hentry
  refine ⟨hlogged.step h, ⟨k, ?_, ?_, htracked⟩, ?_, ?_, ?_, hordered⟩
  · exact hcount.le.trans hcursor
  · rw [← hmore, List.length_append]
    exact Nat.le_add_right_of_le hlen
  · intro n record hn
    obtain ⟨entry, hentry, hof⟩ := hrecords n record hn
    exact ⟨entry, hpre n entry hentry, hof⟩
  · intro n entry hn hentry
    obtain ⟨height, txHash, hget⟩ := hn
    obtain ⟨entry', hentry', -⟩ := hrecords n _ hget
    rw [hpre n entry' hentry'] at hentry; cases hentry
    exact hmarked n entry ⟨height, txHash, hget⟩ hentry'
  · intro timestamp hmem
    exact hts.le.trans (hsettled timestamp hmem)

theorem Sound.step {a : Action} (hs : Sound H s)
    (h : enabled (step H client blockTimeMs) s a t) : Sound H t := by
  cases a with
  | poll windowRead =>
    cases h
    exact hs.poll windowRead
  | produce txs => exact hs.produce h
  | settle => exact hs.settle h
  | call c =>
    cases c with
    | enforceSettle => cases h
    | tick | submit | stageWindowChange | cancelWindowChange =>
      simp only [enabled, ForcedInclusion.step, Option.map_eq_some_iff] at h
      obtain ⟨history, hstep, rfl⟩ := h
      refine hs.call ?_ hstep
      intro _ _ heq
      cases heq
  | hostClock unixNow =>
    cases h
    exact ⟨hs.logged, hs.tracked, hs.records, hs.marked, hs.settled, hs.ordered⟩
  | send tx =>
    simp only [enabled, ForcedInclusion.step, Option.map_eq_some_iff] at h
    obtain ⟨l2, hsend, rfl⟩ := h
    refine ⟨hs.logged, hs.tracked, hs.records, fun n entry hn hentry => ?_, hs.settled, hs.ordered⟩
    rw [(send_polled hsend).receipt]
    exact hs.marked n entry hn hentry
  | evict tx =>
    cases h
    exact ⟨hs.logged, hs.tracked, hs.records, hs.marked, hs.settled, hs.ordered⟩

theorem reachable_sound (h : Reachable Start (enabled (step H client blockTimeMs)) s) :
    Sound H s :=
  h.inv (fun _ hs => hs.sound) fun _ _ _ hs hst => hs.step hst

end ForcedInclusion

end Podseq.Node
