import Podseq.Node.InboxTracker

/-! # What the loops of the tracker do to the markers

`sync` adds the records of the pending nonces it has not tracked, a pass of marks turns submitted
records into included ones, and the gate is clear when no submitted record is overdue.
-/
namespace Podseq.Node
open Podseq.Lib Podseq.Move

namespace InboxStore

/-! ## Marks -/

/-- The second store is the first with some of the nonces that meet `ok` marked. -/
def Marks (ok : Nat → Prop) (store store' : InboxStore) : Prop :=
  ∀ n, store'.get n = store.get n ∨ ok n ∧ ∃ record height,
    store.get n = some record ∧ store'.get n = some (.included height record.txHash)

variable {ok ok' : Nat → Prop} {store store' store'' : InboxStore} {n nonce height : Nat}
  {record : NonceRecord} {txHash : String}

theorem Marks.refl (ok : Nat → Prop) (store : InboxStore) : Marks ok store store :=
  fun _ => .inl rfl

theorem Marks.mono (h : Marks ok store store') (hok : ∀ n, ok n → ok' n) :
    Marks ok' store store' := by
  intro n
  obtain hsame | ⟨hn, hmarked⟩ := h n
  · exact .inl hsame
  · exact .inr ⟨hok n hn, hmarked⟩

theorem Marks.trans (h : Marks ok store store') (k : Marks ok store' store'') :
    Marks ok store store'' := by
  intro n
  obtain hsame' | ⟨hn', record', height', hget', hget''⟩ := k n
  · rw [hsame']
    exact h n
  · obtain hsame | ⟨hn, record, height, hget, hget₁⟩ := h n
    · exact .inr ⟨hn', record', height', hsame ▸ hget', hget''⟩
    · rw [hget₁] at hget'; cases hget'
      exact .inr ⟨hn, record, height', hget, hget''⟩

theorem marks_markIncluded (h : store.markIncluded nonce height = .ok store') :
    Marks (· = nonce) store store' := by
  obtain ⟨hother, record, hget, hget'⟩ := get_markIncluded h
  intro n
  by_cases heq : n = nonce
  · exact .inr ⟨heq, record, height, heq ▸ hget, heq ▸ hget'⟩
  · exact .inl (hother n heq)

theorem Marks.isSome (h : Marks ok store store') (n : Nat) :
    (store'.get n).isSome ↔ (store.get n).isSome := by
  obtain hsame | ⟨-, record, height, hget, hget'⟩ := h n
  · rw [hsame]
  · rw [hget, hget']; rfl

theorem Marks.included (h : Marks ok store store') (hn : store.Included n) :
    store'.Included n := by
  obtain ⟨height, txHash, hget⟩ := hn
  obtain hsame | ⟨-, record, height', -, hget'⟩ := h n
  · exact ⟨height, txHash, hsame.trans hget⟩
  · exact ⟨height', _, hget'⟩

/-- What is submitted after a pass of marks was so before. -/
theorem Marks.submitted (h : Marks ok store store') (hget : store'.get n = some record)
    (hsub : record.isSubmitted) : store.get n = some record := by
  obtain hsame | ⟨-, record', height, -, hget'⟩ := h n
  · rw [← hsame]; exact hget
  · rw [hget] at hget'; cases hget'; cases hsub

theorem sorted_snapshot : store.snapshot.Pairwise fun a b => a.1 < b.1 := by
  have hordered := Std.TreeMap.ordered_keys_toList (t := store.nonces)
  simp only [Nat.compare_eq_lt] at hordered
  exact hordered

/-- A nonce that cannot be marked keeps its record. -/
theorem Marks.get_of_not (h : Marks ok store store') (hn : ¬ ok n) :
    store'.get n = store.get n := by
  obtain hsame | ⟨hok, -⟩ := h n
  · exact hsame
  · exact absurd hok hn

end InboxStore

namespace InboxTracker

variable {H : HashFn} {store store' : InboxStore} {n nonce count height deadlineHeight : Nat}
  {atHeight nextHeight : Nat} {pending : Table Nat PendingTx}

/-! ## Tracking -/

/-- The record `sync` makes of a pending entry. -/
def recordOf (H : HashFn) (atHeight deadlineHeight : Nat) (entry : PendingTx) : NonceRecord :=
  .submitted deadlineHeight entry.deadlineMs atHeight (Hex.encodePrefixed (H.digest entry.txBytes))
    (Hex.encode entry.txBytes)

theorem trackEntry_eq_ok (H : HashFn) (atHeight deadlineHeight : Nat) (store : InboxStore)
    (nonce : Nat) (entry : Option PendingTx) :
    ∃ store' submission,
      trackEntry H atHeight deadlineHeight store nonce entry = .ok (store', submission) ∧
      ∀ n, store'.get n = (store.get n).or
        (if n = nonce then entry.map (recordOf H atHeight deadlineHeight) else none) := by
  unfold trackEntry
  cases hget : store.get nonce with
  | some record =>
    refine ⟨store, none, rfl, fun n => ?_⟩
    by_cases heq : n = nonce
    · rw [heq, hget]; rfl
    · rw [if_neg heq, Option.or_none]
  | none =>
    cases entry with
    | none =>
      refine ⟨store, none, rfl, fun n => ?_⟩
      simp
    | some pending =>
      have hrecord : store.recordSubmitted nonce deadlineHeight pending.deadlineMs atHeight
          (Hex.encodePrefixed (H.digest pending.txBytes)) (Hex.encode pending.txBytes) =
          .ok ⟨store.nonces.insert nonce (recordOf H atHeight deadlineHeight pending)⟩ :=
        InboxStore.recordSubmitted_eq_ok.2 ⟨hget, rfl⟩
      simp only [hrecord, storeResult]
      refine ⟨_, _, rfl, fun n => ?_⟩
      rw [InboxStore.get_insert]
      by_cases heq : n = nonce
      · rw [if_pos heq, if_pos heq, heq, hget]; rfl
      · rw [if_neg heq, if_neg heq, Option.or_none]

/-- The loop of `sync` never fails, and tracks what was pending and not tracked. -/
theorem trackFrom_eq_ok (H : HashFn) (atHeight deadlineHeight : Nat)
    (pending : Table Nat PendingTx) (store : InboxStore) (nonce count : Nat) :
    ∃ store', trackFrom H atHeight deadlineHeight pending store nonce count = .ok store' ∧
      ∀ n, store'.get n = (store.get n).or
        (if nonce ≤ n ∧ n < nonce + count
          then (pending n).map (recordOf H atHeight deadlineHeight) else none) := by
  induction count generalizing store nonce with
  | zero =>
    refine ⟨store, rfl, fun n => ?_⟩
    rw [if_neg (by omega), Option.or_none]
  | succ count ih =>
    obtain ⟨store₁, submission, hentry, hget₁⟩ :=
      trackEntry_eq_ok H atHeight deadlineHeight store nonce (pending nonce)
    obtain ⟨store', htail, hget'⟩ := ih store₁ (nonce + 1)
    refine ⟨store', ?_, fun n => ?_⟩
    · simp only [trackFrom, hentry, bind, Except.bind, htail]
    · rw [hget', hget₁]
      by_cases heq : n = nonce
      · subst heq
        rw [if_pos rfl, if_neg (by omega), if_pos (by omega), Option.or_none]
      · rw [if_neg heq, Option.or_none]
        congr 2
        simp only [eq_iff_iff]
        omega

theorem sync_eq_ok (H : HashFn) (inbox : Inbox) (deadlineBlocks atHeight : Nat)
    (store : InboxStore) :
    ∃ store', sync H inbox deadlineBlocks atHeight store = .ok store' ∧
      ∀ n, store'.get n = (store.get n).or
        (if inbox.includedCount ≤ n ∧ n < inbox.nextNonce
          then (inbox.pending n).map (recordOf H atHeight (saturatingAdd atHeight deadlineBlocks))
          else none) := by
  obtain ⟨store', hok, hget⟩ := trackFrom_eq_ok H atHeight (saturatingAdd atHeight deadlineBlocks)
    inbox.pending store inbox.includedCount (inbox.nextNonce - inbox.includedCount)
  refine ⟨store', hok, fun n => ?_⟩
  rw [hget]
  congr 2
  simp only [eq_iff_iff]
  omega

/-! ## Pending submissions -/

variable {pending : List TrackedSubmission} {submission : TrackedSubmission}

theorem nonce_of_submissionOf {record : NonceRecord}
    (h : submissionOf nonce record = .ok submission) : submission.nonce = nonce := by
  cases record with
  | included => cases h
  | submitted =>
    simp only [submissionOf, bind_eq_ok, pure_eq_ok] at h
    obtain ⟨_, -, _, -, rfl⟩ := h
    rfl

/-- The pending list has the submitted records, in their order. -/
theorem nonces_of_pendingSubmissions (h : pendingSubmissions store = .ok pending) :
    pending.map (·.nonce) = store.submitted.map Prod.fst := by
  have hall := forall₂_of_mapM_eq_ok h
  refine (map_eq_map_of_forall₂ (fun e submission hok => ?_) hall).symm
  exact (nonce_of_submissionOf hok).symm

theorem sorted_of_pendingSubmissions (h : pendingSubmissions store = .ok pending) :
    (pending.map (·.nonce)).Pairwise (· < ·) := by
  rw [nonces_of_pendingSubmissions h, List.pairwise_map]
  exact InboxStore.sorted_snapshot.sublist List.filter_sublist

theorem submitted_of_pendingSubmissions (h : pendingSubmissions store = .ok pending)
    (hmem : submission ∈ pending) :
    ∃ record, store.get submission.nonce = some record ∧ record.isSubmitted := by
  have hnonce : submission.nonce ∈ store.submitted.map Prod.fst := by
    rw [← nonces_of_pendingSubmissions h]
    exact List.mem_map_of_mem hmem
  obtain ⟨e, he, heq⟩ := List.mem_map.1 hnonce
  obtain ⟨hsnapshot, hsub⟩ := List.mem_filter.1 he
  exact ⟨e.2, heq ▸ InboxStore.mem_snapshot.1 hsnapshot, hsub⟩

/-- The record is one of the entry: it has its hash, and its bytes while it is submitted. -/
structure RecordOf (H : HashFn) (entry : PendingTx) (record : NonceRecord) : Prop where
  txHash : record.txHash = Hex.encodePrefixed (H.digest entry.txBytes)
  txBytes : ∀ deadlineHeight deadlineMs firstSeenHeight txHash txBytes,
    record = .submitted deadlineHeight deadlineMs firstSeenHeight txHash txBytes →
      txBytes = Hex.encode entry.txBytes

theorem recordOf_recordOf (entry : PendingTx) :
    RecordOf H entry (recordOf H atHeight deadlineHeight entry) := by
  refine ⟨rfl, ?_⟩
  intro _ _ _ _ _ h
  cases h
  rfl

/-- A submission of the entry, as the pool gets it. -/
structure SubmissionOf (H : HashFn) (entry : PendingTx) (submission : TrackedSubmission) :
    Prop where
  txHash : submission.txHash = H.digest entry.txBytes
  txBytes : submission.txBytes = entry.txBytes

theorem submissionOf_eq_ok {entry : PendingTx} {record : NonceRecord}
    (h : RecordOf H entry record) (hsub : record.isSubmitted) (nonce : Nat) :
    ∃ submission, submissionOf nonce record = .ok submission ∧ submission.nonce = nonce ∧
      SubmissionOf H entry submission := by
  cases record with
  | included => cases hsub
  | submitted deadlineHeight deadlineMs firstSeenHeight txHash txBytes =>
    have hhash : txHash = Hex.encodePrefixed (H.digest entry.txBytes) := h.txHash
    have hbytes : txBytes = Hex.encode entry.txBytes := h.txBytes _ _ _ _ _ rfl
    subst hhash hbytes
    simp only [submissionOf, parseTxHash_encodePrefixed, decodeTxBytes, Hex.decode_encode, bind,
      Except.bind]
    exact ⟨_, rfl, rfl, rfl, rfl⟩

/-- The pending submissions of a store whose records are of `entries`: one for each submitted
record, in nonce order. -/
structure Listed (H : HashFn) (entries : List PendingTx) (store : InboxStore)
    (submissions : List TrackedSubmission) : Prop where
  sorted : submissions.Pairwise fun a b => a.nonce < b.nonce
  record : ∀ submission ∈ submissions,
    ∃ record, store.get submission.nonce = some record ∧ record.isSubmitted
  entry : ∀ submission ∈ submissions,
    ∃ entry, entries[submission.nonce]? = some entry ∧ SubmissionOf H entry submission
  complete : ∀ n record, store.get n = some record → record.isSubmitted →
    ∃ submission ∈ submissions, submission.nonce = n

theorem pendingSubmissions_eq_ok {entries : List PendingTx}
    (hrecords : ∀ n record, store.get n = some record →
      ∃ entry, entries[n]? = some entry ∧ RecordOf H entry record) :
    ∃ submissions, pendingSubmissions store = .ok submissions ∧
      Listed H entries store submissions := by
  have hone : ∀ e ∈ store.submitted, ∃ submission, submissionOf e.1 e.2 = .ok submission ∧
      submission.nonce = e.1 ∧ ∃ entry, entries[e.1]? = some entry ∧
        SubmissionOf H entry submission := by
    intro e he
    obtain ⟨hsnapshot, hsub⟩ := List.mem_filter.1 he
    obtain ⟨entry, hentry, hof⟩ := hrecords e.1 e.2 (InboxStore.mem_snapshot.1 hsnapshot)
    obtain ⟨submission, hok, hnonce, hsubmission⟩ := submissionOf_eq_ok hof hsub e.1
    exact ⟨submission, hok, hnonce, entry, hentry, hsubmission⟩
  obtain ⟨submissions, hok, hall⟩ := mapM_eq_ok hone
  refine ⟨submissions, hok, ?_, ?_, ?_, ?_⟩
  · have hsorted := sorted_of_pendingSubmissions hok
    rwa [List.pairwise_map] at hsorted
  · intro submission hs
    exact submitted_of_pendingSubmissions hok hs
  · intro submission hs
    obtain ⟨e, -, hnonce, hentry⟩ := exists_of_forall₂ hall hs
    exact hnonce ▸ hentry
  · intro n record hget hsub
    have hn : n ∈ store.submitted.map Prod.fst :=
      List.mem_map.2 ⟨(n, record),
        List.mem_filter.2 ⟨InboxStore.mem_snapshot.2 hget, hsub⟩, rfl⟩
    rwa [← nonces_of_pendingSubmissions hok, List.mem_map] at hn

/-! ## The gate -/

theorem haltCheckRecords_clear {records : List (Nat × NonceRecord)}
    (h : ∀ e ∈ records, ∀ deadlineHeight deadlineMs firstSeenHeight txHash txBytes,
      e.2 = .submitted deadlineHeight deadlineMs firstSeenHeight txHash txBytes →
        nextHeight ≤ deadlineHeight) :
    haltCheckRecords nextHeight records = .clear := by
  induction records with
  | nil => rfl
  | cons e rest ih =>
    obtain ⟨n, record⟩ := e
    cases record with
    | submitted deadlineHeight deadlineMs firstSeenHeight txHash txBytes =>
      have hle := h _ List.mem_cons_self _ _ _ _ _ rfl
      exact if_neg (Nat.not_lt_of_le hle)
    | included => exact ih fun e he => h e (List.mem_cons_of_mem _ he)

/-- The gate is clear when no submitted record is overdue. -/
theorem haltCheck_clear
    (h : ∀ n deadlineHeight deadlineMs firstSeenHeight txHash txBytes,
      store.get n = some (.submitted deadlineHeight deadlineMs firstSeenHeight txHash txBytes) →
        nextHeight ≤ deadlineHeight) :
    haltCheck nextHeight store = .clear := by
  refine haltCheckRecords_clear fun e he dh dm fs txHash txBytes heq => ?_
  exact h e.1 dh dm fs txHash txBytes (heq ▸ InboxStore.mem_snapshot.1 he)

theorem haltCheckRecords_halt {records : List (Nat × NonceRecord)}
    {deadlineMs firstSeenHeight : Nat} {txHash txBytes : String}
    (hsorted : records.Pairwise fun a b => a.1 < b.1)
    (hmem : (n, .submitted deadlineHeight deadlineMs firstSeenHeight txHash txBytes) ∈ records)
    (hfirst : ∀ e ∈ records, e.1 < n → e.2.isIncluded) (hlate : deadlineHeight < nextHeight) :
    haltCheckRecords nextHeight records = .halt n deadlineHeight nextHeight := by
  induction records with
  | nil => cases hmem
  | cons e rest ih =>
    rcases List.mem_cons.1 hmem with rfl | hrest
    · exact if_pos hlate
    · have hincluded := hfirst e List.mem_cons_self (List.rel_of_pairwise_cons hsorted hrest)
      obtain ⟨i, record⟩ := e
      cases record with
      | submitted => cases hincluded
      | included =>
        exact ih (List.pairwise_cons.1 hsorted).2 hrest fun e he =>
          hfirst e (List.mem_cons_of_mem _ he)

/-- The gate halts on the first submission that is not marked, when that is overdue. -/
theorem haltCheck_halt {deadlineMs firstSeenHeight : Nat} {txHash txBytes : String}
    (hget : store.get n =
      some (.submitted deadlineHeight deadlineMs firstSeenHeight txHash txBytes))
    (hfirst : ∀ i, i < n → store.Included i) (hlate : deadlineHeight < nextHeight) :
    haltCheck nextHeight store = .halt n deadlineHeight nextHeight := by
  refine haltCheckRecords_halt ?_ (InboxStore.mem_snapshot.2 hget) (fun e he hlt => ?_) hlate
  · exact InboxStore.sorted_snapshot
  · obtain ⟨height, txHash, hincluded⟩ := hfirst e.1 hlt
    rw [InboxStore.mem_snapshot.1 he, Option.some.injEq] at hincluded
    rw [hincluded]
    rfl

/-- A gate that is not clear has a submitted record that is overdue. -/
theorem overdue_of_haltCheck (h : haltCheck nextHeight store ≠ .clear) :
    ∃ n deadlineHeight deadlineMs firstSeenHeight txHash txBytes,
      store.get n =
        some (.submitted deadlineHeight deadlineMs firstSeenHeight txHash txBytes) ∧
        deadlineHeight < nextHeight := by
  by_contra hnone
  refine h (haltCheck_clear fun n dh dm fs txHash txBytes hget => ?_)
  by_contra hlt
  exact hnone ⟨n, dh, dm, fs, txHash, txBytes, hget, Nat.lt_of_not_le hlt⟩

end InboxTracker

end Podseq.Node
