import Podseq.Lib.StoppingLoop
import Podseq.Node.TrackerPasses

/-! # The marks of one block

`observe_transactions` writes the file once for each nonce it marks, and the first record it
cannot handle ends it: a hash that does not parse, a second inclusion, a file that cannot be
read or written. What it marked before stays marked, what comes after is missed.
-/
namespace Podseq.Node
open Podseq.Lib

/-- Where the file system fails while a block is observed: at the snapshot, or at the load or
the save of the mark of a nonce. -/
structure StoreFaults where
  snapshot : Option StoreError
  load : Nat → Option StoreError
  save : Nat → Option StoreError

def noFaults : StoreFaults := ⟨none, fun _ => none, fun _ => none⟩

namespace NonceRecord

/-- Included, and not at `height`. -/
def includedElsewhere (height : Nat) : NonceRecord → Bool
  | .included existing _ => existing ≠ height
  | .submitted .. => false

end NonceRecord

namespace InboxStore

variable {store store' : InboxStore} {faults : StoreFaults} {nonce height n : Nat}
  {record : NonceRecord}

def failWith : Option StoreError → Except StoreError Unit
  | none => .ok ()
  | some e => .error e

/-- `mark_included` with its load and its save. A save that fails leaves the file as it was. -/
def markIncludedWith (faults : StoreFaults) (store : InboxStore) (nonce height : Nat) :
    Except StoreError InboxStore := do
  failWith (faults.load nonce)
  let store ← store.markIncluded nonce height
  failWith (faults.save nonce)
  return store

@[simp] theorem failWith_eq_ok {e : Option StoreError} {u : Unit} :
    failWith e = .ok u ↔ e = none := by
  cases e <;> simp [failWith]

theorem markIncludedWith_eq_ok :
    store.markIncludedWith faults nonce height = .ok store' ↔ faults.load nonce = none ∧
      store.markIncluded nonce height = .ok store' ∧ faults.save nonce = none := by
  simp only [markIncludedWith, bind_eq_ok, failWith_eq_ok, pure_eq_ok, exists_const]
  constructor
  · intro h
    obtain ⟨hload, marked, hmark, hsave, rfl⟩ := h
    exact ⟨hload, hmark, hsave⟩
  · intro h
    exact ⟨h.1, _, h.2.1, h.2.2, rfl⟩

theorem markIncludedWith_noFaults :
    store.markIncludedWith noFaults nonce height = store.markIncluded nonce height := by
  simp only [markIncludedWith, noFaults, failWith]
  cases store.markIncluded nonce height <;> rfl

/-- A tracked nonce is marked unless it is included at another height. -/
theorem markIncluded_eq_ok_iff (hget : store.get nonce = some record) :
    (∃ store', store.markIncluded nonce height = .ok store') ↔
      record.includedElsewhere height = false := by
  unfold markIncluded
  unfold get at hget
  rw [hget]
  cases record with
  | submitted => simp [NonceRecord.includedElsewhere]
  | included existing txHash =>
    by_cases heq : existing = height <;> simp [NonceRecord.includedElsewhere, heq]

end InboxStore

namespace InboxTracker

variable {H : HashFn} {faults : StoreFaults} {height nonce n : Nat} {blockHashes : List Bytes}
  {rawTxs : List Bytes} {store store' : InboxStore} {marked : List Nat} {record : NonceRecord}
  {records : List (Nat × NonceRecord)}

/-- One iteration of `observe_transactions`, on the store and the nonces newly marked. -/
def observeStep (faults : StoreFaults) (height : Nat) (blockHashes : List Bytes) :
    InboxStore × List Nat → Nat × NonceRecord →
      (InboxStore × List Nat) × Except TrackerError Unit
  | (store, marked), (nonce, record) =>
    match parseTxHash record.txHash with
    | .error e => ((store, marked), .error e)
    | .ok txHash =>
      if blockHashes.contains txHash then
        match store.markIncludedWith faults nonce height with
        | .error e => ((store, marked), .error (.store e))
        | .ok store => ((store, if record.isSubmitted then marked ++ [nonce] else marked), .ok ())
      else ((store, marked), .ok ())

def observeTransactions (H : HashFn) (faults : StoreFaults) (height : Nat) (rawTxs : List Bytes)
    (store : InboxStore) : InboxStore × Except TrackerError (List Nat) :=
  match faults.snapshot with
  | some e => (store, .error (.store e))
  | none =>
    match stoppingLoop (observeStep faults height (rawTxs.map H.digest)) (store, [])
      store.snapshot with
    | ((store, marked), .ok ()) => (store, .ok marked)
    | ((store, _), .error e) => (store, .error e)

/-- An iteration marks its record when the block has its hash. -/
theorem observeStep_cases {marked' : List Nat}
    (h : observeStep noFaults height blockHashes (store, marked) (nonce, record) =
      ((store', marked'), .ok ())) :
    ∃ txHash, parseTxHash record.txHash = .ok txHash ∧
      (store' = store ∨ txHash ∈ blockHashes ∧ store.markIncluded nonce height = .ok store') := by
  simp only [observeStep, InboxStore.markIncludedWith_noFaults] at h
  cases hparse : parseTxHash record.txHash with
  | error e =>
    simp only [hparse] at h
    cases h
  | ok txHash =>
    refine ⟨txHash, rfl, ?_⟩
    simp only [hparse] at h
    split at h
    · rename_i hmem
      cases hmark : store.markIncluded nonce height with
      | error e =>
        simp only [hmark] at h
        cases h
      | ok store₁ =>
        simp only [hmark] at h
        cases h
        exact .inr ⟨List.contains_iff_mem.1 hmem, rfl⟩
    · cases h
      exact .inl rfl

/-! ## The records of a block -/

def inBlock (blockHashes : List Bytes) (record : NonceRecord) : Bool :=
  match parseTxHash record.txHash with
  | .ok txHash => blockHashes.contains txHash
  | .error _ => false

/-- The loop is to mark the nonce. -/
def marks (blockHashes : List Bytes) (e : Nat × NonceRecord) : Bool :=
  e.2.isSubmitted && inBlock blockHashes e.2

/-- The loop fails at the nonce. -/
def fails (faults : StoreFaults) (height : Nat) (blockHashes : List Bytes)
    (e : Nat × NonceRecord) : Bool :=
  match parseTxHash e.2.txHash with
  | .error _ => true
  | .ok txHash => blockHashes.contains txHash &&
      ((faults.load e.1).isSome || e.2.includedElsewhere height || (faults.save e.1).isSome)

/-- The record once the block has been observed. -/
def observedRecord (height : Nat) (blockHashes : List Bytes) (record : NonceRecord) :
    NonceRecord :=
  if record.isSubmitted && inBlock blockHashes record then .included height record.txHash
  else record

theorem inBlock_of_ok {txHash : Bytes} (h : parseTxHash record.txHash = .ok txHash) :
    inBlock blockHashes record = blockHashes.contains txHash := by
  rw [inBlock, h]

theorem RecordOf.inBlock_iff {entry : Move.PendingTx} (h : RecordOf H entry record) :
    inBlock blockHashes record ↔ H.digest entry.txBytes ∈ blockHashes := by
  rw [inBlock, h.txHash, parseTxHash_encodePrefixed]
  exact List.contains_iff_mem

theorem fails_of_ok {txHash : Bytes} (h : parseTxHash record.txHash = .ok txHash) :
    fails faults height blockHashes (nonce, record) = (blockHashes.contains txHash &&
      ((faults.load nonce).isSome || record.includedElsewhere height ||
        (faults.save nonce).isSome)) := by
  simp only [fails, h]

/-- A record whose transaction is in the block is marked, where it can be. -/
theorem observedRecord_of_marked (hget : store.get nonce = some record)
    (hin : inBlock blockHashes record = true)
    (hmark : store.markIncluded nonce height = .ok store') :
    (∀ n, store'.get n =
      if n = nonce then some (observedRecord height blockHashes record) else store.get n) ∧
    (record.isSubmitted = false → store' = store) := by
  unfold observedRecord
  rw [hin, Bool.and_true]
  obtain ⟨txHash, hget', rfl⟩ | ⟨dh, dm, fs, txHash, txBytes, hget', rfl⟩ :=
    InboxStore.markIncluded_eq_ok.1 hmark
  · rw [hget, Option.some.injEq] at hget'
    subst hget'
    refine ⟨fun n => ?_, fun _ => rfl⟩
    by_cases heq : n = nonce
    · rw [if_pos heq, heq, hget]; rfl
    · rw [if_neg heq]
  · rw [hget, Option.some.injEq] at hget'
    subst hget'
    refine ⟨fun n => ?_, fun h => by cases h⟩
    rw [InboxStore.get_insert]
    rfl

/-- An iteration goes through where the loop does not fail: it marks the nonce, or does nothing. -/
theorem observeStep_of_not_fails (hget : store.get nonce = some record)
    (h : fails faults height blockHashes (nonce, record) = false) :
    ∃ store', observeStep faults height blockHashes (store, marked) (nonce, record) =
        ((store', marked ++ ([(nonce, record)].filter (marks blockHashes)).map Prod.fst), .ok ()) ∧
      (∀ n, store'.get n =
        if n = nonce then some (observedRecord height blockHashes record) else store.get n) ∧
      (marks blockHashes (nonce, record) = false → store' = store) := by
  obtain ⟨e, hparse⟩ | ⟨txHash, hparse⟩ := error_or_ok (parseTxHash record.txHash)
  · simp only [fails, hparse, Bool.true_eq_false] at h
  · rw [fails_of_ok hparse] at h
    cases hmem : blockHashes.contains txHash with
    | false =>
      have hin : inBlock blockHashes record = false := (inBlock_of_ok hparse).trans hmem
      refine ⟨store, ?_, fun n => ?_, fun _ => rfl⟩
      · simp only [observeStep, hparse, hmem, Bool.false_eq_true, if_false, List.filter_singleton,
          marks, hin, Bool.and_false, cond_false, List.map_nil, List.append_nil]
      · by_cases heq : n = nonce
        · simp [heq, hget, observedRecord, hin]
        · rw [if_neg heq]
    | true =>
      have hin : inBlock blockHashes record = true := (inBlock_of_ok hparse).trans hmem
      simp only [hmem, Bool.true_and, Bool.or_eq_false_iff, Option.isSome_eq_false_iff,
        Option.isNone_iff_eq_none] at h
      obtain ⟨⟨hload, helsewhere⟩, hsave⟩ := h
      obtain ⟨store', hmark⟩ := (InboxStore.markIncluded_eq_ok_iff hget).2 helsewhere
      have hwith := InboxStore.markIncludedWith_eq_ok.2 ⟨hload, hmark, hsave⟩
      obtain ⟨hget', hsame⟩ := observedRecord_of_marked hget hin hmark
      refine ⟨store', ?_, hget', fun hnot => hsame ?_⟩
      · simp only [observeStep, hparse, hmem, if_true, hwith, List.filter_singleton, marks, hin,
          Bool.and_true]
        cases record.isSubmitted <;> simp
      · rwa [marks, hin, Bool.and_true] at hnot

/-- Where the loop fails it leaves the store as the iteration found it. -/
theorem observeStep_of_fails (hget : store.get nonce = some record)
    (h : fails faults height blockHashes (nonce, record) = true) :
    ∃ e, observeStep faults height blockHashes (store, marked) (nonce, record) =
      ((store, marked), .error e) := by
  obtain ⟨e, hparse⟩ | ⟨txHash, hparse⟩ := error_or_ok (parseTxHash record.txHash)
  · exact ⟨e, by simp only [observeStep, hparse]⟩
  · rw [fails_of_ok hparse, Bool.and_eq_true] at h
    obtain ⟨hmem, hfault⟩ := h
    obtain ⟨e, hwith⟩ | ⟨store', hwith⟩ :=
      error_or_ok (store.markIncludedWith faults nonce height)
    · exact ⟨.store e, by simp only [observeStep, hparse, hmem, if_true, hwith]⟩
    · obtain ⟨hload, hmark, hsave⟩ := InboxStore.markIncludedWith_eq_ok.1 hwith
      have helsewhere := (InboxStore.markIncluded_eq_ok_iff hget).1 ⟨store', hmark⟩
      simp [hload, hsave, helsewhere] at hfault

/-! ## The whole loop -/

/-- What the loop has done to the store after some of its records. -/
structure Observed (height : Nat) (blockHashes : List Bytes) (store : InboxStore)
    (done : List (Nat × NonceRecord)) (s : InboxStore × List Nat) : Prop where
  get : ∀ n, s.1.get n = if n ∈ done.map Prod.fst
    then (store.get n).map (observedRecord height blockHashes) else store.get n
  marked : s.2 = (done.filter (marks blockHashes)).map Prod.fst
  same : (∀ e ∈ done, marks blockHashes e = false) → s.1 = store

theorem Observed.start (height : Nat) (blockHashes : List Bytes) (store : InboxStore) :
    Observed height blockHashes store [] (store, []) :=
  ⟨fun _ => rfl, rfl, fun _ => rfl⟩

theorem get_of_next {done : List (Nat × NonceRecord)}
    (hpre : done ++ [(nonce, record)] <+: store.snapshot) : store.get nonce = some record := by
  have hmem : (nonce, record) ∈ done ++ [(nonce, record)] := List.mem_concat_self
  exact InboxStore.mem_snapshot.1 (hpre.subset hmem)

/-- A record that is still to come is as it was in the snapshot. -/
theorem Observed.get_next {done : List (Nat × NonceRecord)} {s : InboxStore × List Nat}
    (h : Observed height blockHashes store done s)
    (hpre : done ++ [(nonce, record)] <+: store.snapshot) : s.1.get nonce = some record := by
  have hsorted := InboxStore.sorted_snapshot.sublist hpre.sublist
  have hfresh : nonce ∉ done.map Prod.fst := by
    intro hdone
    obtain ⟨e, he, heq⟩ := List.mem_map.1 hdone
    have hlt := (List.pairwise_append.1 hsorted).2.2 e he (nonce, record) (by simp)
    exact absurd heq hlt.ne
  rw [h.get, if_neg hfresh]
  exact get_of_next hpre

theorem get_eq_none (h : n ∉ store.snapshot.map Prod.fst) : store.get n = none := by
  cases hget : store.get n with
  | none => rfl
  | some record =>
    have hmem : (n, record) ∈ store.snapshot := InboxStore.mem_snapshot.2 hget
    exact absurd (List.mem_map_of_mem hmem) h

theorem Observed.next {done : List (Nat × NonceRecord)} {s : InboxStore × List Nat}
    (h : Observed height blockHashes store done s)
    (hpre : done ++ [(nonce, record)] <+: store.snapshot)
    (hnot : fails faults height blockHashes (nonce, record) = false) :
    ∃ t, observeStep faults height blockHashes s (nonce, record) = (t, .ok ()) ∧
      Observed height blockHashes store (done ++ [(nonce, record)]) t := by
  obtain ⟨store', hstep, hget', hsame⟩ := observeStep_of_not_fails (h.get_next hpre) hnot
  refine ⟨_, hstep, ⟨fun n => ?_, ?_, fun hnone => ?_⟩⟩
  · rw [hget', h.get]
    by_cases heq : n = nonce
    · simp [heq, get_of_next hpre]
    · simp only [heq, if_false, List.map_append, List.map_cons, List.map_nil, List.mem_append,
        List.mem_singleton, or_false]
  · rw [List.filter_append, List.map_append, ← h.marked]
  · rw [hsame (hnone _ (by simp))]
    exact h.same fun e he => hnone e (List.mem_append_left _ he)

/-- The loop fails after it has marked a nonce. -/
def MarksBeforeFailure (faults : StoreFaults) (height : Nat) (blockHashes : List Bytes)
    (records : List (Nat × NonceRecord)) : Prop :=
  (∃ e ∈ records, fails faults height blockHashes e = true) ∧
    ∃ e ∈ records.takeWhile (fun e => !fails faults height blockHashes e),
      marks blockHashes e = true

/-- On success exactly the submitted nonces whose transaction is in the block are included there
and reported, the other records are as they were; on failure the store is. -/
def AllOrNothing (H : HashFn) (faults : StoreFaults) (height : Nat) (rawTxs : List Bytes)
    (store : InboxStore) : Prop :=
  (∀ marked, (observeTransactions H faults height rawTxs store).2 = .ok marked →
    (∀ n, (observeTransactions H faults height rawTxs store).1.get n =
      (store.get n).map (observedRecord height (rawTxs.map H.digest))) ∧
    marked = (store.snapshot.filter (marks (rawTxs.map H.digest))).map Prod.fst) ∧
  ∀ e, (observeTransactions H faults height rawTxs store).2 = .error e →
    (observeTransactions H faults height rawTxs store).1 = store

theorem Observed.changed {done : List (Nat × NonceRecord)} {s : InboxStore × List Nat}
    {e : Nat × NonceRecord} (h : Observed height blockHashes store done s)
    (hpre : done <+: store.snapshot) (he : e ∈ done) (hmarks : marks blockHashes e = true) :
    s.1 ≠ store := by
  intro heq
  have hget := InboxStore.mem_snapshot.1 (hpre.subset he)
  have hkey : e.1 ∈ done.map Prod.fst := List.mem_map_of_mem he
  have hmarked := h.get e.1
  have hcond : (e.2.isSubmitted && inBlock blockHashes e.2) = true := hmarks
  rw [heq, if_pos hkey, hget, Option.map_some, observedRecord, if_pos hcond,
    Option.some.injEq] at hmarked
  rw [hmarked] at hcond
  cases hcond

/-- The loop goes through all the records, or ends at the first that it fails at. -/
theorem observe_loop (faults : StoreFaults) (height : Nat) (blockHashes : List Bytes)
    (store : InboxStore) :
    ((∀ e ∈ store.snapshot, fails faults height blockHashes e = false) ∧
      ∃ s, stoppingLoop (observeStep faults height blockHashes) (store, []) store.snapshot =
        (s, .ok ()) ∧ Observed height blockHashes store store.snapshot s) ∨
    ∃ done e rest s err, store.snapshot = done ++ e :: rest ∧
      (∀ e ∈ done, fails faults height blockHashes e = false) ∧
      fails faults height blockHashes e = true ∧
      stoppingLoop (observeStep faults height blockHashes) (store, []) store.snapshot =
        (s, .error err) ∧ Observed height blockHashes store done s := by
  refine stoppingLoop_rule (I := Observed height blockHashes store)
    (J := fun done _ => Observed height blockHashes store done)
    (.start height blockHashes store) ?_ ?_
  · intro done e s hpre hs hnot
    exact hs.next hpre hnot
  · intro done e s hpre hs hfails
    obtain ⟨err, hstep⟩ := observeStep_of_fails (hs.get_next hpre) hfails
    exact ⟨s, err, hstep, hs⟩

theorem Observed.marks {done : List (Nat × NonceRecord)} {s : InboxStore × List Nat}
    (h : Observed height blockHashes store done s) :
    InboxStore.Marks (fun n => ∃ record, store.get n = some record ∧ inBlock blockHashes record)
      store s.1 := by
  intro n
  rw [h.get]
  split_ifs
  · cases hget : store.get n with
    | none => exact .inl rfl
    | some record =>
      rw [Option.map_some, observedRecord]
      split_ifs with hmarked
      · rw [Bool.and_eq_true] at hmarked
        exact .inr ⟨⟨record, hget, hmarked.2⟩, record, height, rfl, rfl⟩
      · exact .inl rfl
  · exact .inl rfl

/-- Whatever fails, the store after a block is the store before with some nonces marked, of those
whose transactions are in the block. -/
theorem marks_observeTransactions (H : HashFn) (faults : StoreFaults) (height : Nat)
    (rawTxs : List Bytes) (store : InboxStore) :
    InboxStore.Marks
      (fun n => ∃ record, store.get n = some record ∧ inBlock (rawTxs.map H.digest) record) store
      (observeTransactions H faults height rawTxs store).1 := by
  unfold observeTransactions
  cases faults.snapshot with
  | some e => exact .refl _ _
  | none =>
    obtain ⟨-, s, hloop, hs⟩ | ⟨done, e, rest, s, err, -, -, -, hloop, hs⟩ :=
      observe_loop faults height (rawTxs.map H.digest) store
    · simp only [hloop]; exact hs.marks
    · simp only [hloop]; exact hs.marks

/-- **When the marks of a block are all or nothing.** For every store, every block and every way
the file system fails: `observe_transactions` marks exactly what it should when it succeeds, and
it leaves the store alone when it fails exactly when no nonce it marks precedes, in nonce order,
the first record it fails at. -/
theorem allOrNothing_iff (H : HashFn) (faults : StoreFaults) (height : Nat) (rawTxs : List Bytes)
    (store : InboxStore) : AllOrNothing H faults height rawTxs store ↔
      (faults.snapshot = none →
        ¬MarksBeforeFailure faults height (rawTxs.map H.digest) store.snapshot) := by
  unfold AllOrNothing observeTransactions
  cases hsnapshot : faults.snapshot with
  | some e => simp
  | none =>
    obtain ⟨hall, s, hloop, hs⟩ | ⟨done, e, rest, s, err, hsplit, hdone, he, hloop, hs⟩ :=
      observe_loop faults height (rawTxs.map H.digest) store
    · -- no record fails: the loop goes through all of them
      simp only [hloop]
      refine iff_of_true ⟨fun marked hmarked => ?_, fun e he => nomatch he⟩ ?_
      · cases hmarked
        refine ⟨fun n => ?_, hs.marked⟩
        rw [hs.get]
        split_ifs with hmem
        · rfl
        · rw [get_eq_none hmem, Option.map_none]
      · intro _ hpartial
        obtain ⟨⟨e, he, hfails⟩, -⟩ := hpartial
        rw [hall e he] at hfails
        cases hfails
    · have hpre : done <+: store.snapshot := hsplit ▸ List.prefix_append _ _
      have hpartial : MarksBeforeFailure faults height (rawTxs.map H.digest) store.snapshot ↔
          ∃ e ∈ done, marks (rawTxs.map H.digest) e = true := by
        rw [MarksBeforeFailure, hsplit, takeWhile_of_first hdone he]
        exact and_iff_right ⟨e, List.mem_append_right _ List.mem_cons_self, he⟩
      simp only [hloop, hpartial]
      constructor
      · intro h _ hmarked
        obtain ⟨e', he', hmarks⟩ := hmarked
        exact hs.changed hpre he' hmarks (h.2 err rfl)
      · intro h
        refine ⟨fun marked hok => (nomatch hok), fun _ _ => hs.same fun e' he' => ?_⟩
        rw [Bool.eq_false_iff]
        intro hmarks
        exact h trivial ⟨e', he', hmarks⟩

/-- Nonce 0 is submitted with the bytes 1, nonce 1 is included at height 3 with the bytes 2: a
block at height 4 with both marks nonce 0 and then fails. -/
theorem doubly_included_block :
    ¬∀ H faults height rawTxs store, AllOrNothing H faults height rawTxs store := by
  intro hclaim
  let hash (b : UInt8) := Hex.encodePrefixed (paddingHash.digest [b])
  let store : InboxStore := ⟨(∅ : NatMap NonceRecord).insert 0 (.submitted 9 0 2 (hash 1) "01")
    |>.insert 1 (.included 3 (hash 2))⟩
  have hmarked : ((observeTransactions paddingHash noFaults 4 [[1], [2]] store).1.get 0).any
      (·.isIncluded) = true := by decide +kernel
  have hfailed : (observeTransactions paddingHash noFaults 4 [[1], [2]] store).2.isOk = false := by
    decide +kernel
  have hsubmitted : (store.get 0).any (·.isIncluded) = false := by decide +kernel
  obtain ⟨e, he⟩ | ⟨marked, hok⟩ :=
    error_or_ok (observeTransactions paddingHash noFaults 4 [[1], [2]] store).2
  · rw [(hclaim _ _ _ _ store).2 e he, hsubmitted] at hmarked
    cases hmarked
  · rw [hok] at hfailed
    cases hfailed

end InboxTracker

end Podseq.Node
