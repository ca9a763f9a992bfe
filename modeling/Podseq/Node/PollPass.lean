import Podseq.Lib.HexNumber
import Podseq.Lib.StoppingLoop
import Podseq.Node.TrackerPasses

/-! # One pass of the force-inclusion poller

After `sync` the pass asks the execution client for the receipt of every pending transaction and
sends those that are not mined. The first lookup or send that is answered with an error ends the
pass, and whatever is behind it in nonce order waits for the next one, which starts over at the
same place.
-/
namespace Podseq.Node
open Podseq.Lib Podseq.Move

structure RpcError where
  code : Int
  message : String
deriving DecidableEq, Repr

structure RpcEnvelope (α : Type) where
  result : Option α
  error : Option RpcError

inductive PassError
  | tracker (e : TrackerError)
  | transport
  | message (text : String)
deriving DecidableEq, Repr

/-- The result of `eth_getTransactionReceipt`, as far as it is read. -/
inductive ReceiptReply
  | missing
  | null
  | receipt (blockNumber : Option String)
deriving DecidableEq, Repr

/-- What the execution client answers to the two requests about each nonce in one pass. -/
structure ClientReplies where
  receipt : Nat → Except PassError ReceiptReply
  send : Nat → Except PassError (RpcEnvelope String)

/-- A request about a nonce, with the parameter that goes out. -/
inductive ClientRequest
  | getTransactionReceipt (nonce : Nat) (txHash : Bytes)
  | sendRawTransaction (nonce : Nat) (txBytes : Bytes)
deriving DecidableEq, Repr

namespace InboxTracker

/-- The result of a JSON-RPC call. -/
def rpcCall {α : Type} (reply : Except PassError (RpcEnvelope α)) : Except PassError α := do
  let env ← reply
  match env.error with
  | some e => .error (.message s!"L2 rpc error {e.code}: {e.message}")
  | none =>
    match env.result with
    | some result => .ok result
    | none => .error (.message "L2 rpc returned no result")

/-- The height a receipt was mined at. -/
def receiptHeight : ReceiptReply → Except PassError (Option Nat)
  | .missing => .error (.message "receipt response missing result")
  | .null => .ok none
  | .receipt none => .error (.message "receipt missing blockNumber")
  | .receipt (some number) =>
    match Hex.radix16 u64Max (Hex.trimPrefix number.toList) with
    | some height => .ok (some height)
    | none => .error (.message "receipt blockNumber is not hex")

def lookupReceipt (replies : ClientReplies) (nonce : Nat) : Except PassError (Option Nat) :=
  replies.receipt nonce >>= receiptHeight

/-- One iteration of the loop of `poll_pass`, on the store and the requests made so far. -/
def passStep (replies : ClientReplies) : InboxStore × List ClientRequest → TrackedSubmission →
    (InboxStore × List ClientRequest) × Except PassError Unit
  | (store, requests), submission =>
    let requests := requests ++ [.getTransactionReceipt submission.nonce submission.txHash]
    match lookupReceipt replies submission.nonce with
    | .error e => ((store, requests), .error e)
    | .ok (some height) =>
      match observeInclusion submission.nonce height store with
      | .error e => ((store, requests), .error (.tracker e))
      | .ok store => ((store, requests), .ok ())
    | .ok none =>
      let requests := requests ++ [.sendRawTransaction submission.nonce submission.txBytes]
      match rpcCall (replies.send submission.nonce) with
      | .error e => ((store, requests), .error e)
      | .ok _ => ((store, requests), .ok ())

/-- The second half of a pass: every pending submission in turn. -/
def submitPending (replies : ClientReplies) (store : InboxStore)
    (pending : List TrackedSubmission) :
    (InboxStore × List ClientRequest) × Except PassError Unit :=
  stoppingLoop (passStep replies) (store, []) pending

/-- `poll_pass`, with the store and the requests it leaves; `inbox` is what `sync` reads. -/
def pollPass (H : HashFn) (inbox : Except TrackerError Inbox) (deadlineBlocks atHeight : Nat)
    (replies : ClientReplies) (store : InboxStore) :
    (InboxStore × List ClientRequest) × Except PassError Unit :=
  match inbox >>= fun inbox => sync H inbox deadlineBlocks atHeight store with
  | .error e => ((store, []), .error (.tracker e))
  | .ok store =>
    match pendingSubmissions store with
    | .error e => ((store, []), .error (.tracker e))
    | .ok pending => submitPending replies store pending

/-! ## Who is served -/

variable {H : HashFn} {inbox : Except TrackerError Inbox} {deadlineBlocks atHeight nonce : Nat}
  {replies : ClientReplies} {store store' synced : InboxStore} {requests : List ClientRequest}
  {pending : List TrackedSubmission} {submission : TrackedSubmission}

/-- The client answers the lookup or the send for `nonce` with an error. -/
def Refused (replies : ClientReplies) (nonce : Nat) : Prop :=
  (lookupReceipt replies nonce).isOk = false ∨ (rpcCall (replies.send nonce)).isOk = false

/-- Its receipt was checked and, if that says it is not mined, it was sent. -/
def Served (replies : ClientReplies) (requests : List ClientRequest)
    (submission : TrackedSubmission) : Prop :=
  .getTransactionReceipt submission.nonce submission.txHash ∈ requests ∧
    (lookupReceipt replies submission.nonce = .ok none →
      .sendRawTransaction submission.nonce submission.txBytes ∈ requests)

/-- The pass ends at the submission: its lookup fails, or it is not mined and its send fails. -/
def endsPass (replies : ClientReplies) (submission : TrackedSubmission) : Bool :=
  match lookupReceipt replies submission.nonce with
  | .error _ => true
  | .ok (some _) => false
  | .ok none => !(rpcCall (replies.send submission.nonce)).isOk

/-- The requests a pass that gets to the submission makes about it. -/
def requestsFor (replies : ClientReplies) (submission : TrackedSubmission) : List ClientRequest :=
  .getTransactionReceipt submission.nonce submission.txHash ::
    match lookupReceipt replies submission.nonce with
    | .ok none => [.sendRawTransaction submission.nonce submission.txBytes]
    | _ => []

theorem served_requestsFor (h : ∀ r ∈ requestsFor replies submission, r ∈ requests) :
    Served replies requests submission := by
  refine ⟨h _ List.mem_cons_self, fun hunmined => h _ ?_⟩
  rw [requestsFor, hunmined]
  exact List.mem_cons_of_mem _ List.mem_cons_self

/-! ## One iteration -/

theorem observeInclusion_of_submitted {record : NonceRecord}
    (hget : store.get nonce = some record) (hsub : record.isSubmitted) (height : Nat) :
    ∃ store', observeInclusion nonce height store = .ok store' ∧
      ∀ n, n ≠ nonce → store'.get n = store.get n := by
  cases record with
  | included => cases hsub
  | submitted deadlineHeight deadlineMs firstSeenHeight txHash txBytes =>
    obtain ⟨store', hmark⟩ : ∃ store', store.markIncluded nonce height = .ok store' :=
      ⟨_, InboxStore.markIncluded_eq_ok.2 (.inr ⟨_, _, _, _, _, hget, rfl⟩)⟩
    refine ⟨store', ?_, (InboxStore.get_markIncluded hmark).1⟩
    simp only [observeInclusion, hget, storeResult, hmark]

/-- An iteration for a nonce that is still submitted makes its requests, and fails exactly where
the pass is to end. -/
theorem passStep_cases {record : NonceRecord} (hget : store.get submission.nonce = some record)
    (hsub : record.isSubmitted) (requests : List ClientRequest) :
    ∃ store', (∀ n, n ≠ submission.nonce → store'.get n = store.get n) ∧
      (endsPass replies submission = false →
        passStep replies (store, requests) submission =
          ((store', requests ++ requestsFor replies submission), .ok ())) ∧
      (endsPass replies submission = true →
        ∃ e, passStep replies (store, requests) submission =
          ((store', requests ++ requestsFor replies submission), .error e)) := by
  simp only [endsPass, requestsFor, passStep]
  obtain ⟨e, hlookup⟩ | ⟨mined, hlookup⟩ := error_or_ok (lookupReceipt replies submission.nonce)
  · simp only [hlookup]
    exact ⟨store, fun _ _ => rfl, by simp⟩
  · rcases mined with - | height
    · simp only [hlookup]
      refine ⟨store, fun _ _ => rfl, ?_⟩
      obtain ⟨e, hsend⟩ | ⟨hash, hsend⟩ := error_or_ok (rpcCall (replies.send submission.nonce))
      · simp [hsend, Except.isOk, Except.toBool]
      · simp [hsend, Except.isOk, Except.toBool]
    · obtain ⟨store', hok, hother⟩ := observeInclusion_of_submitted hget hsub height
      simp only [hlookup, hok]
      exact ⟨store', hother, by simp⟩

/-! ## The whole loop -/

/-- What the pass has done after some of its submissions. -/
structure Passed (replies : ClientReplies) (store : InboxStore) (done : List TrackedSubmission)
    (s : InboxStore × List ClientRequest) : Prop where
  requests : s.2 = done.flatMap (requestsFor replies)
  get : ∀ n, n ∉ done.map (·.nonce) → s.1.get n = store.get n

theorem Passed.next {done : List TrackedSubmission} {s : InboxStore × List ClientRequest}
    (hpending : pendingSubmissions store = .ok pending) (h : Passed replies store done s)
    (hpre : done ++ [submission] <+: pending) :
    ∃ t, Passed replies store (done ++ [submission]) t ∧
      (endsPass replies submission = false → passStep replies s submission = (t, .ok ())) ∧
      (endsPass replies submission = true →
        ∃ e, passStep replies s submission = (t, .error e)) := by
  have hsorted : ((done ++ [submission]).map (·.nonce)).Pairwise (· < ·) :=
    (sorted_of_pendingSubmissions hpending).sublist (hpre.sublist.map _)
  have hfresh : submission.nonce ∉ done.map (·.nonce) := by
    rw [List.map_append, List.pairwise_append] at hsorted
    intro hmem
    exact (hsorted.2.2 _ hmem _ List.mem_cons_self).ne rfl
  obtain ⟨record, hget, hsub⟩ :=
    submitted_of_pendingSubmissions hpending (hpre.subset List.mem_concat_self)
  rw [← h.get _ hfresh] at hget
  obtain ⟨store', hother, hgo, hstop⟩ := passStep_cases hget hsub s.2
  refine ⟨(store', s.2 ++ requestsFor replies submission), ⟨?_, fun n hn => ?_⟩, hgo, hstop⟩
  · rw [List.flatMap_append, ← h.requests, List.flatMap_singleton]
  · rw [List.map_append, List.mem_append, not_or] at hn
    rw [hother n fun heq => hn.2 (heq ▸ List.mem_cons_self), h.get n hn.1]

/-- The pass gets to every submission, or ends at the first that ends it. -/
theorem submitPending_cases (replies : ClientReplies)
    (hpending : pendingSubmissions store = .ok pending) :
    ((∀ submission ∈ pending, endsPass replies submission = false) ∧
      (submitPending replies store pending).1.2 = pending.flatMap (requestsFor replies)) ∨
    ∃ done submission rest, pending = done ++ submission :: rest ∧
      (∀ s ∈ done, endsPass replies s = false) ∧ endsPass replies submission = true ∧
      (submitPending replies store pending).1.2 =
        (done ++ [submission]).flatMap (requestsFor replies) := by
  have hstart : Passed replies store [] (store, []) := ⟨rfl, fun _ _ => rfl⟩
  have hgo : ∀ done submission s, done ++ [submission] <+: pending →
      Passed replies store done s → endsPass replies submission = false →
      ∃ t, passStep replies s submission = (t, .ok ()) ∧
        Passed replies store (done ++ [submission]) t := by
    intro done submission s hpre hs hgo
    obtain ⟨t, ht, hok, -⟩ := hs.next hpending hpre
    exact ⟨t, hok hgo, ht⟩
  have hstop : ∀ done submission s, done ++ [submission] <+: pending →
      Passed replies store done s → endsPass replies submission = true →
      ∃ t e, passStep replies s submission = (t, .error e) ∧
        Passed replies store (done ++ [submission]) t := by
    intro done submission s hpre hs hends
    obtain ⟨t, ht, -, herror⟩ := hs.next hpending hpre
    obtain ⟨e, he⟩ := herror hends
    exact ⟨t, e, he, ht⟩
  obtain ⟨hall, s, hloop, hs⟩ | ⟨done, submission, rest, s, e, hsplit, hdone, hends, hloop, hs⟩ :=
    stoppingLoop_rule (J := fun done submission => Passed replies store (done ++ [submission]))
      hstart hgo hstop
  · exact .inl ⟨hall, by rw [submitPending, hloop, hs.requests]⟩
  · refine .inr ⟨done, submission, rest, hsplit, hdone, hends, ?_⟩
    rw [submitPending, hloop, hs.requests]

/-- A request about a nonce comes from its own submission. -/
theorem nonce_of_mem_requestsFor {txHash : Bytes}
    (h : .getTransactionReceipt nonce txHash ∈ requestsFor replies submission) :
    submission.nonce = nonce := by
  rw [requestsFor, List.mem_cons] at h
  obtain heq | hmem := h
  · cases heq
    rfl
  · split at hmem
    · simp at hmem
    · cases hmem

/-- Who is served, when the pass ends at `submission`: it and what is before it. -/
theorem served_iff_not_mem {done rest : List TrackedSubmission} {s : TrackedSubmission}
    (hsorted : ((done ++ submission :: rest).map (·.nonce)).Pairwise (· < ·))
    (hs : s ∈ done ++ submission :: rest) :
    Served replies ((done ++ [submission]).flatMap (requestsFor replies)) s ↔ s ∉ rest := by
  constructor
  · intro hserved hrest
    obtain ⟨s', hs', hrequest⟩ := List.mem_flatMap.1 hserved.1
    have hnonce := nonce_of_mem_requestsFor hrequest
    rw [List.append_cons, List.map_append, List.pairwise_append] at hsorted
    exact (hsorted.2.2 _ (List.mem_map_of_mem hs') _ (List.mem_map_of_mem hrest)).ne hnonce
  · intro hrest
    rw [List.append_cons, List.mem_append] at hs
    refine served_requestsFor fun r hr => ?_
    exact List.mem_flatMap.2 ⟨s, hs.resolve_right hrest, hr⟩

/-- **When no forced transaction is blocked by another.** In every pass that gets to its pending
list, whatever the client answers: each pending nonce whose requests are not answered with an
error is served exactly when all those behind the first submission that ends the pass have a
request that is. -/
theorem unblocked_iff (hsync : (inbox >>= fun inbox => sync H inbox deadlineBlocks atHeight store) =
      .ok synced) (hpending : pendingSubmissions synced = .ok pending) :
    (∀ submission ∈ pending, ¬Refused replies submission.nonce →
      Served replies (pollPass H inbox deadlineBlocks atHeight replies store).1.2 submission) ↔
    ∀ submission ∈ (pending.dropWhile fun s => !endsPass replies s).tail,
      Refused replies submission.nonce := by
  simp only [pollPass, hsync, hpending]
  have hsorted := sorted_of_pendingSubmissions hpending
  obtain ⟨hall, hrequests⟩ | ⟨done, last, rest, hsplit, hdone, hlast, hrequests⟩ :=
    submitPending_cases replies hpending
  · have hnone : (pending.dropWhile fun s => !endsPass replies s) = [] :=
      List.dropWhile_eq_nil_iff.2 fun s hs => by simp [hall s hs]
    rw [hnone, hrequests]
    refine iff_of_true (fun s hs _ => ?_) (List.forall_mem_nil _)
    exact served_requestsFor fun r hr => List.mem_flatMap.2 ⟨s, hs, hr⟩
  · rw [hsplit] at hsorted
    rw [hrequests, hsplit, dropWhile_of_first hdone hlast, List.tail_cons]
    constructor
    · intro h s hrest
      have hmem : s ∈ done ++ last :: rest :=
        List.mem_append_right _ (List.mem_cons_of_mem _ hrest)
      by_contra hnot
      exact (served_iff_not_mem hsorted hmem).1 (h s hmem hnot) hrest
    · intro h s hmem hnot
      exact (served_iff_not_mem hsorted hmem).2 fun hrest => hnot (h s hrest)

/-! ## A pool that knows the first transaction -/

def twoSubmissions : Inbox :=
  { Inbox.initializeInbox 0 with
    nextNonce := 2
    pending := fun nonce => if nonce < 2 then some ⟨600000, [7]⟩ else none }

/-- Nothing is mined, and the transaction of nonce 0 is in the pool already. -/
def alreadyKnown : ClientReplies where
  receipt _ := .ok .null
  send nonce :=
    if nonce = 0 then .ok ⟨none, some ⟨-32000, "already known"⟩⟩ else .ok ⟨some "0x", none⟩

/-- The pass over the two ends at nonce 0. -/
theorem unblocked_iff_already_known :
    ∃ synced pending, sync paddingHash twoSubmissions 600 0 .fresh = .ok synced ∧
      pendingSubmissions synced = .ok pending ∧
      ((∀ submission ∈ pending, ¬Refused alreadyKnown submission.nonce →
        Served alreadyKnown
          (pollPass paddingHash (.ok twoSubmissions) 600 0 alreadyKnown .fresh).1.2 submission) ↔
        ∀ submission ∈ (pending.dropWhile fun s => !endsPass alreadyKnown s).tail,
          Refused alreadyKnown submission.nonce) :=
  ⟨_, _, rfl, rfl, unblocked_iff rfl rfl⟩

/-- Nonce 1 is not served in that pass, although its requests would go through. -/
theorem already_known_blocks_next :
    ¬∀ H inbox deadlineBlocks atHeight replies store synced pending,
      (inbox >>= fun inbox => sync H inbox deadlineBlocks atHeight store) = .ok synced →
      pendingSubmissions synced = .ok pending →
      ∀ submission ∈ pending, ¬Refused replies submission.nonce →
        Served replies (pollPass H inbox deadlineBlocks atHeight replies store).1.2 submission := by
  intro hclaim
  have hserved := hclaim paddingHash (.ok twoSubmissions) 600 0 alreadyKnown .fresh _ _ rfl rfl
    ⟨1, [7], paddingHash.digest [7], 600000, 600, 0⟩ (.tail _ (.head _)) (by unfold Refused; decide)
  exact absurd hserved.1 (by decide +kernel)

end InboxTracker

end Podseq.Node
