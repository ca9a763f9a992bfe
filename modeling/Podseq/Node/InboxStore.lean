import Podseq.Lib.NatMap
import Podseq.Lib.Runs

/-! # The inclusion markers of the sequencer

`inbox.json` holds one record per inbox nonce. Every operation loads the map, changes it and
writes it back by an atomic rename, so the store is the map itself; a missing or empty file is
the empty map.
-/
namespace Podseq.Node
open Podseq.Lib

inductive NonceRecord
  /-- In the pool, awaiting a block that contains it. -/
  | submitted (deadlineHeight deadlineMs firstSeenHeight : Nat) (txHash txBytes : String)
  /-- Landed in the block at `height`. -/
  | included (height : Nat) (txHash : String)
deriving DecidableEq, Repr

namespace NonceRecord

def isIncluded : NonceRecord → Bool
  | .included .. => true
  | .submitted .. => false

def isSubmitted : NonceRecord → Bool
  | .submitted .. => true
  | .included .. => false

def txHash : NonceRecord → String
  | .submitted _ _ _ txHash _ => txHash
  | .included _ txHash => txHash

end NonceRecord

inductive StoreError
  | io
  | json
  | conflict (message : String)
deriving DecidableEq, Repr

structure InboxStore where
  nonces : NatMap NonceRecord

namespace InboxStore

def fresh : InboxStore := ⟨∅⟩

/-- Records `nonce` as submitted, before the transaction enters the pool. -/
def recordSubmitted (store : InboxStore) (nonce deadlineHeight deadlineMs firstSeenHeight : Nat)
    (txHash txBytes : String) : Except StoreError InboxStore :=
  match store.nonces[nonce]? with
  | some _ => .error (.conflict s!"inbox nonce {nonce} is already tracked")
  | none => .ok ⟨store.nonces.insert nonce
      (.submitted deadlineHeight deadlineMs firstSeenHeight txHash txBytes)⟩

/-- Marks `nonce` included at `height`: idempotent at the same height, an error at another. -/
def markIncluded (store : InboxStore) (nonce height : Nat) : Except StoreError InboxStore :=
  match store.nonces[nonce]? with
  | none => .error (.conflict s!"inbox nonce {nonce} was never tracked as submitted")
  | some (.included existing _) =>
    if existing = height then .ok store
    else .error (.conflict (s!"inbox nonce {nonce} already included at height {existing}, " ++
      s!"refusing second inclusion at height {height}"))
  | some (.submitted _ _ _ txHash _) =>
    .ok ⟨store.nonces.insert nonce (.included height txHash)⟩

def get (store : InboxStore) (nonce : Nat) : Option NonceRecord := store.nonces[nonce]?

def snapshot (store : InboxStore) : List (Nat × NonceRecord) := store.nonces.toList

def submitted (store : InboxStore) : List (Nat × NonceRecord) :=
  store.nonces.toList.filter fun e => e.2.isSubmitted

def includedCount (store : InboxStore) : Nat := store.nonces.countWhere NonceRecord.isIncluded

def Included (store : InboxStore) (nonce : Nat) : Prop :=
  ∃ height txHash, store.get nonce = some (.included height txHash)

variable {store store' : InboxStore} {nonce height deadlineHeight deadlineMs firstSeen n : Nat}
  {txHash txBytes : String}

theorem recordSubmitted_eq_ok :
    store.recordSubmitted nonce deadlineHeight deadlineMs firstSeen txHash txBytes = .ok store' ↔
      store.get nonce = none ∧ store' = ⟨store.nonces.insert nonce
        (.submitted deadlineHeight deadlineMs firstSeen txHash txBytes)⟩ := by
  unfold recordSubmitted get
  cases store.nonces[nonce]? with
  | some r => simp
  | none => simp [eq_comm]

/-- A mark leaves the store alone or turns a submitted record into an included one. -/
theorem markIncluded_eq_ok :
    store.markIncluded nonce height = .ok store' ↔
      (∃ txHash, store.get nonce = some (.included height txHash) ∧ store' = store) ∨
      ∃ dh dm fs txHash txBytes, store.get nonce = some (.submitted dh dm fs txHash txBytes) ∧
        store' = ⟨store.nonces.insert nonce (.included height txHash)⟩ := by
  unfold markIncluded get
  rcases store.nonces[nonce]? with - | ⟨dh, dm, fs, txHash, txBytes⟩ | ⟨existing, txHash⟩
  · simp
  · simp [eq_comm]
  · by_cases he : existing = height
    · simp [he, eq_comm]
    · simp [he]

theorem mem_snapshot {e : Nat × NonceRecord} : e ∈ store.snapshot ↔ store.get e.1 = some e.2 :=
  Std.TreeMap.mem_toList_iff_getElem?_eq_some

theorem get_insert {record : NonceRecord} :
    (⟨store.nonces.insert nonce record⟩ : InboxStore).get n =
      if n = nonce then some record else store.get n := NatMap.getElem?_insert

/-- What a mark does to the records: the one it is for is included, under the hash it had. -/
theorem get_markIncluded (h : store.markIncluded nonce height = .ok store') :
    (∀ n, n ≠ nonce → store'.get n = store.get n) ∧ ∃ record,
      store.get nonce = some record ∧ store'.get nonce = some (.included height record.txHash) := by
  obtain ⟨txHash, hget, rfl⟩ | ⟨dh, dm, fs, txHash, txBytes, hget, rfl⟩ := markIncluded_eq_ok.1 h
  · exact ⟨fun _ _ => rfl, _, hget, hget⟩
  · refine ⟨fun n hn => ?_, _, hget, ?_⟩
    · rw [get_insert, if_neg hn]
    · rw [get_insert, if_pos rfl]
      rfl

theorem holdsAt_isIncluded_iff :
    store.nonces.holdsAt NonceRecord.isIncluded n ↔ store.Included n := by
  simp only [NatMap.holdsAt, Included, get, Option.any_eq_true]
  constructor
  · rintro ⟨r, hr, hi⟩
    cases r with
    | included height txHash => exact ⟨height, txHash, hr⟩
    | submitted => cases hi
  · rintro ⟨height, txHash, h⟩
    exact ⟨_, h, rfl⟩

end InboxStore

end Podseq.Node
