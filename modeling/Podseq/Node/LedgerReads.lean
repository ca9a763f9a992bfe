import Podseq.Node.DeadlineMonitor
import Podseq.Node.LedgerObjects
import Podseq.Node.SettledBlobs
import Podseq.Node.SyncPass

/-! # What the nodes read of the ledger

An object is read by taking its BCS apart, and an entry of a table is an object of its own, under
an id made of the table's id and the key. Some reads only look at the bytes they need.
-/
namespace Podseq.Node
open Podseq.Lib Podseq.Move LedgerObjects

namespace LedgerReads

/-! ## Objects -/

/-- The types that the ids of dynamic children are made with, beside the key. -/
inductive KeyType
  | u64
  | stateRootKey
deriving DecidableEq

/-- The ids of the shared objects and their tables, and how the id of a child is made. -/
structure ObjectIds where
  registry : FixedBytes 32
  inbox : FixedBytes 32
  commitments : FixedBytes 32
  pending : FixedBytes 32
  /-- `derive_dynamic_child_id`. -/
  childId : FixedBytes 32 → KeyType → Bytes → FixedBytes 32

variable (get : FixedBytes 32 → ObjectReply) (ids : ObjectIds)

def fieldContents (table : FixedBytes 32) (key : Nat) : Except SettlementError (Option Bytes) :=
  match get (ids.childId table .u64 (Bcs.u64.write key)) with
  | .failed msg => .error (.rpc msg)
  | .noObject => .ok none
  | .noContents => .error .noFieldContents
  | .contents bytes => .ok (some bytes)

/-! ## The registry -/

/-- `RegistryBcs`: the id, the latest height, and the id and the size of the table. -/
def registryBcs : Bcs (FixedBytes 32 × Nat × FixedBytes 32 × Nat) :=
  .pair (.fixed 32) (.pair .u64 (.pair (.fixed 32) .u64))

/-- `Field<u64, vector<u8>>`. -/
def bytesFieldBcs : Bcs (FixedBytes 32 × Nat × Bytes) := .pair (.fixed 32) (.pair .u64 .bytes)

def parseLatestHeight (contents : Bytes) : Except SettlementError Nat :=
  if contents.length < 40 then .error (.tooShort "registry" contents.length)
  else .ok (ofLeBytes ((contents.drop 32).take 8))

def parseTableUid (contents : Bytes) : Except SettlementError (FixedBytes 32) :=
  match registryBcs.ofBytes contents with
  | some (_, _, table, _) => .ok table
  | none => .error .parseRegistry

def parseBlobId (bytes : Bytes) : Except SettlementError BlobId :=
  match FixedBytes.ofBytes? 32 bytes with
  | some id => .ok id
  | none => .error (.parseBlobId bytes.length)

def parseFieldBlobId (field : Bytes) : Except SettlementError BlobId :=
  match bytesFieldBcs.ofBytes field with
  | some (_, _, value) => parseBlobId value
  | none => .error .parseField

def latestHeight : Except SettlementError Nat := do
  parseLatestHeight (← objectContents get ids.registry "registry")

def tableUid : Except SettlementError (FixedBytes 32) := do
  parseTableUid (← objectContents get ids.registry "registry")

def commitmentAt (table : FixedBytes 32) (height : Nat) :
    Except SettlementError (Option BlobId) := do
  match ← fieldContents get ids table height with
  | none => return none
  | some field => return some (← parseFieldBlobId field)

/-! ## The inbox -/

/-- `InboxBcs`. -/
def inboxBcs : Bcs (FixedBytes 32 × Nat × Nat × Nat × FixedBytes 32 × Nat) :=
  .pair (.fixed 32) (.pair .u64 (.pair .u64 (.pair .u64 (.pair (.fixed 32) .u64))))

/-- `Field<u64, PendingTx>`. -/
def pendingFieldBcs : Bcs (FixedBytes 32 × Nat × Nat × Bytes) :=
  .pair (.fixed 32) (.pair .u64 (.pair .u64 .bytes))

def parseInboxCursor (contents : Bytes) : Except SettlementError Nat :=
  if contents.length < 48 then .error (.tooShort "inbox" contents.length)
  else .ok (ofLeBytes ((contents.drop 40).take 8))

def inboxCursor : Except SettlementError Nat := do
  parseInboxCursor (← objectContents get ids.inbox "inbox")

/-- `SuiInboxTransport::field_contents`. -/
def transportField (table : FixedBytes 32) (key : Nat) : Except InboxError (Option Bytes) :=
  match fieldContents get ids table key with
  | .ok field => .ok field
  | .error e => .error (.rpc e)

/-- The status, and the id of the table of pending transactions. -/
def parseInboxStatus (contents : Bytes) :
    Except InboxError (DeadlineMonitor.InboxStatus × FixedBytes 32) :=
  match inboxBcs.ofBytes contents with
  | some (_, nextNonce, includedCount, lastSettledTs, table, _) =>
    .ok (⟨nextNonce, includedCount, lastSettledTs⟩, table)
  | none => .error .parseInbox

def parsePendingTx (field : Bytes) : Except InboxError PendingTx :=
  match pendingFieldBcs.ofBytes field with
  | some (_, _, deadlineMs, txBytes) =>
    if txBytes.isEmpty then .error .emptyTx else .ok ⟨deadlineMs, txBytes⟩
  | none => .error .parsePending

def status : Except InboxError (DeadlineMonitor.InboxStatus × FixedBytes 32) := do
  parseInboxStatus (← transportContents get ids.inbox)

def nextNonce : Except InboxError Nat := do
  return (← status get ids).1.nextNonce

def pendingAt (nonce : Nat) : Except InboxError (Option PendingTx) := do
  let (_, table) ← status get ids
  match ← transportField get ids table nonce with
  | none => return none
  | some field => return some (← parsePendingTx field)

/-! ## The state roots -/

def parseStateRootField (field : Bytes) : Except InboxError (FixedBytes 32) :=
  match bytesFieldBcs.ofBytes field with
  | some (_, _, value) =>
    match FixedBytes.ofBytes? 32 value with
    | some root => .ok root
    | none => .error (.rootLength value.length)
  | none => .error .parseRoot

/-- `StateRootReader::at`: only a field that does not exist reads as no root. -/
def stateRootAt (height : Nat) : Except InboxError (Option (FixedBytes 32)) :=
  match transportContents get (ids.childId ids.registry .stateRootKey (Bcs.u64.write height)) with
  | .ok field => (parseStateRootField field).map some
  | .error (.notFound _) => .ok none
  | .error e => .error e

/-! ## The objects as they stand -/

inductive ObjectKey
  | registry
  | inbox
  | commitment (height : Nat)
  | pending (nonce : Nat)
  | stateRoot (height : Nat)
deriving DecidableEq

/-- The number in a key is of 64 bits. -/
def ObjectKey.Fits : ObjectKey → Prop
  | .registry | .inbox => True
  | .commitment n | .pending n | .stateRoot n => n ≤ u64Max

def ObjectIds.object (ids : ObjectIds) : ObjectKey → FixedBytes 32
  | .registry => ids.registry
  | .inbox => ids.inbox
  | .commitment height => ids.childId ids.commitments .u64 (Bcs.u64.write height)
  | .pending nonce => ids.childId ids.pending .u64 (Bcs.u64.write nonce)
  | .stateRoot height => ids.childId ids.registry .stateRootKey (Bcs.u64.write height)

/-- No two objects share an id. -/
def ObjectIds.Distinct (ids : ObjectIds) : Prop :=
  ∀ a b : ObjectKey, a.Fits → b.Fits → ids.object a = ids.object b → a = b

/-- The contents of an object, if there is one. -/
def stored (ids : ObjectIds) (registry : Registry) (inbox : Inbox) (key : ObjectKey) :
    Option Bytes :=
  let id := ids.object key
  match key with
  | .registry => some (registryBcs.write
      (id, registry.latestHeight, ids.commitments, registry.latestHeight))
  | .inbox => some (inboxBcs.write (id, inbox.nextNonce, inbox.includedCount,
      inbox.lastSettledTs, ids.pending, inbox.nextNonce - inbox.includedCount))
  | .commitment height => (registry.commitments height).map fun blob =>
      bytesFieldBcs.write (id, height, blob)
  | .pending nonce => (inbox.pending nonce).map fun tx =>
      pendingFieldBcs.write (id, nonce, tx.deadlineMs, tx.txBytes)
  | .stateRoot height => (registry.stateRoots height).map fun root =>
      bytesFieldBcs.write (id, height, root)

/-- The objects there may be. -/
def objects (registry : Registry) (inbox : Inbox) : List ObjectKey :=
  .registry :: .inbox :: (List.range' 1 registry.latestHeight).map .commitment ++
    (List.range inbox.nextNonce).map .pending ++
    (List.range' 1 registry.latestHeight).map .stateRoot

/-! ## What fits in the objects -/

/-- The numbers are of 64 bits, and a transaction that waits has bytes, no more than BCS counts. -/
structure Counts (registry : Registry) (inbox : Inbox) : Prop where
  latestHeight : registry.latestHeight ≤ u64Max
  nextNonce : inbox.nextNonce ≤ u64Max
  includedCount : inbox.includedCount ≤ inbox.nextNonce
  lastSettledTs : inbox.lastSettledTs ≤ u64Max
  pending : ∀ nonce tx, inbox.pending nonce = some tx → nonce < inbox.nextNonce ∧
    tx.deadlineMs ≤ u64Max ∧ 0 < tx.txBytes.length ∧ tx.txBytes.length ≤ Bcs.maxSequenceLength

/-- The book and the roots are of settled heights, each of 32 bytes. -/
structure Sized (registry : Registry) (inbox : Inbox) : Prop extends Counts registry inbox where
  commitments : ∀ height blob, registry.commitments height = some blob →
    1 ≤ height ∧ height ≤ registry.latestHeight ∧ blob.length = 32
  stateRoots : ∀ height root, registry.stateRoots height = some root →
    1 ≤ height ∧ height ≤ registry.latestHeight ∧ root.length = 32

variable {ids : ObjectIds} {registry : Registry} {inbox : Inbox} {key : ObjectKey} {bytes : Bytes}
  {height nonce : Nat}

theorem lt_of_le_u64Max {n : Nat} (h : n ≤ u64Max) : n < 256 ^ 8 := Nat.lt_succ_of_le h

theorem bytes_fits {xs : Bytes} (h : xs.length ≤ Bcs.maxSequenceLength) : Bcs.bytes.Fits xs :=
  ⟨h, fun _ _ => trivial⟩

/-- An object that there is is one of those there may be. -/
theorem mem_objects (hs : Sized registry inbox) (h : stored ids registry inbox key = some bytes) :
    key ∈ objects registry inbox := by
  cases key with
  | registry => exact List.mem_cons_self
  | inbox => exact List.mem_cons_of_mem _ List.mem_cons_self
  | commitment height =>
    obtain ⟨blob, hblob, -⟩ := Option.map_eq_some_iff.1 h
    obtain ⟨hpos, hle, -⟩ := hs.commitments height blob hblob
    simp only [objects, List.cons_append, List.mem_cons, List.mem_append, List.mem_map,
      List.mem_range'_1]
    exact .inr (.inr (.inl (.inl ⟨height, ⟨hpos, by omega⟩, rfl⟩)))
  | pending nonce =>
    obtain ⟨tx, htx, -⟩ := Option.map_eq_some_iff.1 h
    have hlt := (hs.pending nonce tx htx).1
    simp only [objects, List.cons_append, List.mem_cons, List.mem_append, List.mem_map,
      List.mem_range]
    exact .inr (.inr (.inl (.inr ⟨nonce, hlt, rfl⟩)))
  | stateRoot height =>
    obtain ⟨root, hroot, -⟩ := Option.map_eq_some_iff.1 h
    obtain ⟨hpos, hle, -⟩ := hs.stateRoots height root hroot
    simp only [objects, List.cons_append, List.mem_cons, List.mem_append, List.mem_map,
      List.mem_range'_1]
    exact .inr (.inr (.inr ⟨height, ⟨hpos, by omega⟩, rfl⟩))

theorem fits_of_mem (hs : Sized registry inbox) (h : key ∈ objects registry inbox) : key.Fits := by
  have hlatest := hs.latestHeight
  have hnext := hs.nextNonce
  simp only [objects, List.cons_append, List.mem_cons, List.mem_append, List.mem_map,
    List.mem_range, List.mem_range'_1] at h
  obtain rfl | rfl | (⟨n, hn, rfl⟩ | ⟨n, hn, rfl⟩) | ⟨n, hn, rfl⟩ := h
  · trivial
  · trivial
  · exact (by omega : n ≤ u64Max)
  · exact (by omega : n ≤ u64Max)
  · exact (by omega : n ≤ u64Max)

/-- An object that there is has a key that fits. -/
theorem fits_of_stored (hs : Sized registry inbox)
    (h : stored ids registry inbox key = some bytes) : key.Fits :=
  fits_of_mem hs (mem_objects hs h)

/-! ## What is read -/

/-- The bytes of a registry, whatever its table holds: a read of a few of them and a read of the
whole agree. -/
theorem parseLatestHeight_write {id table : FixedBytes 32} {latest size : Nat}
    (hlatest : latest < 256 ^ 8) :
    parseLatestHeight (registryBcs.write (id, latest, table, size)) = .ok latest := by
  have hwrite : registryBcs.write (id, latest, table, size) =
      id.val ++ (leBytes 8 latest ++ (table.val ++ leBytes 8 size)) := rfl
  rw [parseLatestHeight, hwrite, if_neg (by simp [id.property, table.property]),
    List.drop_left' id.property, List.take_left' length_leBytes, ofLeBytes_leBytes hlatest]

theorem parseInboxCursor_write {id table : FixedBytes 32} {next included last size : Nat}
    (hincluded : included < 256 ^ 8) :
    parseInboxCursor (inboxBcs.write (id, next, included, last, table, size)) = .ok included := by
  have hwrite : inboxBcs.write (id, next, included, last, table, size) =
      (id.val ++ leBytes 8 next) ++
        (leBytes 8 included ++ (leBytes 8 last ++ (table.val ++ leBytes 8 size))) := by
    rw [List.append_assoc]
    rfl
  have hlength : (id.val ++ leBytes 8 next).length = 40 := by simp [id.property]
  rw [parseInboxCursor, hwrite, if_neg (by simp [id.property, table.property]),
    List.drop_left' hlength, List.take_left' length_leBytes, ofLeBytes_leBytes hincluded]

section
variable {get : FixedBytes 32 → ObjectReply}
  (hget : Serves get ids.object (stored ids registry inbox)) (hd : ids.Distinct)
  (hs : Sized registry inbox)
include hget hd hs

/-- Under the id of an object the reply is that object, or that there is none. -/
theorem get_object (hkey : key.Fits) :
    get (ids.object key) = match stored ids registry inbox key with
      | none => .noObject
      | some bytes => .contents bytes :=
  hget.get_eq hd (fits_of_stored hs) key hkey

theorem latestHeight_eq : latestHeight get ids = .ok registry.latestHeight := by
  have hreply := get_object hget hd hs (show ObjectKey.Fits .registry from trivial)
  have hread : objectContents get ids.registry "registry" =
      .ok (registryBcs.write
        (ids.registry, registry.latestHeight, ids.commitments, registry.latestHeight)) := by
    simp only [objectContents, show get ids.registry = _ from hreply]
    rfl
  rw [latestHeight, hread, ok_bind, parseLatestHeight_write (lt_of_le_u64Max hs.latestHeight)]

theorem tableUid_eq : tableUid get ids = .ok ids.commitments := by
  have hreply := get_object hget hd hs (show ObjectKey.Fits .registry from trivial)
  have hlatest := lt_of_le_u64Max hs.latestHeight
  have hread : registryBcs.ofBytes (registryBcs.write
      (ids.registry, registry.latestHeight, ids.commitments, registry.latestHeight)) = _ :=
    registryBcs.ofBytes_write ⟨trivial, hlatest, trivial, hlatest⟩
  simp only [tableUid, objectContents, show get ids.registry = _ from hreply]
  simp only [stored, ObjectIds.object, ok_bind, parseTableUid, hread]

/-- The commitment read for a height is the one there is. -/
theorem commitmentAt_eq (hheight : height ≤ u64Max) :
    ∃ found, commitmentAt get ids ids.commitments height = .ok found ∧
      found.map Subtype.val = registry.commitments height := by
  have hreply := get_object hget hd hs (show ObjectKey.Fits (.commitment height) from hheight)
  simp only [commitmentAt, fieldContents,
    show get (ids.childId ids.commitments .u64 (Bcs.u64.write height)) = _ from hreply]
  cases hblob : registry.commitments height with
  | none =>
    simp only [stored, hblob, Option.map_none]
    exact ⟨none, rfl, rfl⟩
  | some blob =>
    have hlength := (hs.commitments height blob hblob).2.2
    simp only [stored, hblob, Option.map_some, ok_bind, parseFieldBlobId]
    rw [bytesFieldBcs.ofBytes_write ⟨trivial, lt_of_le_u64Max hheight,
      bytes_fits (hlength.le.trans (by decide))⟩]
    refine ⟨some ⟨blob, hlength⟩, ?_, rfl⟩
    simp only [parseBlobId, FixedBytes.ofBytes?, dif_pos hlength]
    rfl

theorem inboxCursor_eq : inboxCursor get ids = .ok inbox.includedCount := by
  have hreply := get_object hget hd hs (show ObjectKey.Fits .inbox from trivial)
  have hincluded := lt_of_le_u64Max (hs.includedCount.trans hs.nextNonce)
  simp only [inboxCursor, objectContents, show get ids.inbox = _ from hreply]
  simp only [stored, ok_bind, parseInboxCursor_write hincluded]

theorem status_eq : status get ids = .ok (DeadlineMonitor.statusOf inbox, ids.pending) := by
  have hreply := get_object hget hd hs (show ObjectKey.Fits .inbox from trivial)
  have hnext := lt_of_le_u64Max hs.nextNonce
  have hincluded := lt_of_le_u64Max (hs.includedCount.trans hs.nextNonce)
  have hsize := lt_of_le_u64Max ((Nat.sub_le _ inbox.includedCount).trans hs.nextNonce)
  have hread : inboxBcs.ofBytes (inboxBcs.write (ids.object .inbox, inbox.nextNonce,
      inbox.includedCount, inbox.lastSettledTs, ids.pending,
      inbox.nextNonce - inbox.includedCount)) = _ :=
    inboxBcs.ofBytes_write
      ⟨trivial, hnext, hincluded, lt_of_le_u64Max hs.lastSettledTs, trivial, hsize⟩
  simp only [status, transportContents, objectContents, show get ids.inbox = _ from hreply]
  simp only [stored, ok_bind, parseInboxStatus, hread]
  rfl

/-- The transaction read for a nonce is the one that waits. -/
theorem pendingAt_eq (hnonce : nonce ≤ u64Max) :
    pendingAt get ids nonce = .ok (inbox.pending nonce) := by
  have hreply := get_object hget hd hs (show ObjectKey.Fits (.pending nonce) from hnonce)
  rw [pendingAt, status_eq hget hd hs, ok_bind]
  simp only [transportField, fieldContents,
    show get (ids.childId ids.pending .u64 (Bcs.u64.write nonce)) = _ from hreply]
  cases htx : inbox.pending nonce with
  | none =>
    simp only [stored, htx, Option.map_none]
    rfl
  | some tx =>
    obtain ⟨-, hdeadline, hpos, hlength⟩ := hs.pending nonce tx htx
    have hempty : tx.txBytes.isEmpty = false := by
      rw [List.isEmpty_eq_false_iff, ← List.length_pos_iff]
      exact hpos
    simp only [stored, htx, Option.map_some, ok_bind, parsePendingTx]
    rw [pendingFieldBcs.ofBytes_write ⟨trivial, lt_of_le_u64Max hnonce,
      lt_of_le_u64Max hdeadline, bytes_fits hlength⟩]
    simp only [hempty]
    rfl

theorem stateRootAt_eq (hheight : height ≤ u64Max) :
    ∃ found, stateRootAt get ids height = .ok found ∧
      found.map Subtype.val = registry.stateRoots height := by
  have hreply := get_object hget hd hs (show ObjectKey.Fits (.stateRoot height) from hheight)
  simp only [stateRootAt, transportContents, objectContents,
    show get (ids.childId ids.registry .stateRootKey (Bcs.u64.write height)) = _ from hreply]
  cases hroot : registry.stateRoots height with
  | none =>
    simp only [stored, hroot, Option.map_none]
    exact ⟨none, rfl, rfl⟩
  | some root =>
    have hlength := (hs.stateRoots height root hroot).2.2
    simp only [stored, hroot, Option.map_some, parseStateRootField]
    rw [bytesFieldBcs.ofBytes_write ⟨trivial, lt_of_le_u64Max hheight,
      bytes_fits (hlength.le.trans (by decide))⟩]
    refine ⟨some ⟨root, hlength⟩, ?_, rfl⟩
    simp only [FixedBytes.ofBytes?, dif_pos hlength]
    rfl

end

/-! ## In every run -/

section
variable {env : SequencerEnv} {w w' : SequencerWorld}

/-- A transaction submitted to the inbox is no longer than BCS counts. -/
def Carried (_ : SequencerWorld) : SequencerWorld.LedgerAction → Prop
  | .node (.submit _ txBytes) => txBytes.length ≤ Bcs.maxSequenceLength
  | _ => True

instance (w : SequencerWorld) (a : SequencerWorld.LedgerAction) : Decidable (Carried w a) :=
  match a with
  | .node (.submit _ txBytes) =>
    inferInstanceAs (Decidable (txBytes.length ≤ Bcs.maxSequenceLength))
  | .node (.boot ..) | .node (.recover _) | .node .crash | .node .shutdown | .node (.produce _)
  | .node (.finalize _) | .node (.track ..) | .node (.receipt ..) | .node (.stageWindowChange ..)
  | .node .cancelWindowChange | .node (.land ..) | .settle .. | .govern _ =>
    inferInstanceAs (Decidable True)

theorem Counts.sameQueue {inbox' : Inbox} (hc : Counts registry inbox)
    (h : Inbox.SameQueue inbox inbox') : Counts registry inbox' := by
  refine ⟨hc.latestHeight, ?_, ?_, ?_, ?_⟩
  · rw [h.nextNonce]
    exact hc.nextNonce
  · rw [h.includedCount, h.nextNonce]
    exact hc.includedCount
  · rw [h.lastSettledTs]
    exact hc.lastSettledTs
  · rw [h.pending, h.nextNonce]
    exact hc.pending

theorem Counts.submit {inbox' : Inbox} {now : Nat} {txBytes : Bytes} (hc : Counts registry inbox)
    (hlength : txBytes.length ≤ Bcs.maxSequenceLength)
    (h : inbox.submit now txBytes = .ok inbox') : Counts registry inbox' := by
  obtain ⟨hpos, hdeadline, -, hnext, rfl⟩ := Inbox.submit_eq_ok.1 h
  refine ⟨hc.latestHeight, hnext, hc.includedCount.trans (Nat.le_succ _), hc.lastSettledTs,
    fun nonce tx htx => ?_⟩
  dsimp only at htx ⊢
  by_cases hnonce : nonce = inbox.nextNonce
  · rw [hnonce, Function.update_self] at htx
    cases htx
    exact ⟨by omega, hdeadline, hpos, hlength⟩
  · rw [Function.update_of_ne hnonce] at htx
    obtain ⟨hlt, hrest⟩ := hc.pending nonce tx htx
    exact ⟨by omega, hrest⟩

theorem Counts.enforceSettle {inbox' : Inbox} {blockTs cursor : Nat} (hc : Counts registry inbox)
    (hts : blockTs ≤ u64Max) (h : inbox.enforceSettle blockTs cursor = .ok inbox') :
    Counts registry inbox' := by
  obtain ⟨-, hcursor, -, -, -, rfl⟩ := Inbox.enforceSettle_eq_ok.1 h
  refine ⟨hc.latestHeight, hc.nextNonce, hcursor, hts, fun nonce tx htx => ?_⟩
  dsimp only at htx
  split at htx
  · cases htx
  · exact hc.pending nonce tx htx

theorem Counts.book {registry' : Registry} (hc : Counts registry inbox)
    (h : registry'.latestHeight ≤ u64Max) : Counts registry' inbox :=
  ⟨h, hc.nextNonce, hc.includedCount, hc.lastSettledTs, hc.pending⟩

theorem Counts.settle {commitStateRoots : Bool} {call : SettleCall} {now : Nat} {sender : Address}
    (hc : Counts w.registry w.inbox) : Counts (w.settle commitStateRoots call now sender).registry
      (w.settle commitStateRoots call now sender).inbox := by
  obtain he | ⟨registry, inbox, hsettles, he⟩ := w.settle_cases commitStateRoots call now sender
  · rw [he]
    exact hc
  rw [he]
  have hlatest : registry.latestHeight ≤ u64Max := by
    rw [hsettles.latestHeight]
    exact hsettles.height.trans (max_le hc.latestHeight (Nat.le_refl _))
  obtain hsame | henforce := hsettles.inbox
  · dsimp only
    rw [hsame]
    exact hc.book hlatest
  · exact (hc.enforceSettle (min_le_right _ _) henforce).book hlatest

theorem Counts.step {a : SequencerWorld.LedgerAction} (hc : Counts w.registry w.inbox)
    (hcarried : Carried w a) (h : SequencerWorld.LedgerStep env w a w') :
    Counts w'.registry w'.inbox := by
  cases h with
  | node hland h =>
    cases h with
    | boot | crash | shutdown | tracked | receipt => exact hc
    | recover hp hr =>
      obtain ⟨-, -, hregistry, hinbox, -⟩ := SequencerWorld.recover_finalizer hr
      exact hregistry ▸ hinbox ▸ hc
    | produce hp hr =>
      obtain ⟨-, -, hregistry, hinbox, -⟩ := hr.frame
      exact hregistry ▸ hinbox ▸ hc
    | finalize hp hr => cases hr <;> exact hc
    | submitted h => exact hc.submit hcarried h
    | windowed h => exact hc.sameQueue h
    | landed => exact absurd rfl (hland _ _)
  | settle => exact hc.settle
  | govern => exact hc.book hc.latestHeight

theorem Counts.fresh : Counts SequencerWorld.fresh.registry SequencerWorld.fresh.inbox :=
  ⟨Nat.zero_le _, Nat.zero_le _, Nat.le_refl _, Nat.zero_le _, fun _ _ h => by cases h⟩

/-- What stands in the book and what is anchored has the size that it is read with. -/
theorem Counts.sized (hc : Counts w.registry w.inbox) (hw : SequencerWorld.Available env w)
    (hblob : ∀ batch, (env.blobId batch).length = 32) : Sized w.registry w.inbox := by
  refine ⟨hc, fun height blob hcommitted => ?_, fun height root hroot => ?_⟩
  · obtain ⟨hpos, hle⟩ := hw.book height blob hcommitted
    obtain ⟨batch, -, hbatch⟩ := hw.committed hpos hle
    rw [hcommitted, Option.some.injEq] at hbatch
    exact ⟨hpos, hle, hbatch ▸ hblob batch⟩
  · obtain ⟨batch, -, hcommitted, block, -, -, rfl⟩ := hw.roots height root hroot
    obtain ⟨hpos, hle⟩ := hw.book height _ hcommitted
    exact ⟨hpos, hle, block.header.stateRoot.property⟩

theorem reachable_sized (hblob : ∀ batch, (env.blobId batch).length = 32)
    (h : Reachable (· = SequencerWorld.fresh)
      (guarded Carried (enabled (SequencerWorld.execOnLedger env))) w) :
    Sized w.registry w.inbox := by
  have hcounts : Counts w.registry w.inbox := by
    refine h.inv (I := fun w => Counts w.registry w.inbox) ?_
      fun w a w' hc hs => hc.step hs.1 (SequencerWorld.ledger_step hs.2)
    intro w hw
    subst hw
    exact .fresh
  exact hcounts.sized (SequencerWorld.reachable_available (h.mono fun _ _ _ hs => hs.2)) hblob

/-- **Reads are exact.** Whatever the sequencer, the owner of the Registry and the users of the
inbox have done, from a full node that serves what stands on the ledger each read finds it: the
latest height, the tables, the cursor, and of each height and each nonce the commitment, the root
and the transaction that waits, or that there is none. -/
theorem reads_exact {get : FixedBytes 32 → ObjectReply}
    (hget : Serves get ids.object (stored ids w.registry w.inbox))
    (hblob : ∀ batch, (env.blobId batch).length = 32) (hd : ids.Distinct)
    (h : Reachable (· = SequencerWorld.fresh)
      (guarded Carried (enabled (SequencerWorld.execOnLedger env))) w) :
    (latestHeight get ids = .ok w.registry.latestHeight ∧ tableUid get ids = .ok ids.commitments ∧
      inboxCursor get ids = .ok w.inbox.includedCount ∧
      status get ids = .ok (DeadlineMonitor.statusOf w.inbox, ids.pending)) ∧
    ∀ n ≤ u64Max, pendingAt get ids n = .ok (w.inbox.pending n) ∧
      (∃ found, commitmentAt get ids ids.commitments n = .ok found ∧
        found.map Subtype.val = w.registry.commitments n) ∧
      ∃ found, stateRootAt get ids n = .ok found ∧
        found.map Subtype.val = w.registry.stateRoots n := by
  have hs := reachable_sized hblob h
  refine ⟨⟨latestHeight_eq hget hd hs, tableUid_eq hget hd hs, inboxCursor_eq hget hd hs,
    status_eq hget hd hs⟩, fun n hn => ⟨pendingAt_eq hget hd hs hn, commitmentAt_eq hget hd hs hn,
    stateRootAt_eq hget hd hs hn⟩⟩

end

/-! ## A run -/

/-- A full node of a ledger with this Registry and this inbox. -/
def fullNode (ids : ObjectIds) (registry : Registry) (inbox : Inbox) :
    FixedBytes 32 → ObjectReply :=
  service ids.object (objects registry inbox) (stored ids registry inbox)

theorem fullNode_serves (hs : Sized registry inbox) :
    Serves (fullNode ids registry inbox) ids.object (stored ids registry inbox) :=
  service_serves fun _ _ => mem_objects hs

def KeyType.tag : KeyType → UInt8
  | .u64 => 0
  | .stateRootKey => 1

/-- The first byte of the parent's id, one for the type, and the key. -/
def plainChildId (parent : FixedBytes 32) (type : KeyType) (key : Bytes) : FixedBytes 32 :=
  ⟨(parent.val.take 1 ++ type.tag :: key ++ List.replicate 32 0).take 32, by
    simp only [List.length_take, List.length_append, List.length_cons, List.length_replicate]
    omega⟩

def plainIds : ObjectIds where
  registry := B256.repeated 5
  inbox := B256.repeated 2
  commitments := B256.repeated 3
  pending := B256.repeated 4
  childId := plainChildId

theorem plainChildId_val (parent : UInt8) (type : KeyType) (n : Nat) :
    (plainChildId (B256.repeated parent) type (Bcs.u64.write n)).val =
      parent :: type.tag :: (leBytes 8 n ++ List.replicate 22 0) := by
  rfl

/-- The first two bytes of an id, by the kind of the object. -/
def ObjectKey.front : ObjectKey → UInt8 × UInt8
  | .registry => (5, 5)
  | .inbox => (2, 2)
  | .commitment _ => (3, 0)
  | .pending _ => (4, 0)
  | .stateRoot _ => (5, 1)

theorem plainIds_front (key : ObjectKey) : (plainIds.object key).val.take 2 =
    [key.front.1, key.front.2] := by
  cases key <;> rfl

/-- The ids tell the kinds apart by their first bytes, and the keys by the next. -/
theorem plainIds_distinct : plainIds.Distinct := by
  intro a b ha hb h
  have hfront : [a.front.1, a.front.2] = [b.front.1, b.front.2] := by
    rw [← plainIds_front, ← plainIds_front, h]
  have hkey : ∀ n m parent type, n ≤ u64Max → m ≤ u64Max →
      plainChildId (B256.repeated parent) type (Bcs.u64.write n) =
        plainChildId (B256.repeated parent) type (Bcs.u64.write m) → n = m := by
    intro n m parent type hn hm heq
    have hval := congrArg Subtype.val heq
    rw [plainChildId_val, plainChildId_val, List.cons.injEq, List.cons.injEq] at hval
    have hbytes := List.append_cancel_right hval.2.2
    exact leBytes_injective (lt_of_le_u64Max hn) (lt_of_le_u64Max hm) hbytes
  cases a <;> cases b <;> first
    | rfl
    | exact congrArg _ (hkey _ _ _ _ ha hb h)
    | simp [ObjectKey.front] at hfront

def zeroBlobId (_ : List Block) : Bytes := List.replicate 32 0

/-- The settle call of block 1, which covers the transaction in it. -/
def coveringCall : SettleCall := ⟨SequencerWorld.block1, List.replicate 32 0, 0⟩

def settleBehindTwo : List SequencerWorld.LedgerAction :=
  .govern SequencerWorld.entombedUid :: SequencerWorld.nodeActs ([.submit 5000 [7],
    .submit 6000 [8], .boot (.repeated 0) 0 true] ++ SequencerWorld.wholePass payload1 ++
    SequencerWorld.publishAndCall) ++ [.settle true coveringCall 0 7]

def settledBehindTwo : SequencerWorld :=
  (execAll (SequencerWorld.execOnLedger (smallEnv zeroBlobId)) SequencerWorld.fresh
    settleBehindTwo).getD SequencerWorld.fresh

set_option maxRecDepth 4000 in
theorem reads_exact_settled :
    let get := fullNode plainIds settledBehindTwo.registry settledBehindTwo.inbox
    latestHeight get plainIds = .ok 1 ∧
      pendingAt get plainIds 1 = .ok (some ⟨606000, [8]⟩) ∧
      pendingAt get plainIds 2 = .ok none := by
  have hrun : Run (guarded Carried (enabled (SequencerWorld.execOnLedger (smallEnv zeroBlobId))))
      SequencerWorld.fresh settleBehindTwo settledBehindTwo := run_of_execDecide rfl
  have hreach : Reachable (· = SequencerWorld.fresh) (guarded Carried
      (enabled (SequencerWorld.execOnLedger (smallEnv zeroBlobId)))) settledBehindTwo :=
    ⟨_, _, rfl, hrun⟩
  have hserves := @fullNode_serves plainIds _ _ (reachable_sized (fun _ => rfl) hreach)
  obtain ⟨⟨hlatest, -⟩, hall⟩ := reads_exact hserves (fun _ => rfl) plainIds_distinct hreach
  exact ⟨hlatest, (hall 1 (by decide)).1, (hall 2 (by decide)).1⟩

end LedgerReads

end Podseq.Node
