import Podseq.Move.PeerBook
import Podseq.Node.LedgerObjects

/-! # The peer book as a node reads it

The book is stored as a field with the empty struct `PeerKey` as its name. An empty struct is
written as one byte; the reader asks for the field, and reads it, as if that byte were not there.
-/
namespace Podseq.Node
open Podseq.Lib Podseq.Move LedgerObjects

structure PublishedPeer where
  pubkey : FixedBytes 32
  addr : String
deriving DecidableEq

structure PeerBookSnapshot where
  version : Nat
  peers : List PublishedPeer
deriving DecidableEq

namespace PeerBookReader

/-! ## The field on the ledger -/

/-- A struct without fields is compiled to one with a boolean field that is false. -/
def emptyStructBcs : Bytes := [0]

/-- The version of a book and its entries. -/
def bookBcs : Bcs (Nat × List (Bytes × String)) := .pair .u64 (.seq (.pair .bytes .string))

/-- `Field<PeerKey, PeerBook>` with the encoding `name` of its name. -/
def fieldBytes (id : FixedBytes 32) (name : Bytes) (book : PeerBook) : Bytes :=
  (Bcs.fixed 32).write id ++ (name ++ bookBcs.write (book.version, book.peers))

/-- The contents of the field with this name, if there is one. -/
def stored (childId : Bytes → FixedBytes 32) (s : PeerLedger) (name : Bytes) : Option Bytes :=
  if name = emptyStructBcs then s.peers.book.map (fieldBytes (childId name) name) else none

/-! ## The reader -/

def peerKeyBcs : Bytes := []

/-- `FieldBcs`: the id of the field and its value. -/
def fieldBcs : Bcs (FixedBytes 32 × Nat × List (Bytes × String)) := .pair (.fixed 32) bookBcs

def publishedPeer (entry : Bytes × String) : Except InboxError PublishedPeer :=
  match FixedBytes.ofBytes? 32 entry.1 with
  | some pubkey => .ok ⟨pubkey, entry.2⟩
  | none => .error (.parseIdentity entry.1.length)

def parsePeerBook (field : Bytes) : Except InboxError PeerBookSnapshot :=
  match fieldBcs.ofBytes field with
  | none => .error .parseBook
  | some (_, version, entries) => do
    let peers ← entries.mapM publishedPeer
    return ⟨version, peers⟩

/-- Reads the book over `transport`; one that was not found is empty. -/
def snapshot (childId : Bytes → FixedBytes 32)
    (transport : FixedBytes 32 → Except InboxError Bytes) : Except InboxError PeerBookSnapshot :=
  match transport (childId peerKeyBcs) with
  | .error (.notFound _) => .ok ⟨0, []⟩
  | .error e => .error e
  | .ok bytes => parsePeerBook bytes

/-- The snapshot is the book as it stands on the ledger. -/
def Mirrors (snapshot : PeerBookSnapshot) (s : PeerLedger) : Prop :=
  snapshot.version = s.version ∧ snapshot.peers.map (fun p => (p.pubkey.val, p.addr)) = s.list

/-- A node that reads the book from this full node finds what stands on the ledger. -/
def Mirrored (childId : Bytes → FixedBytes 32) (get : FixedBytes 32 → ObjectReply)
    (s : PeerLedger) : Prop :=
  ∃ found, snapshot childId (transportContents get) = .ok found ∧ Mirrors found s

/-! ## Parsing -/

variable {id : FixedBytes 32} {name field : Bytes} {book : PeerBook} {found : PeerBookSnapshot}
  {childId : Bytes → FixedBytes 32} {get : FixedBytes 32 → ObjectReply} {s : PeerLedger}
  {peers : List (Bytes × String)}

theorem mapM_publishedPeer (h : ∀ p ∈ peers, p.1.length = 32) :
    ∃ published, peers.mapM publishedPeer = .ok published ∧
      published.map (fun p => (p.pubkey.val, p.addr)) = peers := by
  have hone : ∀ entry ∈ peers, ∃ p, publishedPeer entry = .ok p ∧
      (p.pubkey.val, p.addr) = entry := by
    intro entry hentry
    have hlen := h entry hentry
    refine ⟨⟨⟨entry.1, hlen⟩, entry.2⟩, ?_, rfl⟩
    rw [publishedPeer, FixedBytes.ofBytes?, dif_pos hlen]
  obtain ⟨published, hok, hall⟩ :=
    mapM_eq_ok (R := fun entry (p : PublishedPeer) => (p.pubkey.val, p.addr) = entry) hone
  have hmap := map_eq_map_of_forall₂ (fun _ _ h => h.symm) hall
  exact ⟨published, hok, hmap.symm.trans (List.map_id' peers)⟩

theorem length_utf8 {x : String} : (Bcs.utf8 x).length = x.utf8ByteSize := by
  rw [Bcs.utf8, Array.length_toList]
  rfl

/-- A book that a Registry can hold has an encoding. -/
theorem bookBcs_fits (hfit : RegistryPeers.PeersFit book.peers)
    (hversion : book.version ≤ u64Max) :
    bookBcs.Fits (book.version, book.peers) := by
  refine ⟨Nat.lt_succ_of_le hversion, hfit.size.trans (by decide), fun p hp => ?_⟩
  refine ⟨⟨?_, fun _ _ => trivial⟩, ⟨?_, fun _ _ => trivial⟩⟩
  · exact (hfit.lengths p hp).le.trans (by decide)
  · exact length_utf8.le.trans ((hfit.addrs p hp).trans (by decide))

/-- Were the name of the field no bytes, the reader would find the book. -/
theorem parse_unnamed (hfit : RegistryPeers.PeersFit book.peers)
    (hversion : book.version ≤ u64Max) :
    ∃ found, parsePeerBook (fieldBytes id [] book) = .ok found ∧ found.version = book.version ∧
      found.peers.map (fun p => (p.pubkey.val, p.addr)) = book.peers := by
  have hread : fieldBcs.ofBytes (fieldBytes id [] book) = some (id, book.version, book.peers) :=
    fieldBcs.ofBytes_write (a := (id, book.version, book.peers))
      ⟨trivial, bookBcs_fits hfit hversion⟩
  obtain ⟨published, hmap, hpeers⟩ := mapM_publishedPeer hfit.lengths
  refine ⟨⟨book.version, published⟩, ?_, rfl, hpeers⟩
  simp only [parsePeerBook, hread, hmap]
  rfl

theorem parse_ok (h : parsePeerBook field = .ok found) :
    ∃ i peers, fieldBcs.read field = some ((i, found.version, peers), []) := by
  rw [parsePeerBook] at h
  split at h
  · cases h
  · rename_i i version entries hread
    simp only [bind_eq_ok, pure_eq_ok] at h
    obtain ⟨published, -, rfl⟩ := h
    exact ⟨i, entries, Bcs.read_of_ofBytes hread⟩

/-- The byte of the name pushes the last byte of the version out of its place. -/
theorem parse_named (h : parsePeerBook (fieldBytes id emptyStructBcs book) = .ok found) :
    found.version = 256 * (book.version % 256 ^ 7) := by
  obtain ⟨i, peers, hread⟩ := parse_ok h
  obtain ⟨mid, hid, hbook⟩ := Bcs.pair_read hread
  rw [fieldBytes, (Bcs.fixed 32).read_write id _ trivial, Option.some.injEq, Prod.mk.injEq] at hid
  obtain ⟨-, rfl⟩ := hid
  obtain ⟨rest, hversion, -⟩ := Bcs.pair_read hbook
  have hwrite : emptyStructBcs ++ bookBcs.write (book.version, book.peers) =
      (0 :: leBytes 7 book.version) ++ ((book.version / 256 ^ 7).toUInt8 ::
        (Bcs.seq (.pair .bytes .string)).write book.peers) := by
    show [0] ++ (leBytes (7 + 1) book.version ++ _) = _
    rw [leBytes_concat]
    simp
  have hlength : (0 :: leBytes 7 book.version).length = 8 := by
    rw [List.length_cons, length_leBytes]
  rw [hwrite, Bcs.u64_read hlength, Option.some.injEq, Prod.mk.injEq] at hversion
  have hzero : ofLeBytes (0 :: leBytes 7 book.version) = 256 * (book.version % 256 ^ 7) := by
    rw [ofLeBytes, ofLeBytes_leBytes_mod]
    exact Nat.zero_add _
  exact hversion.1.symm.trans hzero

/-! ## What a snapshot says -/

theorem stored_name (h : stored childId s name = some field) : name = emptyStructBcs := by
  rw [stored, Option.ite_none_right_eq_some] at h
  exact h.1

theorem stored_named : stored childId s emptyStructBcs =
    s.peers.book.map (fieldBytes (childId emptyStructBcs) emptyStructBcs) := if_pos rfl

/-- An id of no object reads as an empty book. -/
theorem snapshot_absent (hget : Serves get childId (stored childId s))
    (h : s.peers.book = none ∨ childId peerKeyBcs ≠ childId emptyStructBcs) :
    snapshot childId (transportContents get) = .ok ⟨0, []⟩ := by
  have hnone : get (childId peerKeyBcs) = .noObject := by
    refine hget.absent peerKeyBcs fun name hid => ?_
    by_cases hname : name = emptyStructBcs
    · subst hname
      rw [stored_named, h.resolve_right (not_not.2 hid.symm)]
      rfl
    · exact if_neg hname
  rw [snapshot, transportContents_absent hnone]

/-- No book that was published is found. -/
theorem not_mirrored (hs : PeerLedger.Versioned s) (hget : Serves get childId (stored childId s))
    (hbook : s.peers.book = some book) : ¬Mirrored childId get s := by
  intro hmirrored
  obtain ⟨found, hfound, hversion, -⟩ := hmirrored
  have hstands : s.version = book.version := by
    rw [PeerLedger.version, Settlement.peerBookVersion, Settlement.peerBookMut, hbook]
    rfl
  obtain ⟨hpos, hmax⟩ := hs.version book hbook
  rw [hstands] at hversion
  by_cases hid : childId peerKeyBcs = childId emptyStructBcs
  · have hstored : stored childId s emptyStructBcs =
        some (fieldBytes (childId emptyStructBcs) emptyStructBcs book) := by
      rw [stored_named, hbook]
      rfl
    have hcontents := transportContents_found (hget.found _ _ hstored fun name hne _ => by
      obtain ⟨field, hfield⟩ := Option.ne_none_iff_exists'.1 hne
      exact stored_name hfield)
    rw [snapshot, hid, hcontents] at hfound
    have hshift := parse_named hfound
    rw [u64Max] at hmax
    omega
  · rw [snapshot_absent hget (.inr hid)] at hfound
    cases hfound
    exact absurd (hpos.trans_eq hversion.symm) (by decide)

theorem mirrored_iff (hs : PeerLedger.Versioned s) (hget : Serves get childId (stored childId s)) :
    Mirrored childId get s ↔ s.peers.book = none := by
  refine ⟨fun h => ?_, fun h => ⟨⟨0, []⟩, snapshot_absent hget (.inl h), ?_, ?_⟩⟩
  · by_contra hne
    obtain ⟨book, hbook⟩ := Option.ne_none_iff_exists'.1 hne
    exact not_mirrored hs hget hbook h
  · rw [PeerLedger.version, Settlement.peerBookVersion, Settlement.peerBookMut, h]
    rfl
  · rw [PeerLedger.list, Settlement.publishedPeers, Settlement.peerBookMut, h]
    rfl

/-- In the life of one Registry a version stands for one list, a call that returns makes the next
version and one that aborts changes nothing, and the list keeps its bounds; a node that asks a full
node of the ledger finds the book exactly when none was published yet. -/
theorem mirrored_iff_unpublished (h : Reachable PeerLedger.Start (enabled PeerLedger.step) s) :
    (∀ as t, Run (enabled PeerLedger.step) s as t → s.version = t.version → s.list = t.list) ∧
    (∀ sender c peers, s.peers.call s.now sender c = .ok peers →
      (s.transact (.call sender c)).version = s.version + 1) ∧
    (∀ sender c e, s.peers.call s.now sender c = .error e → s.transact (.call sender c) = s) ∧
    RegistryPeers.PeersFit s.list ∧
    ∀ childId get, Serves get childId (stored childId s) →
      (Mirrored childId get s ↔ s.peers.book = none) := by
  have hs := PeerLedger.reachable_versioned h
  refine ⟨fun as t hrun hsame => ?_, fun sender c peers hcall => ?_, fun sender c e hcall => ?_,
    hs.fit, fun _ _ => mirrored_iff hs⟩
  · rcases PeerLedger.run_versions hrun with hlt | ⟨-, hlist⟩
    · exact absurd hsame hlt.ne
    · exact hlist
  · exact PeerLedger.version_of_call hcall
  · rw [PeerLedger.transact, hcall]

/-! ## A full node -/

/-- A full node that has the field of the book. -/
def bookNode (childId : Bytes → FixedBytes 32) (s : PeerLedger) : FixedBytes 32 → ObjectReply :=
  service childId [emptyStructBcs] (stored childId s)

theorem bookNode_serves : Serves (bookNode childId s) childId (stored childId s) :=
  service_serves fun _ _ h => List.mem_singleton.2 (stored_name h)

def fresh : PeerLedger where
  now := 0
  peers :=
    { registry :=
        { uid := { Rotation.Guarded.new 1 with record := some ⟨7, none, none⟩ }
          latestHeight := 0
          commitments := Table.empty
          stateRoots := Table.empty }
      book := none }

def firstPeer : PeerLedger.Action :=
  .call 7 (.publishPeer (List.replicate 32 1) "seq:7000")

def changes : List PeerLedger.Action :=
  [firstPeer, .call 7 (.publishPeer (List.replicate 32 2) "seq:7001"),
    .call 7 (.removePeer (List.replicate 32 1))]

/-- The second removal of a peer aborts, the next publish makes version 4; the book of version 3 is
found by no node, wherever its field lies. -/
theorem mirrored_iff_unpublished_changes : ∃ s : PeerLedger,
    Run (enabled PeerLedger.step) fresh changes s ∧ s.version = 3 ∧
    s.list = [(List.replicate 32 2, "seq:7001")] ∧
    s.transact (.call 7 (.removePeer (List.replicate 32 1))) = s ∧
    (s.transact (.call 7 (.publishPeer (List.replicate 32 3) "seq:7002"))).version = 4 ∧
    RegistryPeers.PeersFit s.list ∧ ∀ childId, ¬Mirrored childId (bookNode childId s) s := by
  obtain ⟨s, hrun, hversion, hlist, hbook, hremove, hpublish⟩ : ∃ s : PeerLedger,
      Run (enabled PeerLedger.step) fresh changes s ∧ s.version = 3 ∧
      s.list = [(List.replicate 32 2, "seq:7001")] ∧ s.peers.book ≠ none ∧
      (∃ e, s.peers.call s.now 7 (.removePeer (List.replicate 32 1)) = .error e) ∧
      ∃ peers, s.peers.call s.now 7 (.publishPeer (List.replicate 32 3) "seq:7002") =
        .ok peers :=
    ⟨_, run_of_execAll rfl, by decide +kernel, by decide +kernel, by decide +kernel, ⟨_, rfl⟩,
      ⟨_, rfl⟩⟩
  obtain ⟨e, hremove⟩ := hremove
  obtain ⟨peers, hpublish⟩ := hpublish
  have hreach : Reachable PeerLedger.Start (enabled PeerLedger.step) s := ⟨fresh, _, rfl, hrun⟩
  obtain ⟨-, hnext, haborted, hfit, hmirrors⟩ := mirrored_iff_unpublished hreach
  refine ⟨s, hrun, hversion, hlist, haborted _ _ _ hremove, ?_, hfit, fun childId hmirrored => ?_⟩
  · rw [hnext _ _ _ hpublish, hversion]
  · exact hbook ((hmirrors childId _ bookNode_serves).1 hmirrored)

/-- After the first publish no node finds the book, wherever its field lies. -/
theorem published_book_not_found : ∃ s : PeerLedger,
    Reachable PeerLedger.Start (enabled PeerLedger.step) s ∧ s.version = 1 ∧
    s.list = [(List.replicate 32 1, "seq:7000")] ∧
    ∀ childId, ¬Mirrored childId (bookNode childId s) s := by
  have hrun : Run (enabled PeerLedger.step) fresh [firstPeer] _ := run_of_execAll rfl
  have hreach : Reachable PeerLedger.Start (enabled PeerLedger.step) _ := ⟨fresh, _, rfl, hrun⟩
  exact ⟨_, hreach, by decide +kernel, by decide +kernel, fun childId =>
    not_mirrored (PeerLedger.reachable_versioned hreach) bookNode_serves (by rfl)⟩

end PeerBookReader

end Podseq.Node
