import Podseq.Lib.SortedSet
import Podseq.Node.PeerBookReader

/-! # Committee admission

A full node polls the peer book and passes every version other than the one it applied last to its
p2p handle. The handle registers the peers with the network under that version, or skips the whole
update when a key does not decode. Replicas lag, so a poll may be served the book as it stood at
any earlier time.
-/
namespace Podseq.Node
open Podseq.Lib Podseq.Move

/-- An ed25519 public key: 32 bytes that encode a point. -/
abbrev Pk (isPoint : FixedBytes 32 → Bool) := { key : FixedBytes 32 // isPoint key }

variable {isPoint : FixedBytes 32 → Bool}

def loadPubkey (isPoint : FixedBytes 32 → Bool) (bytes : FixedBytes 32) :
    Except String (Pk isPoint) :=
  if h : isPoint bytes then .ok ⟨bytes, h⟩ else .error "decoding 32-byte ed25519 public key"

/-- Sorted, without duplicates, and cut to the bound of the tracker. -/
def admissionSet (peers : List (FixedBytes 32)) (maxPeers : Nat) : List (FixedBytes 32) :=
  (dedupAdjacent (sorted peers)).take maxPeers

/-- The handle, with the sets the network was given under their index. -/
structure AdmissionHandle (isPoint : FixedBytes 32 → Bool) where
  tracked : List (Nat × Finset (Pk isPoint))
  maxPeers : Nat
  epoch : Nat

/-- `AdmissionHandle::admit`; a key that does not decode skips the update with a warning. -/
def AdmissionHandle.admitPeers (handle : AdmissionHandle isPoint) (epoch : Nat)
    (peers : List (FixedBytes 32)) : AdmissionHandle isPoint :=
  match (admissionSet peers handle.maxPeers).mapM (loadPubkey isPoint) with
  | .error _ => handle
  | .ok tracked => { handle with tracked := handle.tracked ++ [(epoch, tracked.toFinset)], epoch }

/-- The poll task with its handle, and the versions it passed to the handle so far. -/
structure AdmissionPoll (isPoint : FixedBytes 32 → Bool) where
  handle : AdmissionHandle isPoint
  applied : Option Nat
  passed : List Nat

/-- One poll, on what the reader returned. -/
def pollAdmission (s : AdmissionPoll isPoint) (read : Except InboxError PeerBookSnapshot) :
    Except InboxError Nat × AdmissionPoll isPoint :=
  match read with
  | .error e => (.error e, s)
  | .ok snapshot =>
    if s.applied ≠ some snapshot.version then
      (.ok snapshot.version,
        { handle := s.handle.admitPeers snapshot.version (snapshot.peers.map (·.pubkey))
          applied := some snapshot.version
          passed := s.passed ++ [snapshot.version] })
    else (.ok snapshot.version, s)

/-- The task as `spawn_admission_poll` starts it: in registry mode the network has no set yet. -/
def AdmissionPoll.spawn (isPoint : FixedBytes 32 → Bool) (maxPeers : Nat) :
    AdmissionPoll isPoint :=
  ⟨⟨[], maxPeers, 0⟩, none, []⟩

/-! ## What one update does -/

section Update

variable {peers : List (FixedBytes 32)} {max epoch : Nat} {handle : AdmissionHandle isPoint}
  {keys : List (FixedBytes 32)} {pks : List (Pk isPoint)}

theorem loadPubkey_eq_ok {key : FixedBytes 32} {pk : Pk isPoint} :
    loadPubkey isPoint key = .ok pk ↔ pk.val = key := by
  rw [loadPubkey]
  split
  · rw [Except.ok.injEq, Subtype.ext_iff, eq_comm]
  · rename_i hkey
    constructor
    · intro h
      cases h
    · intro h
      exact absurd (h ▸ pk.property) hkey

theorem map_val_of_mapM (h : keys.mapM (loadPubkey isPoint) = .ok pks) :
    pks.map Subtype.val = keys := by
  have hall := forall₂_of_mapM_eq_ok h
  have hmap := map_eq_map_of_forall₂ (f := id) (g := Subtype.val)
    (fun _ _ hone => (loadPubkey_eq_ok.1 hone).symm) hall
  rw [← hmap, List.map_id]

theorem mapM_loadPubkey (h : ∀ key ∈ keys, isPoint key) :
    ∃ pks, keys.mapM (loadPubkey isPoint) = .ok pks ∧ pks.map Subtype.val = keys := by
  obtain ⟨pks, hok, -⟩ := mapM_eq_ok (R := fun _ (_ : Pk isPoint) => True)
    fun key hkey => ⟨⟨key, h key hkey⟩, loadPubkey_eq_ok.2 rfl, trivial⟩
  exact ⟨pks, hok, map_val_of_mapM hok⟩

/-- All of the keys, or as many distinct ones as the bound lets in. -/
def UpTo (max : Nat) (keys : List Bytes) (set : Finset (Pk isPoint)) : Prop :=
  set.image (·.val.val) ⊆ keys.toFinset ∧ set.card = min max keys.toFinset.card

theorem upTo_of_map (h : pks.map Subtype.val = admissionSet peers max) :
    UpTo max (peers.map Subtype.val) pks.toFinset := by
  have himage : pks.toFinset.image Subtype.val = (admissionSet peers max).toFinset := by
    ext key
    simp [← h]
  have hkeys : (peers.map Subtype.val).toFinset = peers.toFinset.image Subtype.val := by
    ext key
    simp
  constructor
  · show pks.toFinset.image (Subtype.val ∘ Subtype.val) ⊆ _
    rw [← Finset.image_image, himage, hkeys]
    exact Finset.image_subset_image toFinset_take_subset
  · rw [hkeys, Finset.card_image_of_injective _ Subtype.val_injective,
      ← Finset.card_image_of_injective _ Subtype.val_injective, himage]
    exact card_toFinset_take

/-- Every key that the handle looks at decodes. -/
def Decodable (isPoint : FixedBytes 32 → Bool) (max : Nat) (peers : List (FixedBytes 32)) : Prop :=
  ∀ key ∈ admissionSet peers max, isPoint key

instance : Decidable (Decodable isPoint max peers) :=
  inferInstanceAs (Decidable (∀ key ∈ admissionSet peers max, isPoint key))

theorem admitPeers_registers (h : Decodable isPoint handle.maxPeers peers) :
    ∃ set, UpTo handle.maxPeers (peers.map Subtype.val) set ∧ handle.admitPeers epoch peers =
      { handle with tracked := handle.tracked ++ [(epoch, set)], epoch } := by
  obtain ⟨pks, hok, hmap⟩ := mapM_loadPubkey h
  exact ⟨pks.toFinset, upTo_of_map hmap, by rw [AdmissionHandle.admitPeers, hok]⟩

theorem admitPeers_skips (h : ¬Decodable isPoint handle.maxPeers peers) :
    handle.admitPeers epoch peers = handle := by
  rw [AdmissionHandle.admitPeers]
  split
  · rfl
  · rename_i pks hok
    refine absurd (fun key hkey => ?_) h
    rw [← map_val_of_mapM hok] at hkey
    obtain ⟨pk, -, rfl⟩ := List.mem_map.1 hkey
    exact pk.property

end Update

/-! ## Over the life of a Registry -/

/-- The ledger with all its states so far, any of which a replica may still serve, and the task
of one full node. -/
structure AdmissionWorld (isPoint : FixedBytes 32 → Bool) where
  ledger : PeerLedger
  past : List PeerLedger
  task : AdmissionPoll isPoint

namespace AdmissionWorld

/-- Something happens to the ledger, the task polls and the reader returns `read`, or the node is
started again. -/
inductive Action
  | ledger (a : PeerLedger.Action)
  | poll (read : Except InboxError PeerBookSnapshot)
  | restart (maxPeers : Nat)

/-- What is read, if anything, is the book as it stood at some time. -/
def Served (w : AdmissionWorld isPoint) (read : Except InboxError PeerBookSnapshot) : Prop :=
  ∀ snapshot, read = .ok snapshot → ∃ s ∈ w.past, PeerBookReader.Mirrors snapshot s

inductive Step : AdmissionWorld isPoint → Action → AdmissionWorld isPoint → Prop
  | ledger {w a} :
    Step w (.ledger a)
      { w with ledger := w.ledger.transact a, past := w.past ++ [w.ledger.transact a] }
  | poll {w read} (served : w.Served read) :
    Step w (.poll read) { w with task := (pollAdmission w.task read).2 }
  | restart {w maxPeers} :
    Step w (.restart maxPeers) { w with task := .spawn isPoint maxPeers }

def Start (w : AdmissionWorld isPoint) : Prop :=
  PeerLedger.Start w.ledger ∧ w.past = [w.ledger] ∧ ∃ max, w.task = .spawn isPoint max

def RegisteredAt (w : AdmissionWorld isPoint) (v : Nat) : Prop :=
  (∃ s ∈ w.past, s.version = v) ∧
    ∃ set, (∀ s ∈ w.past, s.version = v → UpTo w.task.handle.maxPeers (s.list.map Prod.fst) set) ∧
      ∀ other, (v, other) ∈ w.task.handle.tracked ↔ other = set

/-- The versions passed to the network go up, and the one recorded as applied is registered. -/
def Applied (w : AdmissionWorld isPoint) : Prop :=
  w.task.passed.Pairwise (· < ·) ∧ ∀ v, w.task.applied = some v → w.RegisteredAt v

/-- A snapshot that is read has the version applied last, or a later one under which every key
that the handle looks at decodes. -/
def Advances (w : AdmissionWorld isPoint) : Action → Prop
  | .poll (.ok snapshot) => w.task.applied = some snapshot.version ∨
      (∀ v, w.task.applied = some v → v < snapshot.version) ∧
        Decodable isPoint w.task.handle.maxPeers (snapshot.peers.map (·.pubkey))
  | _ => True

/-! ### The books so far -/

variable {w w' : AdmissionWorld isPoint} {a : Action} {as : List Action} {v : Nat}

/-- Every state so far led to the present one, and a version stands for one list. -/
structure Books (w : AdmissionWorld isPoint) : Prop where
  led : ∀ s ∈ w.past, ∃ as, Run (enabled PeerLedger.step) s as w.ledger
  lists : ∀ s ∈ w.past, ∀ s' ∈ w.past, s.version = s'.version → s.list = s'.list

/-- A state that led to the present one has the next one's list under its version. -/
theorem Books.next (h : Books w) {a : PeerLedger.Action} {s : PeerLedger} (hs : s ∈ w.past)
    (hsame : s.version = (w.ledger.transact a).version) :
    s.list = (w.ledger.transact a).list := by
  obtain ⟨as, hrun⟩ := h.led s hs
  have hstep : Run (enabled PeerLedger.step) w.ledger [a] (w.ledger.transact a) := .single rfl
  rcases PeerLedger.run_versions (hrun.append hstep) with hlt | ⟨-, hlist⟩
  · exact absurd hsame hlt.ne
  · exact hlist

theorem books_step (h : Books w) (hst : Step w a w') : Books w' := by
  cases hst with
  | poll _ => exact ⟨h.led, h.lists⟩
  | restart => exact ⟨h.led, h.lists⟩
  | @ledger a =>
    constructor
    · intro s hs
      rcases List.mem_append.1 hs with hs | hs
      · obtain ⟨as, hrun⟩ := h.led s hs
        exact ⟨as ++ [a], hrun.append (.single rfl)⟩
      · rw [List.mem_singleton.1 hs]
        exact ⟨[], .nil⟩
    · intro s hs s' hs' hsame
      rcases List.mem_append.1 hs with hs | hs <;> rcases List.mem_append.1 hs' with hs' | hs'
      · exact h.lists s hs s' hs' hsame
      · rw [List.mem_singleton.1 hs'] at hsame ⊢
        exact h.next hs hsame
      · rw [List.mem_singleton.1 hs] at hsame ⊢
        exact (h.next hs' hsame.symm).symm
      · rw [List.mem_singleton.1 hs, List.mem_singleton.1 hs']

/-! ### The versions so far -/

structure Inv (w : AdmissionWorld isPoint) : Prop where
  books : Books w
  applied : Applied w
  latest : ∀ v ∈ w.task.passed, ∃ last, w.task.applied = some last ∧ v ≤ last
  recorded : ∀ v, w.task.applied = some v → v ∈ w.task.passed
  tracked : ∀ e ∈ w.task.handle.tracked, e.1 ∈ w.task.passed

/-- A task that was just started. -/
theorem spawn_inv {max : Nat} (h : Books w) (htask : w.task = .spawn isPoint max) : Inv w := by
  refine ⟨h, ?_, ?_, ?_, ?_⟩
  all_goals simp [Applied, htask, AdmissionPoll.spawn]

theorem start_inv (h : Start w) : Inv w := by
  obtain ⟨-, hpast, max, htask⟩ := h
  have hled : ∀ s ∈ w.past, s = w.ledger := by
    intro s hs
    rwa [hpast, List.mem_singleton] at hs
  refine spawn_inv ⟨fun s hs => ?_, fun s hs s' hs' _ => ?_⟩ htask
  · rw [hled s hs]
    exact ⟨[], .nil⟩
  · rw [hled s hs, hled s' hs']

/-- What is registered stays so when the ledger moves on. -/
theorem RegisteredAt.ledger {a : PeerLedger.Action} (h : Books w) (hv : w.RegisteredAt v) :
    RegisteredAt { w with
      ledger := w.ledger.transact a, past := w.past ++ [w.ledger.transact a] } v := by
  obtain ⟨⟨s, hs, hsv⟩, set, hset, hone⟩ := hv
  refine ⟨⟨s, List.mem_append_left _ hs, hsv⟩, set, fun s' hs' hs'v => ?_, hone⟩
  rcases List.mem_append.1 hs' with hs' | hs'
  · exact hset s' hs' hs'v
  · rw [List.mem_singleton] at hs'
    subst hs'
    rw [← h.next hs (hsv.trans hs'v.symm)]
    exact hset s hs hsv

variable {snapshot : PeerBookSnapshot}

/-- A newer version whose keys decode. -/
theorem Inv.newer (h : Inv w) (hserved : w.Served (.ok snapshot))
    (hnewer : ∀ v, w.task.applied = some v → v < snapshot.version)
    (hkeys : Decodable isPoint w.task.handle.maxPeers (snapshot.peers.map (·.pubkey))) :
    Inv { w with task := (pollAdmission w.task (.ok snapshot)).2 } := by
  have hother : w.task.applied ≠ some snapshot.version := fun heq => (hnewer _ heq).false
  have hpassed : ∀ v ∈ w.task.passed, v < snapshot.version := by
    intro v hv
    obtain ⟨last, hlast, hle⟩ := h.latest v hv
    exact hle.trans_lt (hnewer last hlast)
  obtain ⟨set, hset, hadmit⟩ :=
    @admitPeers_registers _ _ snapshot.version w.task.handle hkeys
  rw [pollAdmission]
  simp only [if_pos hother, hadmit]
  refine ⟨⟨h.books.led, h.books.lists⟩, ⟨?_, ?_⟩, ?_, ?_, ?_⟩
  · refine List.pairwise_append.2 ⟨h.applied.1, List.pairwise_singleton _ _, fun v hv x hx => ?_⟩
    rw [List.mem_singleton.1 hx]
    exact hpassed v hv
  · intro v hv
    obtain rfl : snapshot.version = v := Option.some.inj hv
    obtain ⟨s, hs, hversion, hlist⟩ := hserved snapshot rfl
    have hmap : snapshot.peers.map (fun p => p.pubkey.val) = s.list.map Prod.fst := by
      rw [← hlist, List.map_map]
      rfl
    refine ⟨⟨s, hs, hversion.symm⟩, set, fun s' hs' hs'v => ?_, fun other => ?_⟩
    · rw [h.books.lists s' hs' s hs (hs'v.trans hversion), ← hmap]
      rwa [List.map_map] at hset
    · simp only [List.mem_append, List.mem_singleton, Prod.mk.injEq, true_and]
      refine or_iff_right fun hmem => ?_
      exact (hpassed _ (h.tracked _ hmem)).false
  · intro v hv
    refine ⟨_, rfl, ?_⟩
    rcases List.mem_append.1 hv with hv | hv
    · exact (hpassed v hv).le
    · exact (List.mem_singleton.1 hv).le
  · intro v hv
    obtain rfl : snapshot.version = v := Option.some.inj hv
    exact List.mem_append_right _ (List.mem_singleton.2 rfl)
  · intro e he
    rcases List.mem_append.1 he with he | he
    · exact List.mem_append_left _ (h.tracked e he)
    · rw [List.mem_singleton.1 he]
      exact List.mem_append_right _ (List.mem_singleton.2 rfl)

/-- A version that is passed on and does not break anything is newer, and its keys decode. -/
theorem Inv.newer_of_applied (h : Inv w) (hother : w.task.applied ≠ some snapshot.version)
    (happlied : Applied { w with task := (pollAdmission w.task (.ok snapshot)).2 }) :
    (∀ v, w.task.applied = some v → v < snapshot.version) ∧
      Decodable isPoint w.task.handle.maxPeers (snapshot.peers.map (·.pubkey)) := by
  rw [pollAdmission] at happlied
  simp only [if_pos hother] at happlied
  obtain ⟨hsorted, hregistered⟩ := happlied
  have hpassed : ∀ v ∈ w.task.passed, v < snapshot.version := fun v hv =>
    (List.pairwise_append.1 hsorted).2.2 v hv _ (List.mem_singleton.2 rfl)
  refine ⟨fun v hv => hpassed v (h.recorded v hv), ?_⟩
  by_contra hkeys
  obtain ⟨-, set, -, hone⟩ := hregistered _ rfl
  have hmem := (hone set).2 rfl
  simp only [admitPeers_skips hkeys] at hmem
  exact (hpassed _ (h.tracked _ hmem)).false

theorem inv_of_advances (h : Inv w) (hst : Step w a w') (ha : w.Advances a) : Inv w' := by
  have hbooks := books_step h.books hst
  cases hst with
  | ledger =>
    exact ⟨hbooks, ⟨h.applied.1, fun v hv => (h.applied.2 v hv).ledger h.books⟩, h.latest,
      h.recorded, h.tracked⟩
  | restart => exact spawn_inv hbooks rfl
  | @poll read hserved =>
    cases read with
    | error e => exact h
    | ok snapshot =>
      rcases ha with hsame | ⟨hnewer, hkeys⟩
      · simpa only [pollAdmission, hsame, ne_eq, not_true_eq_false, if_false] using h
      · exact h.newer hserved hnewer hkeys

theorem advances_of_applied (h : Inv w) (hst : Step w a w') (happlied : w'.Applied) :
    w.Advances a := by
  cases hst with
  | ledger => trivial
  | restart => trivial
  | @poll read hserved =>
    cases read with
    | error e => trivial
    | ok snapshot =>
      by_cases hsame : w.task.applied = some snapshot.version
      · exact .inl hsame
      · exact .inr (h.newer_of_applied hsame happlied)

/-- The versions passed to the network go up and what is recorded as applied is registered, in
every state of a run, exactly when no poll is served an older version or an undecodable key. -/
theorem applied_iff_advances (h : Start w) :
    Run (guarded Advances Step) w as w' ↔
      Run (fun w a w' => Step w a w' ∧ Applied w') w as w' := by
  refine run_guarded_iff (I := Inv) (fun w a w' hi hst => ⟨fun ha => ?_, fun ha => ?_⟩)
    (fun w a w' hi hst ha => inv_of_advances hi hst ha) (start_inv h)
  · exact (inv_of_advances hi hst ha).applied
  · exact advances_of_applied hi hst ha

/-! ### A first publish -/

theorem length_replicate_key (n : UInt8) : (List.replicate 32 n).length = 32 :=
  List.length_replicate

def keyOf (n : UInt8) : FixedBytes 32 := ⟨List.replicate 32 n, length_replicate_key n⟩

/-- Of the keys below, the one of twos encodes no point. -/
def someIsPoint (key : FixedBytes 32) : Bool := key ≠ keyOf 2

def startWorld : AdmissionWorld someIsPoint :=
  ⟨PeerBookReader.fresh, [PeerBookReader.fresh], .spawn someIsPoint 128⟩

theorem startWorld_start : Start startWorld := ⟨rfl, rfl, 128, rfl⟩

def publish (n : UInt8) : PeerLedger.Action :=
  .call 7 (.publishPeer (keyOf n).val "seq:7000")

def bookOf (version : Nat) (ns : List UInt8) : PeerBookSnapshot :=
  ⟨version, ns.map fun n => ⟨keyOf n, "seq:7000"⟩⟩

def published (n : UInt8) : AdmissionWorld someIsPoint :=
  { startWorld with
    ledger := startWorld.ledger.transact (publish n)
    past := startWorld.past ++ [startWorld.ledger.transact (publish n)] }

theorem admissionSet_single {key : FixedBytes 32} : admissionSet [key] 128 = [key] := by
  simp [admissionSet, sorted, dedupAdjacent]

theorem published_served (n : UInt8) : (published n).Served (.ok (bookOf 1 [n])) := by
  intro snapshot h
  cases h
  refine ⟨startWorld.ledger.transact (publish n), List.mem_append_right _ (.head _), ?_, ?_⟩
  all_goals rfl

theorem applied_iff_advances_published : ∃ w,
    Run (fun w a w' => Step w a w' ∧ Applied w') startWorld
      [.ledger (publish 1), .poll (.ok (bookOf 1 [1]))] w ∧ w.task.applied = some 1 := by
  have hkeys : Decodable someIsPoint 128 [keyOf 1] := by
    intro key hkey
    rw [admissionSet_single, List.mem_singleton] at hkey
    rw [hkey]
    decide +kernel
  have hadvances : (published 1).Advances (.poll (.ok (bookOf 1 [1]))) := by
    refine .inr ⟨?_, hkeys⟩
    intro v hv
    cases hv
  have hpublish : guarded Advances Step startWorld (.ledger (publish 1)) (published 1) :=
    ⟨trivial, .ledger⟩
  have hrun : Run (guarded Advances Step) startWorld _ _ :=
    .cons hpublish (.cons ⟨hadvances, .poll (published_served 1)⟩ .nil)
  exact ⟨_, (applied_iff_advances startWorld_start).1 hrun, rfl⟩

def publishedTwice : AdmissionWorld someIsPoint :=
  { published 1 with
    ledger := (published 1).ledger.transact (publish 3)
    past := (published 1).past ++ [(published 1).ledger.transact (publish 3)] }

theorem publishedTwice_served (task : AdmissionPoll someIsPoint) :
    Served { publishedTwice with task } (.ok (bookOf 2 [1, 3])) ∧
      Served { publishedTwice with task } (.ok (bookOf 1 [1])) := by
  constructor <;> intro snapshot h <;> cases h
  · refine ⟨(published 1).ledger.transact (publish 3), List.mem_append_right _ (.head _), ?_, ?_⟩
    all_goals rfl
  · refine ⟨(published 1).ledger, List.mem_append_left _ ?_, ?_, ?_⟩
    · exact List.mem_append_right _ (.head _)
    all_goals rfl

/-- A version whose update was skipped is recorded as applied, and a version that a lagging replica
still serves is passed on after a later one. -/
theorem skipped_or_older_applied :
    (∃ w, Run Step startWorld [.ledger (publish 2), .poll (.ok (bookOf 1 [2]))] w ∧
      w.task.applied = some 1 ∧ w.task.handle.tracked = [] ∧ ¬Applied w) ∧
    ∃ w, Run Step startWorld [.ledger (publish 1), .ledger (publish 3),
      .poll (.ok (bookOf 2 [1, 3])), .poll (.ok (bookOf 1 [1]))] w ∧
      w.task.passed = [2, 1] ∧ ¬Applied w := by
  constructor
  · have hkeys : ¬Decodable someIsPoint 128 [keyOf 2] := by
      intro h
      have hkey := h (keyOf 2) (by rw [admissionSet_single]; exact .head _)
      revert hkey
      decide +kernel
    have htracked : (pollAdmission (published 2).task (.ok (bookOf 1 [2]))).2.handle.tracked =
        [] := by
      show ((published 2).task.handle.admitPeers 1 [keyOf 2]).tracked = []
      rw [admitPeers_skips hkeys]
      rfl
    have hrun : Run Step startWorld _ _ := .cons .ledger (.cons (.poll (published_served 2)) .nil)
    refine ⟨_, hrun, rfl, htracked, fun h => ?_⟩
    obtain ⟨-, set, -, hone⟩ := h.2 1 rfl
    have hmem : (1, set) ∈ (pollAdmission (published 2).task
        (.ok (bookOf 1 [2]))).2.handle.tracked := (hone set).2 rfl
    rw [htracked] at hmem
    cases hmem
  · have hrun : Run Step startWorld _ _ := .cons .ledger (.cons .ledger
      (.cons (.poll (publishedTwice_served _).1) (.cons (.poll (publishedTwice_served _).2) .nil)))
    refine ⟨_, hrun, rfl, fun h => ?_⟩
    exact absurd h.1 (show ¬[2, 1].Pairwise (· < ·) by decide)

end AdmissionWorld

end Podseq.Node
