import Podseq.Lib.Bcs
import Podseq.Lib.Runs
import Podseq.Move.Settlement

/-! # The peer book of a Registry

`publish_peer` and `remove_peer` may be called by whoever may settle. The book is a dynamic field
that the first publish adds, and its version goes up with every change, so that within the life of
one Registry a version stands for one list of peers.
-/
namespace Podseq.Move
open Podseq.Lib

/-- The peers in the order of their first publish, and how often the list was changed. -/
structure PeerBook where
  version : Nat
  peers : List (Bytes × String)
deriving DecidableEq

structure RegistryPeers where
  registry : Registry
  book : Option PeerBook

namespace Settlement

def eInvalidPeerKey : Abort := .code .settlement 3
def eInvalidPeerAddr : Abort := .code .settlement 4
def ePeerMissing : Abort := .code .settlement 5
def ePeerFull : Abort := .code .settlement 6

def peerKeyBytes : Nat := 32
def maxPeerAddrBytes : Nat := 256
def maxPeers : Nat := 100

/-- `vec_map::contains`. -/
def containsPeer (peers : List (Bytes × String)) (pubkey : Bytes) : Bool :=
  (peers.map Prod.fst).contains pubkey

/-- Writes the address of a peer that is in the list. -/
def setAddr (peers : List (Bytes × String)) (pubkey : Bytes) (addr : String) :
    List (Bytes × String) :=
  peers.map fun p => if p.1 = pubkey then (pubkey, addr) else p

/-- `vec_map::remove`: the order of the others is kept. -/
def dropPeer (peers : List (Bytes × String)) (pubkey : Bytes) : List (Bytes × String) :=
  peers.filter fun p => p.1 ≠ pubkey

/-- The peer book, a new one on first use. -/
def peerBookMut (r : RegistryPeers) : PeerBook := r.book.getD ⟨0, []⟩

/-- Publishes the address of a peer, or updates it. -/
def publishPeer (r : RegistryPeers) (now : Nat) (pubkey : Bytes) (addr : String)
    (sender : Address) : Tx RegistryPeers := do
  Rotation.assertCanAct r.registry.uid now sender
  require (pubkey.length = peerKeyBytes) eInvalidPeerKey
  let addrLen := addr.utf8ByteSize
  require (0 < addrLen ∧ addrLen ≤ maxPeerAddrBytes) eInvalidPeerAddr
  let book := peerBookMut r
  let version ← addU64 book.version 1
  if containsPeer book.peers pubkey then
    return { r with book := some ⟨version, setAddr book.peers pubkey addr⟩ }
  else
    require (book.peers.length < maxPeers) ePeerFull
    return { r with book := some ⟨version, book.peers ++ [(pubkey, addr)]⟩ }

/-- Removes a peer; the book and the peer must exist. -/
def removePeer (r : RegistryPeers) (now : Nat) (pubkey : Bytes) (sender : Address) :
    Tx RegistryPeers := do
  Rotation.assertCanAct r.registry.uid now sender
  require (pubkey.length = peerKeyBytes) eInvalidPeerKey
  match r.book with
  | none => .error ePeerMissing
  | some book =>
    require (containsPeer book.peers pubkey) ePeerMissing
    let version ← addU64 book.version 1
    return { r with book := some ⟨version, dropPeer book.peers pubkey⟩ }

def peerBookVersion (r : RegistryPeers) : Nat := (peerBookMut r).version

def publishedPeers (r : RegistryPeers) : List (Bytes × String) := (peerBookMut r).peers

end Settlement

/-- The two calls that change a peer book. -/
inductive PeerCall
  | publishPeer (pubkey : Bytes) (addr : String)
  | removePeer (pubkey : Bytes)

namespace RegistryPeers
open Settlement

def call (r : RegistryPeers) (now : Nat) (sender : Address) : PeerCall → Tx RegistryPeers
  | .publishPeer pubkey addr => publishPeer r now pubkey addr sender
  | .removePeer pubkey => removePeer r now pubkey sender

/-! ## What a call does to the book -/

/-- A list of peers within its bounds, with one entry a key. -/
structure PeersFit (peers : List (Bytes × String)) : Prop where
  size : peers.length ≤ maxPeers
  keys : (peers.map Prod.fst).Nodup
  lengths : ∀ p ∈ peers, p.1.length = peerKeyBytes
  addrs : ∀ p ∈ peers, p.2.utf8ByteSize ≤ maxPeerAddrBytes

variable {r r' : RegistryPeers} {now : Nat} {sender : Address} {pubkey : Bytes} {addr : String}
  {peers : List (Bytes × String)} {c : PeerCall}

theorem keys_setAddr : (setAddr peers pubkey addr).map Prod.fst = peers.map Prod.fst := by
  rw [setAddr, List.map_map]
  refine List.map_congr_left fun p _ => ?_
  rw [Function.comp_apply]
  split_ifs with heq
  · exact heq.symm
  · rfl

theorem PeersFit.setAddr (h : PeersFit peers) (hkey : pubkey.length = peerKeyBytes)
    (haddr : addr.utf8ByteSize ≤ maxPeerAddrBytes) :
    PeersFit (Settlement.setAddr peers pubkey addr) := by
  refine ⟨?_, ?_, fun p hp => ?_, fun p hp => ?_⟩
  · rw [Settlement.setAddr, List.length_map]
    exact h.size
  · rw [keys_setAddr]
    exact h.keys
  all_goals
    obtain ⟨q, hq, rfl⟩ := List.mem_map.1 hp
    split_ifs
  · exact hkey
  · exact h.lengths q hq
  · exact haddr
  · exact h.addrs q hq

theorem PeersFit.concat (h : PeersFit peers) (hkey : pubkey.length = peerKeyBytes)
    (haddr : addr.utf8ByteSize ≤ maxPeerAddrBytes) (hroom : peers.length < maxPeers)
    (hfresh : containsPeer peers pubkey = false) : PeersFit (peers ++ [(pubkey, addr)]) := by
  have hnot : pubkey ∉ peers.map Prod.fst := by
    rw [containsPeer, List.contains_eq_mem, decide_eq_false_iff_not] at hfresh
    exact hfresh
  refine ⟨?_, ?_, fun p hp => ?_, fun p hp => ?_⟩
  · rw [List.length_append]
    exact hroom
  · rw [List.map_append]
    exact List.Nodup.append h.keys (List.nodup_singleton _) (by simpa using hnot)
  · rcases List.mem_append.1 hp with hp | hp
    · exact h.lengths p hp
    · rw [List.mem_singleton.1 hp]; exact hkey
  · rcases List.mem_append.1 hp with hp | hp
    · exact h.addrs p hp
    · rw [List.mem_singleton.1 hp]; exact haddr

theorem PeersFit.dropPeer (h : PeersFit peers) (pubkey : Bytes) :
    PeersFit (Settlement.dropPeer peers pubkey) := by
  have hsub : (Settlement.dropPeer peers pubkey).Sublist peers := List.filter_sublist
  exact ⟨hsub.length_le.trans h.size, h.keys.sublist (hsub.map _),
    fun p hp => h.lengths p (hsub.subset hp), fun p hp => h.addrs p (hsub.subset hp)⟩

/-- A change of the book: the next version, and a list that fits where the one before did. -/
def Bumps (r r' : RegistryPeers) : Prop :=
  ∃ peers', r'.book = some ⟨peerBookVersion r + 1, peers'⟩ ∧ peerBookVersion r + 1 ≤ u64Max ∧
    (PeersFit (publishedPeers r) → PeersFit peers')

theorem publishPeer_bumps (h : publishPeer r now pubkey addr sender = .ok r') : Bumps r r' := by
  simp only [publishPeer, bind_eq_ok, require_eq_ok, addU64_eq_ok, exists_const] at h
  obtain ⟨-, -, hkey, haddr, version, ⟨hversion, rfl⟩, h⟩ := h
  split at h
  · cases h
    exact ⟨_, rfl, hversion, fun hfit => hfit.setAddr hkey haddr.2⟩
  · rename_i hfresh
    simp only [bind_eq_ok, require_eq_ok, exists_const, pure_eq_ok] at h
    obtain ⟨hroom, rfl⟩ := h
    exact ⟨_, rfl, hversion,
      fun hfit => hfit.concat hkey haddr.2 hroom (Bool.eq_false_iff.2 hfresh)⟩

theorem removePeer_bumps (h : removePeer r now pubkey sender = .ok r') : Bumps r r' := by
  simp only [removePeer, bind_eq_ok, require_eq_ok, exists_const] at h
  obtain ⟨-, -, hkey, h⟩ := h
  split at h
  · cases h
  · rename_i book hbook
    simp only [bind_eq_ok, require_eq_ok, exists_const, addU64_eq_ok, pure_eq_ok] at h
    obtain ⟨-, version, ⟨hversion, rfl⟩, rfl⟩ := h
    have hmut : peerBookMut r = book := by rw [peerBookMut, hbook]; rfl
    refine ⟨_, by rw [peerBookVersion, hmut], by rwa [peerBookVersion, hmut], fun hfit => ?_⟩
    rw [publishedPeers, hmut] at hfit
    exact hfit.dropPeer pubkey

theorem call_bumps (h : r.call now sender c = .ok r') : Bumps r r' := by
  cases c with
  | publishPeer pubkey addr => exact publishPeer_bumps h
  | removePeer pubkey => exact removePeer_bumps h

end RegistryPeers

/-! ## The life of one Registry -/

structure PeerLedger where
  now : Nat
  peers : RegistryPeers

namespace PeerLedger
open Settlement RegistryPeers

/-- A call on the book, or anything else that happens: time passes, and the Registry is settled
and rotated, which leaves the book alone. -/
inductive Action
  | call (sender : Address) (c : PeerCall)
  | other (now : Nat) (registry : Registry)

/-- An aborted call has no effects. -/
def transact (s : PeerLedger) : Action → PeerLedger
  | .call sender c =>
    match s.peers.call s.now sender c with
    | .ok peers => { s with peers }
    | .error _ => s
  | .other now registry => { now, peers := { s.peers with registry } }

def step (s : PeerLedger) (a : Action) : Option PeerLedger := some (s.transact a)

def Start (s : PeerLedger) : Prop := s.peers.book = none

def version (s : PeerLedger) : Nat := peerBookVersion s.peers

def list (s : PeerLedger) : List (Bytes × String) := publishedPeers s.peers

variable {s t : PeerLedger} {a : Action}

/-- A step leaves the book alone or makes its next version. -/
theorem step_cases (h : enabled step s a t) :
    t.peers.book = s.peers.book ∨ Bumps s.peers t.peers := by
  cases h
  cases a with
  | other now registry => exact .inl rfl
  | call sender c =>
    simp only [transact]
    split
    · rename_i peers hcall
      exact .inr (call_bumps hcall)
    · exact .inl rfl

theorem version_of_call {sender : Address} {c : PeerCall} {peers : RegistryPeers}
    (h : s.peers.call s.now sender c = .ok peers) :
    (s.transact (.call sender c)).version = s.version + 1 := by
  obtain ⟨peers', hbook, -, -⟩ := call_bumps h
  simp only [transact, h, version]
  rw [peerBookVersion, peerBookMut, hbook]
  rfl

/-- The book fits, and has a version above 0 once it is there. -/
structure Versioned (s : PeerLedger) : Prop where
  fit : PeersFit s.list
  version : ∀ book, s.peers.book = some book → 1 ≤ book.version ∧ book.version ≤ u64Max

theorem reachable_versioned (h : Reachable Start (enabled step) s) : Versioned s := by
  refine h.inv (fun s hs => ?_) fun s a t hs hst => ?_
  · have hlist : s.list = [] := by
      rw [list, publishedPeers, peerBookMut, show s.peers.book = none from hs]
      rfl
    refine ⟨⟨?_, ?_, ?_, ?_⟩, fun book hbook => ?_⟩
    · rw [hlist]; exact Nat.zero_le _
    · rw [hlist]; exact List.nodup_nil
    · rw [hlist]; exact List.forall_mem_nil _
    · rw [hlist]; exact List.forall_mem_nil _
    · rw [show s.peers.book = none from hs] at hbook
      cases hbook
  · obtain hsame | ⟨peers', hbook, hversion, hfit⟩ := step_cases hst
    · refine ⟨?_, fun book hb => hs.version book (hsame ▸ hb)⟩
      rw [list, publishedPeers, peerBookMut, hsame]
      exact hs.fit
    · refine ⟨?_, fun book hb => ?_⟩
      · rw [list, publishedPeers, peerBookMut, hbook]
        exact hfit hs.fit
      · rw [hbook, Option.some.injEq] at hb
        subst hb
        exact ⟨Nat.le_add_left _ _, hversion⟩

/-- Along a run the version grows, and where it stands still so does the list. -/
theorem run_versions {as : List Action} (h : Run (enabled step) s as t) :
    s.version < t.version ∨ s.version = t.version ∧ s.list = t.list := by
  induction h with
  | nil => exact .inr ⟨rfl, rfl⟩
  | cons hst _ ih =>
    obtain hsame | ⟨peers', hbook, -, -⟩ := step_cases hst
    · simp only [version, list, peerBookVersion, publishedPeers, peerBookMut, hsame] at ih ⊢
      exact ih
    · left
      simp only [version, peerBookVersion, peerBookMut, hbook, Option.getD_some] at ih ⊢
      omega

end PeerLedger

end Podseq.Move
