import Podseq.Move.InboxHistory
import Podseq.Node.ObservedBlock

/-! # When the halt gate fires

The poller and the producer share the markers and the height gauge. A pass reads the gauge
first and records each new nonce with the deadline that height and the block budget give; the
gate then looks at the first submitted record alone. The gauge is in memory: a restart sets it
to 0 while the chain keeps its height, and a narrowed window shrinks the budget at once. Every
write of a store is atomic here.
-/
namespace Podseq.Node
open Podseq.Lib Podseq.Move

/-- How far a pass of the poller has come: it has read the gauge, the counters of the inbox, or
the window, and then tracks `count` nonces from `nonce` on. -/
inductive PollerPass
  | begun (atHeight : Nat)
  | counted (atHeight includedCount nextNonce : Nat)
  | tracking (atHeight deadlineHeight nonce count : Nat)
deriving DecidableEq, Repr

/-- The inbox on chain, the markers, what the node keeps in memory, and the height of the latest
block. `observed` notes for each recorded nonce the height of the latest block and the block
budget when it was recorded. -/
structure HaltGate where
  chain : InboxChain
  store : InboxStore
  deadlineBlocks : Nat
  /-- The gauge `metrics.block_height`. -/
  blockHeight : Nat
  height : Nat
  pass : Option PollerPass
  observed : Table Nat (Nat × Nat)

namespace HaltGate

inductive Action
  -- the poller; an error anywhere ends its pass
  | beginPass
  | readStatus
  | refreshWindow (readable : Bool)
  | trackNext
  | observeInclusion (nonce height : Nat)
  | endPass
  -- the producer, and the node as a whole
  | produce (faults : StoreFaults) (rawTxs : List Bytes)
  | restart
  -- everyone else
  | call (c : InboxChain.Call)

def step (H : HashFn) (blockTimeMs : Nat) (s : HaltGate) : Action → Option HaltGate
  | .beginPass =>
    match s.pass with
    | none => some { s with pass := some (.begun s.blockHeight) }
    | some _ => none
  | .readStatus =>
    match s.pass with
    | some (.begun atHeight) => some { s with
        pass := some (.counted atHeight s.chain.inbox.includedCount s.chain.inbox.nextNonce) }
    | _ => none
  | .refreshWindow readable =>
    match s.pass with
    | some (.counted atHeight includedCount nextNonce) =>
      let deadlineBlocks :=
        if readable then InboxTracker.deadlineBlocksFor
          (s.chain.inbox.effectiveWindowMs s.chain.now) blockTimeMs
        else s.deadlineBlocks
      some { s with
        deadlineBlocks
        pass := some (.tracking atHeight (saturatingAdd atHeight deadlineBlocks)
          includedCount (nextNonce - includedCount)) }
    | _ => none
  | .trackNext =>
    match s.pass with
    | some (.tracking atHeight deadlineHeight nonce (count + 1)) =>
      match InboxTracker.trackEntry H atHeight deadlineHeight s.store nonce
        (s.chain.inbox.pending nonce) with
      | .error _ => some { s with pass := none }
      | .ok (store, fresh) => some { s with
          store
          pass := some (.tracking atHeight deadlineHeight (nonce + 1) count)
          observed := if fresh.isSome
            then Function.update s.observed nonce (some (s.height, s.deadlineBlocks))
            else s.observed }
    | _ => none
  | .observeInclusion nonce height =>
    (InboxTracker.observeInclusion nonce height s.store).toOption.map fun store =>
      { s with store }
  | .endPass => some { s with pass := none }
  | .produce faults rawTxs => some { s with
      height := s.height + 1
      blockHeight := s.height + 1
      store := (InboxTracker.observeTransactions H faults (s.height + 1) rawTxs s.store).1 }
  | .restart => some { s with
      blockHeight := 0
      pass := none
      deadlineBlocks := InboxTracker.deadlineBlocksFor Inbox.inclusionWindowMs blockTimeMs }
  | .call c => (s.chain.exec c).map fun chain => { s with chain }

/-- A node that starts on a new inbox with a fresh store, over a chain of any height. -/
structure Start (blockTimeMs : Nat) (s : HaltGate) : Prop where
  chain : InboxChain.Start s.chain
  store : s.store = .fresh
  deadlineBlocks : s.deadlineBlocks =
    InboxTracker.deadlineBlocksFor Inbox.inclusionWindowMs blockTimeMs
  pass : s.pass = none
  observed : s.observed = Table.empty

end HaltGate

/-! ## Deadlines in nonce order -/

namespace InboxStore

variable {ok : Nat → Prop} {store store' : InboxStore} {n nonce d : Nat}

def deadline (store : InboxStore) (n : Nat) : Option Nat :=
  match store.get n with
  | some (.submitted deadlineHeight _ _ _ _) => some deadlineHeight
  | _ => none

def Ordered (store : InboxStore) : Prop :=
  ∀ m n dm dn, store.deadline m = some dm → store.deadline n = some dn → m < n → dm ≤ dn

/-- A deadline that keeps that order when `nonce` is recorded with it. -/
def inOrder (store : InboxStore) (nonce d : Nat) : Bool :=
  store.snapshot.all fun e =>
    match e.2 with
    | .submitted deadlineHeight _ _ _ _ =>
      (nonce ≤ e.1 || deadlineHeight ≤ d) && (e.1 ≤ nonce || d ≤ deadlineHeight)
    | .included .. => true

theorem deadline_eq_some : store.deadline n = some d ↔ ∃ deadlineMs firstSeen txHash txBytes,
    store.get n = some (.submitted d deadlineMs firstSeen txHash txBytes) := by
  unfold deadline
  split
  · rename_i hget
    simp [hget]
  · rename_i hnot
    refine iff_of_false (by simp) ?_
    intro ⟨_, _, _, _, hget⟩
    exact hnot _ _ _ _ _ hget

theorem le_of_inOrder (h : store.inOrder nonce d = true) {dn : Nat}
    (hn : store.deadline n = some dn) : (n < nonce → dn ≤ d) ∧ (nonce < n → d ≤ dn) := by
  obtain ⟨dm, fs, txHash, txBytes, hget⟩ := deadline_eq_some.1 hn
  have hmem : (n, .submitted dn dm fs txHash txBytes) ∈ store.snapshot := mem_snapshot.2 hget
  have hboth := List.all_eq_true.1 h _ hmem
  simp only [Bool.and_eq_true, Bool.or_eq_true, decide_eq_true_eq] at hboth
  omega

/-- Marks take deadlines away and leave the others. -/
theorem Marks.deadline (h : Marks ok store store') (hd : store'.deadline n = some d) :
    store.deadline n = some d := by
  obtain ⟨dm, fs, txHash, txBytes, hget⟩ := deadline_eq_some.1 hd
  exact deadline_eq_some.2 ⟨dm, fs, txHash, txBytes, h.submitted hget rfl⟩

theorem Marks.ordered (h : Marks ok store store') (hs : store.Ordered) : store'.Ordered := by
  intro m n dm dn hm hn
  exact hs m n dm dn (h.deadline hm) (h.deadline hn)

end InboxStore

namespace InboxTracker

variable {H : HashFn} {store store' : InboxStore} {n nextHeight : Nat}

/-- In nonce order the first submitted record decides for all of them. -/
theorem halts_iff_overdue (hordered : store.Ordered) :
    haltCheck nextHeight store ≠ .clear ↔ ∃ n d, store.deadline n = some d ∧ d < nextHeight := by
  constructor
  · intro hhalt
    obtain ⟨n, d, dm, fs, txHash, txBytes, hget, hlate⟩ := overdue_of_haltCheck hhalt
    exact ⟨n, d, InboxStore.deadline_eq_some.2 ⟨dm, fs, txHash, txBytes, hget⟩, hlate⟩
  · intro ⟨n, d, hd, hlate⟩
    -- the overdue nonce, or else a lower one, is the first that is submitted
    induction n using Nat.strong_induction_on generalizing d with
    | h n ih =>
      by_cases hlower : ∃ m dm, m < n ∧ store.deadline m = some dm
      · obtain ⟨m, dm, hlt, hdm⟩ := hlower
        exact ih m hlt dm hdm ((hordered m n dm d hdm hd hlt).trans_lt hlate)
      · obtain ⟨dm, fs, txHash, txBytes, hget⟩ := InboxStore.deadline_eq_some.1 hd
        have hhalt : haltCheck nextHeight store = .halt n d nextHeight := by
          refine haltCheckRecords_halt InboxStore.sorted_snapshot (InboxStore.mem_snapshot.2 hget)
            (fun e he hlt => ?_) hlate
          cases hrecord : e.2 with
          | included => rfl
          | submitted de =>
            have hget' := InboxStore.mem_snapshot.1 he
            rw [hrecord] at hget'
            exact absurd ⟨e.1, de, hlt, InboxStore.deadline_eq_some.2 ⟨_, _, _, _, hget'⟩⟩ hlower
        rw [hhalt]
        nofun

end InboxTracker

namespace HaltGate

variable {H : HashFn} {blockTimeMs nextHeight : Nat} {s t : HaltGate} {a : Action}

/-! ## The invariant -/

/-- The condition on a step: a nonce is recorded with the height of the latest block, in order
with the deadlines of the submitted nonces. -/
def anchored (s : HaltGate) : Action → Bool
  | .trackNext =>
    match s.pass with
    | some (.tracking atHeight deadlineHeight nonce (_ + 1)) =>
      (s.store.get nonce).isSome || (s.chain.inbox.pending nonce).isNone ||
        (atHeight == s.height && s.store.inOrder nonce deadlineHeight)
    | _ => true
  | _ => true

/-- The submitted deadlines are in order, each is the one its nonce was observed with, and a pass
records with the budget in force. -/
structure Recorded (s : HaltGate) : Prop where
  ordered : s.store.Ordered
  observed : ∀ n d, s.store.deadline n = some d →
    ∃ f b, s.observed n = some (f, b) ∧ d = saturatingAdd f b
  pass : ∀ atHeight d nonce count, s.pass = some (.tracking atHeight d nonce count) →
    d = saturatingAdd atHeight s.deadlineBlocks

/-- A step that only marks nonces keeps what is recorded. -/
theorem Recorded.of_marks {ok : Nat → Prop} (h : Recorded s)
    (hmarks : InboxStore.Marks ok s.store t.store) (hobserved : t.observed = s.observed)
    (hpass : ∀ atHeight d nonce count, t.pass = some (.tracking atHeight d nonce count) →
      d = saturatingAdd atHeight t.deadlineBlocks) : Recorded t where
  ordered := hmarks.ordered h.ordered
  observed n d hd := by
    rw [hobserved]
    exact h.observed n d (hmarks.deadline hd)
  pass := hpass

theorem deadline_insert {store : InboxStore} {n nonce d dm fs : Nat} {txHash txBytes : String} :
    (⟨store.nonces.insert nonce (.submitted d dm fs txHash txBytes)⟩ : InboxStore).deadline n =
      if n = nonce then some d else store.deadline n := by
  unfold InboxStore.deadline
  rw [InboxStore.get_insert]
  by_cases heq : n = nonce
  · rw [if_pos heq, if_pos heq]
  · rw [if_neg heq, if_neg heq]

/-- Recording a nonce in order with its own deadline. -/
theorem Recorded.insert {nonce d b dm fs : Nat} {txHash txBytes : String} (h : Recorded s)
    (horder : s.store.inOrder nonce d = true) (hd : d = saturatingAdd s.height b)
    (hstore : t.store = ⟨s.store.nonces.insert nonce (.submitted d dm fs txHash txBytes)⟩)
    (hobserved : t.observed = Function.update s.observed nonce (some (s.height, b)))
    (hpass : ∀ atHeight d nonce count, t.pass = some (.tracking atHeight d nonce count) →
      d = saturatingAdd atHeight t.deadlineBlocks) : Recorded t where
  ordered := by
    intro m n dm dn hm hn hlt
    rw [hstore, deadline_insert] at hm hn
    split_ifs at hm with hmn <;> split_ifs at hn with hnn
    · omega
    · cases hm
      exact (InboxStore.le_of_inOrder horder hn).2 (hmn ▸ hlt)
    · cases hn
      exact (InboxStore.le_of_inOrder horder hm).1 (hnn ▸ hlt)
    · exact h.ordered m n dm dn hm hn hlt
  observed := by
    intro n dn hn
    rw [hstore, deadline_insert] at hn
    rw [hobserved]
    by_cases heq : n = nonce
    · rw [if_pos heq] at hn
      cases hn
      exact ⟨s.height, b, by rw [heq, Function.update_self], hd⟩
    · rw [if_neg heq] at hn
      rw [Function.update_of_ne heq]
      exact h.observed n dn hn
  pass := hpass

/-- What one anchored step keeps. -/
theorem Recorded.step (h : Recorded s) (hok : anchored s a = true)
    (hst : enabled (step H blockTimeMs) s a t) : Recorded t := by
  simp only [enabled] at hst
  cases a with
  | beginPass | readStatus =>
    simp only [HaltGate.step] at hst
    split at hst <;> cases hst
    exact h.of_marks (.refl (fun _ => True) _) rfl fun _ _ _ _ hpass => by cases hpass
  | refreshWindow readable =>
    simp only [HaltGate.step] at hst
    split at hst <;> cases hst
    refine h.of_marks (.refl (fun _ => True) _) rfl fun atHeight d nonce count hpass => ?_
    cases hpass
    rfl
  -- an entry that is new in the store is recorded under the deadline of this pass
  | trackNext =>
    simp only [HaltGate.step] at hst
    split at hst
    · rename_i atHeight d nonce count hpass
      have hd := h.pass _ _ _ _ hpass
      split at hst
      · cases hst
        exact h.of_marks (.refl (fun _ => True) _) rfl fun _ _ _ _ hpass => by cases hpass
      · rename_i store fresh htrack
        cases hst
        have hnext : ∀ atHeight' d' nonce' count',
            some (PollerPass.tracking atHeight d (nonce + 1) count) =
              some (.tracking atHeight' d' nonce' count') →
            d' = saturatingAdd atHeight' s.deadlineBlocks := by
          intro _ _ _ _ heq
          cases heq
          exact hd
        obtain ⟨rfl, rfl⟩ | ⟨hfresh, pending, hentry, hnone, rfl⟩ :=
          InboxTracker.trackEntry_cases htrack
        · exact h.of_marks (.refl (fun _ => True) _) rfl hnext
        · simp only [anchored, hpass, hentry, hnone, Option.isSome_none, Option.isNone_some,
            Bool.false_or, Bool.and_eq_true, beq_iff_eq] at hok
          obtain ⟨rfl, horder⟩ := hok
          exact h.insert horder hd rfl (if_pos hfresh) hnext
    · cases hst
  | observeInclusion nonce height =>
    simp only [HaltGate.step, Option.map_eq_some_iff, toOption_eq_some] at hst
    obtain ⟨store, hobserve, rfl⟩ := hst
    have hmark := InboxTracker.observeInclusion_eq_ok hobserve
    exact h.of_marks (InboxStore.marks_markIncluded hmark) rfl h.pass
  | endPass | restart =>
    cases hst
    exact h.of_marks (.refl (fun _ => True) _) rfl fun _ _ _ _ hpass => by cases hpass
  | produce faults rawTxs =>
    cases hst
    have hmarks := InboxTracker.marks_observeTransactions H faults (s.height + 1) rawTxs s.store
    exact h.of_marks (hmarks.mono fun _ _ => trivial) rfl h.pass
  | call c =>
    simp only [HaltGate.step, Option.map_eq_some_iff] at hst
    obtain ⟨chain, -, rfl⟩ := hst
    exact h.of_marks (.refl (fun _ => True) _) rfl h.pass

theorem Start.recorded (h : Start blockTimeMs s) : Recorded s where
  ordered m n dm dn hm := by
    rw [h.store] at hm
    cases hm
  observed n d hd := by
    rw [h.store] at hd
    cases hd
  pass _ _ _ _ hpass := by
    rw [h.pass] at hpass
    cases hpass

/-- **When the halt gate fires exactly on overdue nonces.** In every run in which each nonce is
recorded with the height of the latest block, and with a deadline in order with those of the
submitted nonces: `haltCheck` halts at a height exactly when some nonce that is still submitted
was observed when the latest block had a height, and under a budget, whose sum is below it. -/
theorem halts_iff (hs : Reachable (Start blockTimeMs)
      (guarded (fun s a => anchored s a) (enabled (step H blockTimeMs))) s)
    (hnext : nextHeight ≤ u64Max) :
    InboxTracker.haltCheck nextHeight s.store ≠ .clear ↔
      ∃ n f b, (s.store.deadline n).isSome ∧ s.observed n = some (f, b) ∧ f + b < nextHeight := by
  have hrecorded : Recorded s :=
    hs.inv (fun s h => h.recorded) fun s a t h hst => h.step hst.1 hst.2
  rw [InboxTracker.halts_iff_overdue hrecorded.ordered]
  constructor
  · intro ⟨n, d, hd, hlate⟩
    obtain ⟨f, b, hobserved, rfl⟩ := hrecorded.observed n d hd
    refine ⟨n, f, b, by rw [hd]; rfl, hobserved, ?_⟩
    rw [saturatingAdd] at hlate
    omega
  · intro ⟨n, f, b, hsub, hobserved, hlate⟩
    obtain ⟨d, hd⟩ := Option.isSome_iff_exists.1 hsub
    obtain ⟨f', b', hobserved', rfl⟩ := hrecorded.observed n d hd
    rw [hobserved] at hobserved'
    cases hobserved'
    exact ⟨n, _, hd, (Nat.min_le_left _ _).trans_lt hlate⟩

/-- A node with a fresh store before the first block, with blocks as long as the default
window. -/
def newNode : HaltGate :=
  ⟨⟨5, Inbox.initializeInbox 0⟩, .fresh, 1, 0, 0, none, Table.empty⟩

theorem newNode_start : Start 600000 newNode := ⟨⟨0, rfl⟩, rfl, rfl, rfl, rfl⟩

/-- A nonce observed at height 1 with a budget of one block is overdue for block 3. -/
theorem halts_iff_overdue_nonce :
    ∃ s : HaltGate, InboxTracker.haltCheck 3 s.store ≠ .clear ∧
      (InboxTracker.haltCheck 3 s.store ≠ .clear ↔
        ∃ n f b, (s.store.deadline n).isSome ∧ s.observed n = some (f, b) ∧ f + b < 3) := by
  have hrun : Run (guarded (fun s a => anchored s a) (enabled (step paddingHash 600000))) newNode
      [.call (.submit [7]), .produce noFaults [], .beginPass, .readStatus, .refreshWindow true,
        .trackNext, .endPass, .produce noFaults []] _ := run_of_execOk rfl
  have hreach : Reachable (Start 600000)
      (guarded (fun s a => anchored s a) (enabled (step paddingHash 600000))) _ :=
    ⟨_, _, newNode_start, hrun⟩
  exact ⟨_, by decide, halts_iff hreach (by decide)⟩

/-- After a restart the gauge is 0: a nonce observed at height 3 with a budget of one block halts
block 4, for which it is not overdue. -/
theorem restarted_gauge_halts :
    ¬∀ H blockTimeMs s nextHeight, Reachable (Start blockTimeMs) (enabled (step H blockTimeMs)) s →
      nextHeight ≤ u64Max →
      (InboxTracker.haltCheck nextHeight s.store ≠ .clear ↔
        ∃ n f b, (s.store.deadline n).isSome ∧ s.observed n = some (f, b) ∧
          f + b < nextHeight) := by
  intro hclaim
  obtain ⟨s, hrun, hhalts, hobserved⟩ : ∃ s, Run (enabled (step paddingHash 600000)) newNode
      [.call (.submit [7]), .produce noFaults [], .produce noFaults [], .produce noFaults [],
        .restart, .beginPass, .readStatus, .refreshWindow true, .trackNext] s ∧
      InboxTracker.haltCheck 4 s.store ≠ .clear ∧
      s.observed = Function.update Table.empty 0 (some (3, 1)) :=
    ⟨_, run_of_execAll rfl, by decide, rfl⟩
  have hreach := (⟨_, _, newNode_start, hrun⟩ : Reachable (Start 600000) _ s)
  obtain ⟨n, f, b, -, hn, hlate⟩ :=
    (hclaim paddingHash 600000 s 4 hreach (by decide)).1 hhalts
  rw [hobserved] at hn
  by_cases heq : n = 0
  · rw [heq, Function.update_self] at hn
    cases hn
    exact absurd hlate (by decide)
  · rw [Function.update_of_ne heq] at hn
    cases hn

end HaltGate

end Podseq.Node
