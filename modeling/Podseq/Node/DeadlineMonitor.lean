import Podseq.Move.InboxHistory
import Podseq.Node.InboxTracker

/-! # The deadline monitor of a full node

A full node decides from Sui state alone whether a force-inclusion deadline is exceeded. The
inbox, the clock and the oldest entry are separate reads, so a settle can land between them; a
verdict is returned only when a second read of the inbox still shows the same cursor and the
same settled timestamp. Both only grow, so they stood still between the two reads of the inbox,
and the entry was read in between.
-/
namespace Podseq.Node
open Podseq.Lib Podseq.Move

namespace DeadlineMonitor

/-! ## Classification -/

structure InboxStatus where
  nextNonce : Nat
  includedCount : Nat
  lastSettledTs : Nat
deriving DecidableEq, Repr

/-- What a read of `inbox` parses. -/
def statusOf (inbox : Inbox) : InboxStatus :=
  ⟨inbox.nextNonce, inbox.includedCount, inbox.lastSettledTs⟩

inductive DeadlineStatus
  | active
  /-- The oldest deadline is expired and no settle went past it. -/
  | halted (nonce deadlineMs : Nat)
  /-- The oldest deadline is expired and a settle went past it. -/
  | violated (nonce deadlineMs settledTsMs : Nat)
deriving DecidableEq, Repr

def DeadlineStatus.isHalted : DeadlineStatus → Bool
  | .active => false
  | .halted .. => true
  | .violated .. => true

inductive DeadlineError
  | inbox
  | inconsistentSnapshot (attempts : Nat)
deriving DecidableEq, Repr

/-- Classifies one consistent read; a settle stamped at exactly the deadline is legal, so
equality stays active. -/
def classify (nowMs marginMs : Nat) (inbox : InboxStatus) (oldest : Option PendingTx) :
    DeadlineStatus :=
  match oldest with
  | none => .active
  | some tx =>
    let nonce := inbox.includedCount
    let grace := saturatingAdd tx.deadlineMs marginMs
    if nowMs ≤ grace then .active
    else if inbox.lastSettledTs ≤ tx.deadlineMs then .halted nonce tx.deadlineMs
    else .violated nonce tx.deadlineMs inbox.lastSettledTs

def statusAt (marginMs : Nat) (chain : InboxChain) : DeadlineStatus :=
  classify chain.now marginMs (statusOf chain.inbox)
    (chain.inbox.pending chain.inbox.includedCount)

variable {nowMs marginMs : Nat} {inbox : InboxStatus} {oldest : Option PendingTx}

/-- A verdict names the entry at the cursor, expired by more than the margin. -/
theorem classify_isHalted (h : (classify nowMs marginMs inbox oldest).isHalted) :
    ∃ tx, oldest = some tx ∧ saturatingAdd tx.deadlineMs marginMs < nowMs ∧
      classify nowMs marginMs inbox oldest =
        if inbox.lastSettledTs ≤ tx.deadlineMs then .halted inbox.includedCount tx.deadlineMs
        else .violated inbox.includedCount tx.deadlineMs inbox.lastSettledTs := by
  cases oldest with
  | none => cases h
  | some tx =>
    by_cases hle : nowMs ≤ saturatingAdd tx.deadlineMs marginMs
    · simp only [classify, if_pos hle] at h
      cases h
    · exact ⟨tx, rfl, Nat.lt_of_not_le hle, by simp only [classify, if_neg hle]⟩

/-- Within the range of the clock, past the saturated bound is past the bound. -/
theorem lt_of_saturatingAdd_lt {a b : Nat} (h : saturatingAdd a b < nowMs)
    (hnow : nowMs ≤ u64Max) : a + b < nowMs := by
  unfold saturatingAdd at h
  omega

/-- Later on the clock, the same reads give the same verdict. -/
theorem classify_later {laterMs : Nat} (h : (classify nowMs marginMs inbox oldest).isHalted)
    (hle : nowMs ≤ laterMs) :
    classify laterMs marginMs inbox oldest = classify nowMs marginMs inbox oldest := by
  obtain ⟨tx, rfl, hlt, heq⟩ := classify_isHalted h
  rw [heq]
  simp only [classify, if_neg (Nat.not_le_of_lt (hlt.trans_le hle))]

/-! ## The monitor between its reads -/

/-- Read attempts before a verdict is reported as unconfirmed. -/
def confirmLimit : Nat := 3

/-- One read of the inbox, the clock and the oldest entry. -/
structure Snapshot where
  inbox : InboxStatus
  nowMs : Nat
  oldest : Option PendingTx
deriving DecidableEq, Repr

/-- Where a call of `status` stands; `left` counts the attempts after this one. -/
inductive Phase
  | readInbox (left : Nat)
  | readClock (left : Nat) (inbox : InboxStatus)
  | readEntry (left : Nat) (inbox : InboxStatus) (nowMs : Nat)
  | confirmUnchanged (left : Nat) (read : Snapshot)
  /-- The status, with the read it was decided from. -/
  | returned (status : DeadlineStatus) (read : Snapshot)
  | failed (error : DeadlineError)
deriving DecidableEq, Repr

def Phase.running : Phase → Bool
  | .returned .. => false
  | .failed _ => false
  | _ => true

def retry : Nat → Phase
  | 0 => .failed (.inconsistentSnapshot confirmLimit)
  | left + 1 => .readInbox left

/-- The next read of the call, against the chain as it is now. -/
def readNext (marginMs : Nat) (chain : InboxChain) : Phase → Phase
  | .readInbox left => .readClock left (statusOf chain.inbox)
  | .readClock left inbox => .readEntry left inbox chain.now
  | .readEntry left inbox nowMs =>
    let read : Snapshot := ⟨inbox, nowMs, chain.inbox.pending inbox.includedCount⟩
    let status := classify nowMs marginMs read.inbox read.oldest
    if status.isHalted then .confirmUnchanged left read else .returned status read
  | .confirmUnchanged left read =>
    let confirm := statusOf chain.inbox
    if confirm.includedCount = read.inbox.includedCount ∧
        confirm.lastSettledTs = read.inbox.lastSettledTs then
      .returned (classify read.nowMs marginMs read.inbox read.oldest) read
    else retry left
  | phase => phase

/-- A call of `status` beside the chain; `seen` are the states of the chain since its start. -/
structure Poll where
  chain : InboxChain
  phase : Phase
  seen : List InboxChain

inductive Step
  /-- A call on the inbox, or the clock moving on. -/
  | chain (c : InboxChain.Call)
  | read
  /-- A read that fails. -/
  | fail

/-- One step while the call runs; the clock is a `u64`. -/
def step (marginMs : Nat) (s : Poll) : Step → Option Poll
  | .chain c =>
    if s.phase.running then
      (s.chain.exec c).bind fun chain =>
        if chain.now ≤ u64Max then some { s with chain, seen := chain :: s.seen } else none
    else none
  | .read =>
    if s.phase.running then some { s with phase := readNext marginMs s.chain s.phase } else none
  | .fail => if s.phase.running then some { s with phase := .failed .inbox } else none

def Start (s : Poll) : Prop :=
  s.phase = .readInbox (confirmLimit - 1) ∧ s.seen = [s.chain] ∧ s.chain.now ≤ u64Max

/-! ## What the reads agree on -/

variable {s t : Poll} {a : Step}

/-- The inbox was read at some instant from which the chain has advanced. -/
def ReadBefore (inbox : InboxStatus) (chain : InboxChain) : Prop :=
  inbox.includedCount ≤ chain.inbox.includedCount ∧ inbox.lastSettledTs ≤ chain.inbox.lastSettledTs

theorem ReadBefore.advances {chain chain' : InboxChain} (h : ReadBefore inbox chain)
    (ha : InboxChain.Advances chain chain') : ReadBefore inbox chain' :=
  ⟨h.1.trans ha.includedCount, h.2.trans ha.lastSettledTs⟩

/-- At the instant `u` the oldest entry was read, after the inbox and the clock. -/
structure EntryReadAt (read : Snapshot) (u : InboxChain) : Prop where
  inbox : ReadBefore read.inbox u
  clock : read.nowMs ≤ u.now
  entry : read.oldest = u.inbox.pending read.inbox.includedCount

/-- The reads of a verdict agree with the chain at the instant `u`. -/
structure Agrees (read : Snapshot) (u : InboxChain) : Prop where
  includedCount : u.inbox.includedCount = read.inbox.includedCount
  lastSettledTs : u.inbox.lastSettledTs = read.inbox.lastSettledTs
  clock : read.nowMs ≤ u.now
  entry : read.oldest = u.inbox.pending u.inbox.includedCount

/-- What the call knows at each point about the chain and its past. -/
def Knows (marginMs : Nat) (s : Poll) : Prop :=
  match s.phase with
  | .readInbox _ => True
  | .readClock _ inbox => ReadBefore inbox s.chain
  | .readEntry _ inbox nowMs => ReadBefore inbox s.chain ∧ nowMs ≤ s.chain.now
  | .confirmUnchanged _ read =>
    ∃ u ∈ s.seen, EntryReadAt read u ∧ InboxChain.Advances u s.chain
  | .returned status read => status = classify read.nowMs marginMs read.inbox read.oldest ∧
      (status.isHalted → ∃ u ∈ s.seen, Agrees read u)
  | .failed _ => True

structure Inv (marginMs : Nat) (s : Poll) : Prop where
  here : s.chain ∈ s.seen
  clock : ∀ u ∈ s.seen, u.now ≤ u64Max
  knows : Knows marginMs s

/-- What is known of a running call survives the steps of the chain. -/
theorem Knows.chain {chain : InboxChain} (h : Knows marginMs s) (hrun : s.phase.running)
    (ha : InboxChain.Advances s.chain chain) :
    Knows marginMs { s with chain, seen := chain :: s.seen } := by
  unfold Knows at h ⊢
  cases hphase : s.phase with
  | readInbox left => trivial
  | readClock left inbox =>
    rw [hphase] at h
    exact h.advances ha
  | readEntry left inbox nowMs =>
    rw [hphase] at h
    exact ⟨h.1.advances ha, h.2.trans ha.now⟩
  | confirmUnchanged left read =>
    rw [hphase] at h
    obtain ⟨u, hu, hentry, hadv⟩ := h
    exact ⟨u, List.mem_cons_of_mem _ hu, hentry, hadv.trans ha⟩
  | returned status read => rw [hphase] at hrun; cases hrun
  | failed error => trivial

/-- The confirming read pins the cursor and the settled timestamp at every instant between. -/
theorem EntryReadAt.agrees {read : Snapshot} {u chain : InboxChain} (h : EntryReadAt read u)
    (ha : InboxChain.Advances u chain)
    (hcount : chain.inbox.includedCount = read.inbox.includedCount)
    (hts : chain.inbox.lastSettledTs = read.inbox.lastSettledTs) : Agrees read u := by
  have hc : u.inbox.includedCount = read.inbox.includedCount :=
    Nat.le_antisymm (ha.includedCount.trans hcount.le) h.inbox.1
  have ht : u.inbox.lastSettledTs = read.inbox.lastSettledTs :=
    Nat.le_antisymm (ha.lastSettledTs.trans hts.le) h.inbox.2
  exact ⟨hc, ht, h.clock, by rw [hc]; exact h.entry⟩

/-- One read of the call. -/
theorem Inv.read (h : Inv marginMs s) :
    Inv marginMs { s with phase := readNext marginMs s.chain s.phase } := by
  refine ⟨h.here, h.clock, ?_⟩
  have hk := h.knows
  unfold Knows at hk ⊢
  cases hphase : s.phase with
  | readInbox left => exact ⟨Nat.le_refl _, Nat.le_refl _⟩
  | readClock left inbox =>
    rw [hphase] at hk
    exact ⟨hk, Nat.le_refl _⟩
  | readEntry left inbox nowMs =>
    rw [hphase] at hk
    simp only [readNext]
    split_ifs with hhalt
    · exact ⟨s.chain, h.here, ⟨hk.1, hk.2, rfl⟩, .refl _⟩
    · exact ⟨rfl, fun hhalt' => absurd hhalt' hhalt⟩
  | confirmUnchanged left read =>
    rw [hphase] at hk
    obtain ⟨u, hu, hentry, hadv⟩ := hk
    simp only [readNext]
    split_ifs with hsame
    · exact ⟨rfl, fun _ => ⟨u, hu, hentry.agrees hadv hsame.1 hsame.2⟩⟩
    · cases left <;> trivial
  | returned status read => rw [hphase] at hk; exact hk
  | failed error => trivial

theorem Inv.step (h : Inv marginMs s) (hst : enabled (step marginMs) s a t) : Inv marginMs t := by
  cases a with
  | chain c =>
    simp only [enabled, DeadlineMonitor.step, Option.ite_none_right_eq_some,
      Option.bind_eq_some_iff, Option.some.injEq] at hst
    obtain ⟨hrun, chain, hexec, hnow, rfl⟩ := hst
    refine ⟨List.mem_cons_self, ?_, h.knows.chain hrun (InboxChain.exec_advances hexec)⟩
    intro u hu
    rcases List.mem_cons.1 hu with rfl | hmem
    · exact hnow
    · exact h.clock u hmem
  | read =>
    simp only [enabled, DeadlineMonitor.step, Option.ite_none_right_eq_some,
      Option.some.injEq] at hst
    obtain ⟨-, rfl⟩ := hst
    exact h.read
  | fail =>
    simp only [enabled, DeadlineMonitor.step, Option.ite_none_right_eq_some,
      Option.some.injEq] at hst
    obtain ⟨-, rfl⟩ := hst
    exact ⟨h.here, h.clock, trivial⟩

theorem reachable_inv (h : Reachable Start (enabled (step marginMs)) s) : Inv marginMs s := by
  refine h.inv (fun s hs => ?_) (fun s a t hi hst => hi.step hst)
  obtain ⟨hphase, hseen, hnow⟩ := hs
  refine ⟨by simp [hseen], fun u hu => ?_, ?_⟩
  · rw [hseen, List.mem_singleton] at hu
    rw [hu]; exact hnow
  · unfold Knows
    rw [hphase]
    trivial

/-- **The deadline monitor is sound.** Whatever the chain does between the reads, a halted or
violated verdict for a nonce and a deadline describes one instant of the call: the cursor stood
at that nonce, the entry with that deadline was pending, the settled timestamp was the one the
verdict was based on, the clock was past the deadline by more than the margin, and the chain
read at that instant gives the same verdict. -/
theorem status_sound (hs : Reachable Start (enabled (step marginMs)) s)
    {status : DeadlineStatus} {read : Snapshot} (hret : s.phase = .returned status read)
    {nonce deadlineMs : Nat} (hverdict : status = .halted nonce deadlineMs ∨
      ∃ settledTsMs, status = .violated nonce deadlineMs settledTsMs) :
    ∃ u ∈ s.seen, u.inbox.includedCount = nonce ∧
      (∃ tx, u.inbox.pending nonce = some tx ∧ tx.deadlineMs = deadlineMs) ∧
      u.inbox.lastSettledTs = read.inbox.lastSettledTs ∧ deadlineMs + marginMs < u.now ∧
      statusAt marginMs u = status := by
  have hi := reachable_inv hs
  have hk := hi.knows
  unfold Knows at hk
  rw [hret] at hk
  obtain ⟨hstatus, hagree⟩ := hk
  have hhalt : status.isHalted := by
    obtain rfl | ⟨ts, rfl⟩ := hverdict <;> rfl
  obtain ⟨u, hu, ha⟩ := hagree hhalt
  rw [hstatus] at hhalt
  obtain ⟨tx, htx, hlt, heq⟩ := classify_isHalted hhalt
  -- both verdicts name the cursor and the deadline of the entry
  have hnames : nonce = read.inbox.includedCount ∧ deadlineMs = tx.deadlineMs := by
    rw [← hstatus] at heq
    obtain rfl | ⟨ts, rfl⟩ := hverdict
    · split_ifs at heq
      cases heq
      exact ⟨rfl, rfl⟩
    · split_ifs at heq
      cases heq
      exact ⟨rfl, rfl⟩
  obtain ⟨rfl, rfl⟩ := hnames
  have hpast := lt_of_saturatingAdd_lt (hlt.trans_le ha.clock) (hi.clock u hu)
  refine ⟨u, hu, ha.includedCount, ⟨tx, ?_, rfl⟩, ha.lastSettledTs, hpast, ?_⟩
  · rw [← ha.includedCount, ← ha.entry, htx]
  · have hlater := classify_later hhalt ha.clock
    have hsame : classify u.now marginMs (statusOf u.inbox) read.oldest =
        classify u.now marginMs read.inbox read.oldest := by
      simp only [htx, classify, statusOf, ha.includedCount, ha.lastSettledTs]
    rw [hstatus, ← hlater, statusAt, ← ha.entry, hsame]

/-- A settle lands between the reads of the first attempt; the second attempt finds the next
entry overdue. -/
theorem status_sound_retried :
    ∃ s read, Reachable Start (enabled (step 1000)) s ∧
      s.phase = .returned (.halted 1 600005) read ∧
      ∃ u ∈ s.seen, u.inbox.includedCount = 1 ∧
        (∃ tx, u.inbox.pending 1 = some tx ∧ tx.deadlineMs = 600005) ∧
        u.inbox.lastSettledTs = read.inbox.lastSettledTs ∧ 600005 + 1000 < u.now ∧
        statusAt 1000 u = .halted 1 600005 := by
  have hreach : Reachable Start (enabled (step 1000)) _ :=
    ⟨⟨⟨5, Inbox.initializeInbox 0⟩, .readInbox 2, [⟨5, Inbox.initializeInbox 0⟩]⟩,
      [.chain (.submit [1]), .chain (.submit [2]), .chain (.tick 700000), .read, .read, .read,
        .chain (.enforceSettle 600005 1), .read, .read, .read, .read, .read],
      ⟨rfl, rfl, by decide⟩, run_of_execAll rfl⟩
  refine ⟨_, ⟨⟨2, 1, 600005⟩, 700000, some ⟨600005, [2]⟩⟩, hreach, ?_,
    status_sound hreach ?_ (.inl rfl)⟩
  · decide
  · decide

/-! ## Settles past a deadline -/

/-- No settle went past the deadline of the oldest pending entry. -/
def OldestMeets (chain : InboxChain) : Prop :=
  ∀ tx, chain.inbox.pending chain.inbox.includedCount = some tx →
    chain.inbox.lastSettledTs ≤ tx.deadlineMs

theorem OldestMeets.not_violated {chain : InboxChain} (h : OldestMeets chain)
    (marginMs nonce deadlineMs settledTsMs : Nat) :
    statusAt marginMs chain ≠ .violated nonce deadlineMs settledTsMs := by
  intro hv
  have hhalt : (statusAt marginMs chain).isHalted := by rw [hv]; rfl
  obtain ⟨tx, htx, -, heq⟩ := classify_isHalted hhalt
  rw [if_pos (show (statusOf chain.inbox).lastSettledTs ≤ tx.deadlineMs from h tx htx)]
    at heq
  rw [statusAt, heq] at hv
  cases hv

theorem OldestMeets.sameQueue {s : InboxChain} {inbox' : Inbox} (h : OldestMeets s)
    (hq : Inbox.SameQueue s.inbox inbox') : OldestMeets { s with inbox := inbox' } := by
  intro tx htx
  simp only [hq.pending, hq.includedCount] at htx
  rw [hq.lastSettledTs]
  exact h tx htx

/-- A submission into a drained inbox whose deadline is not before the last settled block. -/
def Timely (s : InboxChain) : InboxChain.Call → Prop
  | .submit _ => s.inbox.includedCount = s.inbox.nextNonce →
      s.inbox.lastSettledTs ≤ s.now + s.inbox.effectiveWindowMs s.now
  | _ => True

theorem OldestMeets.step {s t : InboxChain} {c : InboxChain.Call} (h : OldestMeets s)
    (hok : Timely s c) (hst : InboxChain.exec s c = some t) : OldestMeets t := by
  cases c with
  | tick now =>
    simp only [InboxChain.exec, Option.ite_none_right_eq_some, Option.some.injEq] at hst
    obtain ⟨-, rfl⟩ := hst
    exact h
  | submit txBytes =>
    simp only [InboxChain.exec, Option.map_eq_some_iff, toOption_eq_some] at hst
    obtain ⟨inbox', hs, rfl⟩ := hst
    obtain ⟨-, -, -, -, rfl⟩ := Inbox.submit_eq_ok.1 hs
    intro tx htx
    by_cases hdrained : s.inbox.includedCount = s.inbox.nextNonce
    · simp only [hdrained, Function.update_self, Option.some.injEq] at htx
      rw [← htx]
      exact hok hdrained
    · simp only [Function.update_of_ne hdrained] at htx
      exact h tx htx
  | stageWindowChange newWindowMs delayMs =>
    simp only [InboxChain.exec, Option.map_eq_some_iff, toOption_eq_some] at hst
    obtain ⟨inbox', hs, rfl⟩ := hst
    exact h.sameQueue (Inbox.stageWindowChange_sameQueue hs)
  | cancelWindowChange =>
    simp only [InboxChain.exec, Option.map_eq_some_iff, toOption_eq_some] at hst
    obtain ⟨inbox', hs, rfl⟩ := hst
    exact h.sameQueue (Inbox.cancelWindowChange_sameQueue hs)
  | enforceSettle blockTs cursor =>
    simp only [InboxChain.exec, Option.map_eq_some_iff, toOption_eq_some] at hst
    obtain ⟨inbox', hs, rfl⟩ := hst
    obtain ⟨-, -, -, -, holdest, rfl⟩ := Inbox.enforceSettle_eq_ok.1 hs
    intro tx htx
    simp only [show ¬ (s.inbox.includedCount ≤ cursor ∧ cursor < cursor) by omega, if_false] at htx
    exact holdest tx htx

/-- **No settle passes the deadline of the oldest pending entry**, so that a consistent read is
never classified as violated, along the runs in which a submission into a drained inbox gets a
deadline not before the last settled block. -/
theorem never_violated {s : InboxChain}
    (hs : Reachable InboxChain.Start (guarded Timely (enabled InboxChain.exec)) s) :
    (∀ tx, s.inbox.pending s.inbox.includedCount = some tx →
      s.inbox.lastSettledTs ≤ tx.deadlineMs) ∧
    ∀ marginMs nonce deadlineMs settledTsMs,
      statusAt marginMs s ≠ .violated nonce deadlineMs settledTsMs := by
  have hmeets : OldestMeets s := by
    refine hs.inv (fun s hs => ?_) (fun s c t hi hst => hi.step hst.1 hst.2)
    obtain ⟨id, hinbox⟩ := hs
    intro tx htx
    rw [hinbox] at htx
    cases htx
  exact ⟨hmeets, hmeets.not_violated⟩

/-- A block stamped with the clock is settled, then a transaction is submitted. -/
theorem never_violated_single :
    ∃ s : InboxChain, Reachable InboxChain.Start (guarded Timely (enabled InboxChain.exec)) s ∧
      (s.inbox.pending 0).isSome ∧ ∀ marginMs nonce deadlineMs settledTsMs,
        statusAt marginMs s ≠ .violated nonce deadlineMs settledTsMs := by
  have hrun : Run (guarded Timely (enabled InboxChain.exec)) ⟨5, Inbox.initializeInbox 0⟩
      [.enforceSettle 5 0, .submit [1]] _ :=
    .cons ⟨trivial, rfl⟩ (.cons ⟨fun _ => (by decide : 5 ≤ 5 + 600000), rfl⟩ .nil)
  have hreach : Reachable InboxChain.Start (guarded Timely (enabled InboxChain.exec)) _ :=
    ⟨_, _, ⟨0, rfl⟩, hrun⟩
  exact ⟨_, hreach, rfl, (never_violated hreach).2⟩

/-- **A settle can pass a deadline that does not exist yet.** A block stamped two million
milliseconds ahead is settled while the inbox is empty; the next submission gets a deadline
before it, and once that has passed every full node reports a violation. -/
theorem violated_after_early_block :
    ¬ ∀ s, Reachable InboxChain.Start (enabled InboxChain.exec) s →
      ∀ marginMs nonce deadlineMs settledTsMs,
        statusAt marginMs s ≠ .violated nonce deadlineMs settledTsMs := by
  intro h
  have hrun : Run (enabled InboxChain.exec) ⟨0, Inbox.initializeInbox 0⟩
      [.enforceSettle 2000000 0, .submit [1], .tick 700000] _ := run_of_execAll rfl
  exact h _ ⟨_, _, ⟨0, rfl⟩, hrun⟩ 1000 0 600000 2000000 (by decide)

end DeadlineMonitor

end Podseq.Node
