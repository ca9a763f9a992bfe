import Podseq.Node.BlockMessage
import Podseq.Node.SyncPass

/-! # The loop of a full node and its peers

Each tick syncs from the settlement and then polls one announcement. Peers announce and send what
they like, at any time. A poll takes the announced block out of the broadcast cache, and where it
is not there the loop waits for a message that brings it.
-/
namespace Podseq.Node
open Podseq.Lib

structure SyncEnv where
  chain : SettledChain
  sha256 : HashFn

inductive SyncPhase
  /-- Before the next tick. -/
  | ticking
  /-- Before `poll_p2p`. -/
  | polling
  /-- In `receive`, for an announced block. -/
  | receiving (announce : BlockAnnounce)

structure SyncLoop where
  world : FullNodeWorld
  /-- The UID of the commitments table was read. -/
  tableKnown : Bool
  phase : SyncPhase
  /-- The announcements that wait in the channel, as they were sent. -/
  announcements : List Bytes
  cache : BroadcastCache

namespace SyncLoop

/-- The block under a digest; of several, the one that came first. -/
def received (env : SyncEnv) (cache : BroadcastCache) (digest : FixedBytes 32) : Option Block :=
  cache.blocks.find? fun block => BlockMessage.digest env.sha256 block = digest

/-- The rest of `poll_p2p`, once `receive` has returned. -/
def applyReceived (env : SyncEnv) (s : SyncLoop) (n : FullNode) (announce : BlockAnnounce)
    (block : Block) (replies : ApplyReplies) : SyncLoop :=
  { s with
    world := (s.world.pollP2p env.chain.sources n announce.height (some block) replies).world
    phase := .ticking }

/-- `poll_p2p`: takes the next announcement; a malformed one and one at or below the frontier
are skipped. -/
def poll (env : SyncEnv) (s : SyncLoop) (n : FullNode) (replies : ApplyReplies) : SyncLoop :=
  match s.announcements with
  | [] => { s with phase := .ticking }
  | bytes :: announcements =>
    match BlockAnnounce.decode bytes with
    | none => { s with announcements, phase := .ticking }
    | some announce =>
      if announce.height ≤ n.syncedHeight then { s with announcements, phase := .ticking }
      else match received env s.cache announce.digest with
        | some block => applyReceived env { s with announcements } n announce block replies
        | none => { s with announcements, phase := .receiving announce }

/-- `sync_from_settlement`, whose errors are logged. -/
def sync (env : SyncEnv) (s : SyncLoop) (n : FullNode) (r : PassReplies) : SyncLoop :=
  { s with
    world := (FullNodeWorld.syncFromSettlement env.chain r s.tableKnown s.world n).world
    tableKnown := s.tableKnown || (r.latest.any (n.syncedHeight < ·) && r.tableUid)
    phase := .polling }

inductive Action
  /-- A peer announces anything. -/
  | announce (bytes : Bytes)
  /-- A peer sends anything. -/
  | message (bytes : Bytes) (replies : ApplyReplies)
  /-- The cache drops a message. -/
  | evict (i : Nat)
  /-- A tick while the deadline monitor halts the node. -/
  | halted
  | sync (r : PassReplies)
  | poll (replies : ApplyReplies)

/-- A message goes into the cache, and a `receive` that waits for it returns. -/
def deliver (env : SyncEnv) (s : SyncLoop) (n : FullNode) (bytes : Bytes)
    (replies : ApplyReplies) : SyncLoop :=
  let s := { s with cache := { s.cache with messages := s.cache.messages ++ [bytes] } }
  match s.phase with
  | .receiving announce =>
    match received env s.cache announce.digest with
    | some block => applyReceived env s n announce block replies
    | none => s
  | _ => s

def step (env : SyncEnv) (s : SyncLoop) (a : Action) : Option SyncLoop :=
  match s.world.node with
  | none => none
  | some n =>
    match a, s.phase with
    | .announce bytes, _ => some { s with announcements := s.announcements ++ [bytes] }
    | .message bytes replies, _ => some (s.deliver env n bytes replies)
    | .evict i, _ =>
      some { s with cache := { s.cache with messages := s.cache.messages.eraseIdx i } }
    | .halted, .ticking => some s
    | .sync r, .ticking => some (s.sync env n r)
    | .poll replies, .polling => some (s.poll env n replies)
    | _, _ => none

/-- A node that starts its loop with everything up to `height` synced. -/
def Start (height : Nat) (s : SyncLoop) : Prop :=
  s.phase = .ticking ∧ s.world.verified = [] ∧
    ∃ n, s.world.node = some n ∧ n.syncedHeight = height

/-- The loop goes on only when some peer sends a message. -/
def Blocked (s : SyncLoop) : Prop := ∃ announce, s.phase = .receiving announce

/-- The announcement that a poll takes, if it is above the frontier, is of a block in the cache. -/
def Delivered (env : SyncEnv) (s : SyncLoop) : Action → Prop
  | .poll _ => ∀ n bytes rest announce, s.world.node = some n →
      s.announcements = bytes :: rest → BlockAnnounce.decode bytes = some announce →
      n.syncedHeight < announce.height → (received env s.cache announce.digest).isSome
  | _ => True

/-! ## The finalized blocks -/

variable {env : SyncEnv} {s t s₀ : SyncLoop} {a : Action} {n : FullNode} {start : Nat}
  {as : List Action}

theorem pollP2p_stays {w : FullNodeWorld} {src : NodeSources} {announced : Nat}
    {cached : Option Block} {replies : ApplyReplies} (hn : w.node = some n) :
    FullNodeWorld.Stays w n (w.pollP2p src n announced cached replies).world := by
  obtain he | ⟨block, -, -, he⟩ := FullNodeWorld.pollP2p_cases src w n announced cached replies
  · rw [he]
    exact ⟨n, hn, rfl, rfl⟩
  · rw [he]
    exact (FullNodeWorld.applyBlock_stays block replies hn).1

/-- What `Delivered` says of the announcement that is polled. -/
theorem delivered_iff {replies : ApplyReplies} {bytes : Bytes} {rest : List Bytes}
    (hn : s.world.node = some n) (hcons : s.announcements = bytes :: rest) :
    Delivered env s (.poll replies) ↔ ∀ announce, BlockAnnounce.decode bytes = some announce →
      n.syncedHeight < announce.height → (received env s.cache announce.digest).isSome := by
  constructor
  · intro h announce hdecode hlt
    exact h n bytes rest announce hn hcons hdecode hlt
  · intro h n' bytes' rest' announce hn' hcons' hdecode hlt
    rw [hn] at hn'
    rw [hcons] at hcons'
    cases hn'
    cases hcons'
    exact h announce hdecode hlt

theorem not_blocked (h : s.phase = .ticking) : ¬s.Blocked := by
  intro hblocked
  obtain ⟨announce, hphase⟩ := hblocked
  rw [h] at hphase
  cases hphase

/-- A poll leaves the finalized blocks alone, and blocks exactly when its announcement was not
delivered. -/
theorem poll_spec {replies : ApplyReplies} (hn : s.world.node = some n) :
    FullNodeWorld.Stays s.world n (s.poll env n replies).world ∧
      (Delivered env s (.poll replies) ↔ ¬(s.poll env n replies).Blocked) := by
  have hsame : FullNodeWorld.Stays s.world n s.world := ⟨n, hn, rfl, rfl⟩
  unfold poll
  split
  · rename_i hnone
    refine ⟨hsame, iff_of_true (fun _ _ _ _ _ hcons => ?_) (not_blocked rfl)⟩
    rw [hnone] at hcons
    cases hcons
  · rename_i bytes rest hcons
    rw [delivered_iff hn hcons]
    split
    · rename_i hmalformed
      refine ⟨hsame, iff_of_true (fun announce hdecode => ?_) (not_blocked rfl)⟩
      rw [hmalformed] at hdecode
      cases hdecode
    · rename_i announce hdecode
      simp only [hdecode, Option.some.injEq, forall_eq']
      split
      · rename_i hstale
        exact ⟨hsame, iff_of_true (fun hlt => absurd hlt hstale.not_gt) (not_blocked rfl)⟩
      · rename_i habove
        split
        · rename_i block hreceived
          refine ⟨pollP2p_stays hn, iff_of_true (fun _ => ?_) (not_blocked rfl)⟩
          rw [hreceived]
          rfl
        · rename_i hmissing
          refine ⟨hsame, iff_of_false (fun h => ?_) (not_not.2 ⟨announce, rfl⟩)⟩
          have hsome := h (Nat.lt_of_not_le habove)
          rw [hmissing] at hsome
          cases hsome

theorem deliver_stays {bytes : Bytes} {replies : ApplyReplies} (hn : s.world.node = some n) :
    FullNodeWorld.Stays s.world n (s.deliver env n bytes replies).world := by
  unfold deliver
  dsimp only
  split
  · split
    · exact pollP2p_stays hn
    · exact ⟨n, hn, rfl, rfl⟩
  · exact ⟨n, hn, rfl, rfl⟩

/-- A message never makes the loop wait. -/
theorem deliver_not_blocked {bytes : Bytes} {replies : ApplyReplies} (hs : ¬s.Blocked) :
    ¬(s.deliver env n bytes replies).Blocked := by
  unfold deliver
  dsimp only
  split
  · rename_i announce hphase
    exact absurd ⟨announce, hphase⟩ hs
  · exact hs

/-- What one step does: a sync marks settled blocks, nothing else marks any. -/
theorem step_finalized (h : enabled (step env) s a t)
    (hs : FullNodeWorld.Finalized env.chain start s.world n) :
    ∃ n', FullNodeWorld.Finalized env.chain start t.world n' := by
  have hn := hs.1
  simp only [enabled, step, hn] at h
  split at h <;> cases h
  · exact ⟨n, hs⟩
  · exact (deliver_stays hn).finalized hs
  · exact ⟨n, hs⟩
  · exact ⟨n, hs⟩
  · exact FullNodeWorld.syncFromSettlement_finalized hs
  · exact (poll_spec hn).1.finalized hs

/-- The loop starts to wait in a poll whose announcement was not delivered, and nowhere else. -/
theorem step_delivered_iff (hs : ¬s.Blocked) (h : enabled (step env) s a t) :
    Delivered env s a ↔ ¬t.Blocked := by
  cases hn : s.world.node with
  | none => simp [enabled, step, hn] at h
  | some n =>
    simp only [enabled, step, hn] at h
    split at h <;> cases h
    · exact iff_of_true trivial hs
    · exact iff_of_true trivial (deliver_not_blocked hs)
    · exact iff_of_true trivial hs
    · exact iff_of_true trivial hs
    · refine iff_of_true trivial ?_
      intro hblocked
      obtain ⟨announce, hphase⟩ := hblocked
      cases hphase
    · exact (poll_spec hn).2

/-- A loop that waits is left as it is by everything but a message. -/
theorem step_blocked (hs : s.Blocked) (hmessage : ∀ bytes replies, a ≠ .message bytes replies)
    (h : enabled (step env) s a t) : t.world = s.world ∧ t.Blocked := by
  obtain ⟨announce, hphase⟩ := hs
  cases hn : s.world.node with
  | none => simp [enabled, step, hn] at h
  | some n =>
    simp only [enabled, step, hn, hphase] at h
    cases a with
    | announce bytes =>
      cases h
      exact ⟨rfl, announce, rfl⟩
    | message bytes replies => exact absurd rfl (hmessage bytes replies)
    | evict i =>
      cases h
      exact ⟨rfl, announce, rfl⟩
    | halted => cases h
    | sync r => cases h
    | poll replies => cases h

theorem run_blocked (h : Run (enabled (step env)) s as t) (hs : s.Blocked)
    (hmessage : ∀ a ∈ as, ∀ bytes replies, a ≠ Action.message bytes replies) :
    t.world = s.world ∧ t.Blocked := by
  induction h with
  | nil => exact ⟨rfl, hs⟩
  | cons hst _ ih =>
    obtain ⟨hworld, hblocked⟩ := step_blocked hs (hmessage _ List.mem_cons_self) hst
    obtain ⟨hworld', hblocked'⟩ := ih hblocked fun a ha => hmessage a (List.mem_cons_of_mem _ ha)
    exact ⟨hworld'.trans hworld, hblocked'⟩

theorem run_finalized (hstart : Start start s₀) (h : Run (enabled (step env)) s₀ as s) :
    ∃ n, FullNodeWorld.Finalized env.chain start s.world n := by
  refine h.inv (I := fun s => ∃ n, FullNodeWorld.Finalized env.chain start s.world n)
    (fun s a t hs hst => ?_) ?_
  · obtain ⟨n, hn⟩ := hs
    exact step_finalized hst hn
  · obtain ⟨-, hverified, n, hn, hheight⟩ := hstart
    refine ⟨n, hn, hheight.ge, ?_⟩
    rw [hverified, hheight, Nat.sub_self]
    rfl

/-- **Peers cannot change what is finalized, only stop it.** Whatever peers announce and send, the
node marks the settled blocks after its start in the order of their heights; a pass that reuses a
blob does what one does that fetches each anew; and the runs in which the loop never waits for a
peer are those in which each polled announcement above the frontier was delivered. -/
theorem finalized_and_unblocked_iff (hstart : Start start s₀) :
    (∀ as s, Run (enabled (step env)) s₀ as s →
      ∃ n, FullNodeWorld.Finalized env.chain start s.world n) ∧
    (∀ r k w n, w.node = some n →
      FullNodeWorld.syncFrom env.chain r k (n.syncedHeight + 1) none w n =
        FullNodeWorld.refetchFrom env.chain r k w n) ∧
    ∀ as s, Run (guarded (Delivered env) (enabled (step env))) s₀ as s ↔
      Run (fun s a t => enabled (step env) s a t ∧ ¬t.Blocked) s₀ as s := by
  refine ⟨fun as s hrun => run_finalized hstart hrun, fun r k w n hn => ?_, fun as s => ?_⟩
  · exact FullNodeWorld.syncFrom_eq_refetchFrom (fun id blocks h => by cases h) hn
  · exact run_guarded_iff (P := fun s : SyncLoop => ¬s.Blocked)
      (fun s a t hs hst => step_delivered_iff hs hst)
      (fun s a t hs hst hmet => (step_delivered_iff hs hst).1 hmet) (not_blocked hstart.1)

/-! ## A chain of one block, and a peer -/

def firstEnv : SyncEnv where
  chain :=
    { verify := (firstChain true).verify
      decode := (firstChain true).decode
      commitmentAt := fun height => if height = 1 then some (FixedBytes.zero 32) else none
      blob := fun _ => [firstBlock] }
  sha256 := BroadcastCache.lengthHash

def idle : SyncLoop where
  world := FullNodeWorld.fresh.set ⟨0, .zero, 0, .zero, .zero⟩
  tableKnown := false
  phase := .ticking
  announcements := []
  cache := ⟨fun _ => none, []⟩

def readAll (latest : Nat) : PassReplies where
  latest := some latest
  tableUid := true
  committed := fun _ => true
  fetched := fun _ => true
  next := fun _ => .allValid none

/-- An announcement of height 9 with an invented digest. -/
def invented : Bytes := BlockAnnounce.encode ⟨9, FixedBytes.zero 32⟩

/-- A node at height 0 in whose network the message `[0]` is the first block. -/
def listening : SyncLoop :=
  { idle with cache := ⟨fun bytes => if bytes = [0] then some firstBlock else none, []⟩ }

def announced : Bytes := (BlockAnnounce.ofBlock firstEnv.sha256 firstBlock).encode

/-- The first block is sent and announced, taken from the peers, and settled only then. -/
def overheard : List Action :=
  [.message [0] .allValid, .announce announced, .sync (readAll 0), .poll .allValid,
    .sync (readAll 1)]

theorem overheard_delivered {replies : ApplyReplies}
    (hnode : s.world.node = some ⟨0, .zero, 0, .zero, .zero⟩)
    (hannouncements : s.announcements = [announced])
    (hcache : s.cache = ⟨listening.cache.readBlock, [[0]]⟩) :
    Delivered firstEnv s (.poll replies) := by
  rw [delivered_iff hnode hannouncements]
  intro announce hdecode _
  rw [announced, BlockAnnounce.decode_encode (by decide)] at hdecode
  cases hdecode
  rw [hcache]
  rfl

set_option maxRecDepth 4000 in
theorem finalized_and_unblocked_iff_overheard : ∃ s : SyncLoop,
    Run (fun s a t => enabled (step firstEnv) s a t ∧ ¬t.Blocked) listening overheard s ∧
    s.world.verified = [(1, .repeated 1)] ∧
    ∃ n, FullNodeWorld.Finalized firstEnv.chain 0 s.world n := by
  have hstart : Start 0 listening := ⟨rfl, rfl, _, rfl, rfl⟩
  obtain ⟨hfinalized, -, hiff⟩ := @finalized_and_unblocked_iff firstEnv _ _ hstart
  obtain ⟨s, hrun, hverified⟩ : ∃ s : SyncLoop,
      Run (guarded (Delivered firstEnv) (enabled (step firstEnv))) listening overheard s ∧
      s.world.verified = [(1, .repeated 1)] :=
    ⟨_, .cons ⟨trivial, rfl⟩ <| .cons ⟨trivial, rfl⟩ <| .cons ⟨trivial, rfl⟩ <|
      .cons ⟨overheard_delivered rfl rfl rfl, rfl⟩ <| .cons ⟨trivial, rfl⟩ .nil, by decide⟩
  exact ⟨s, (hiff _ _).1 hrun, hverified, hfinalized _ _ (hrun.mono fun _ _ _ h => h.2)⟩

/-- The node polls the invented announcement before block 1 is settled, and never finalizes it
unless a peer sends a message. -/
theorem invented_announcement_blocks : ∃ s : SyncLoop,
    Run (enabled (step firstEnv)) idle
      [.announce invented, .sync (readAll 0), .poll .allValid] s ∧
    firstEnv.chain.mark 1 = some (1, .repeated 1) ∧
    ∀ as t, Run (enabled (step firstEnv)) s as t →
      (∀ a ∈ as, ∀ bytes replies, a ≠ Action.message bytes replies) →
      t.Blocked ∧ t.world.verified = [] := by
  obtain ⟨s, hrun, hblocked, hverified⟩ : ∃ s : SyncLoop, Run (enabled (step firstEnv)) idle
      [.announce invented, .sync (readAll 0), .poll .allValid] s ∧ s.Blocked ∧
      s.world.verified = [] := by
    exact ⟨_, run_of_execAll rfl, ⟨_, rfl⟩, rfl⟩
  refine ⟨s, hrun, by decide, fun as t ht hmessage => ?_⟩
  obtain ⟨hworld, hblocked'⟩ := run_blocked ht hblocked hmessage
  exact ⟨hblocked', by rw [hworld, hverified]⟩

end SyncLoop

end Podseq.Node
