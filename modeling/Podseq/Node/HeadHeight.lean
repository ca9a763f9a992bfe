import Podseq.Node.FullNode

/-! # The height of a full node's head

Whatever block is applied becomes the head, at the height of its own header: neither entry path
compares that height with `head_height`. And a restart takes the height of the last finalized block
for that of a head which may be ahead of it.
-/
namespace Podseq.Node
open Podseq.Lib

namespace FullNodeWorld

variable {src : NodeSources} {w w' : FullNodeWorld} {n n' : FullNode} {block : Block}
  {payload : ExecutionPayload} {status : PayloadStatus}

/-- The running node has this head, at this `head_height`. -/
def HeadIs (w : FullNodeWorld) (hash : B256) (height : Nat) : Prop :=
  ∃ n, w.node = some n ∧ n.head = hash ∧ n.headHeight = height

theorem applyBlock_unanswered {replies : ApplyReplies}
    (h : src.decode block.data = none ∨ replies.newPayload = none) :
    applyBlock src w n block replies = .error w := by
  unfold applyBlock
  obtain h | h := h
  · rw [h]
  · rw [h]
    cases src.decode block.data <;> rfl

/-- A payload that was submitted is the head, whatever happens next. -/
theorem applyBlock_answered {replies : ApplyReplies} (hd : src.decode block.data = some payload)
    (hreply : replies.newPayload = some status) :
    (applyBlock src w n block replies).world.HeadIs payload.blockHash block.header.height ∧
    ∀ {w' n'}, applyBlock src w n block replies = .ok (w', n') →
      w'.node = some n' ∧ n'.head = payload.blockHash ∧ n'.headHeight = block.header.height := by
  simp only [applyBlock, hd, hreply]
  cases replies.forkchoice with
  | none => exact ⟨⟨_, rfl, rfl, rfl⟩, fun h => by cases h⟩
  | some status' =>
    refine ⟨⟨_, rfl, rfl, rfl⟩, fun h => ?_⟩
    cases h
    exact ⟨rfl, rfl, rfl⟩

/-- Finalizing leaves the head alone. -/
theorem markFinalized_head {reply : Reply PayloadStatus} {saved : Bool} (hn : w.node = some n) :
    (markFinalized src w n block reply saved).world.HeadIs n.head n.headHeight := by
  obtain he | ⟨payload, -, ⟨-, he⟩ | ⟨status, -, he⟩⟩ :=
    markFinalized_cases src w n block reply saved
  · rw [he]
    exact ⟨n, hn, rfl, rfl⟩
  · rw [he]
    exact ⟨_, rfl, rfl, rfl⟩
  · rw [he]
    cases saved <;> exact ⟨_, rfl, rfl, rfl⟩

/-- Applying and finalizing a settled block. -/
theorem applyThenFinalize_answered {r : SyncReplies} (hd : src.decode block.data = some payload)
    (hreply : r.apply.newPayload = some status) :
    Outcome.world (do
      let (w, n) ← applyBlock src w n block r.apply
      markFinalized src w n block r.finalize r.saved)
      |>.HeadIs payload.blockHash block.header.height := by
  have hanswered : (applyBlock src w n block r.apply).world.HeadIs _ _ ∧ _ :=
    applyBlock_answered hd hreply
  obtain ⟨hhead, hok⟩ := hanswered
  cases ha : applyBlock src w n block r.apply with
  | error w₁ =>
    rw [ha] at hhead
    exact hhead
  | ok p =>
    obtain ⟨w₁, n₁⟩ := p
    obtain ⟨hn₁, hhash, hheight⟩ := hok ha
    rw [← hhash, ← hheight]
    exact markFinalized_head hn₁

end FullNodeWorld

/-- The world, with the greatest height that a head has had. -/
structure HeadHistory where
  world : FullNodeWorld
  top : Nat

namespace HeadHistory
open FullNodeWorld

/-- The history with the next world. `number` is the height of the block behind a hash. With
`restarts` the heads of earlier processes count too, otherwise a start begins anew. -/
def next (number : B256 → Nat) (restarts : Bool) (s : HeadHistory) (world : FullNodeWorld) :
    HeadHistory where
  world := world
  top := match world.node, s.world.node with
    | none, _ => s.top
    | some n, some _ => max s.top (number n.head)
    | some n, none => if restarts then max s.top (number n.head) else number n.head

def exec (src : NodeSources) (number : B256 → Nat) (restarts : Bool) (s : HeadHistory)
    (a : Action) : Option HeadHistory :=
  (s.world.exec src a).map (s.next number restarts)

/-- The data of a sequencer's block is the payload of its height. -/
def Genuine (src : NodeSources) (number : B256 → Nat) (block : Block) : Prop :=
  ∀ payload, src.decode block.data = some payload → number payload.blockHash = block.header.height

/-- Every block that peers and settled blobs deliver is a genuine one; what was announced is not
said. -/
def Delivers (src : NodeSources) (number : B256 → Nat) (s : HeadHistory) : Action → Prop
  | .pollP2p _ (some block) _ => Genuine src number block
  | .syncNext _ => ∀ n blocks block, s.world.node = some n →
    src.batchOf (n.syncedHeight + 1) = some blocks → block ∈ blocks → Genuine src number block
  | _ => True

/-- The steps of a node with any deliveries of genuine blocks. -/
def step (src : NodeSources) (number : B256 → Nat) (restarts : Bool) :
    HeadHistory → Action → HeadHistory → Prop :=
  guarded (Delivers src number) (enabled (exec src number restarts))

/-- `head_height` is the height of the head, and no head was higher. -/
def AtTop (number : B256 → Nat) (s : HeadHistory) : Prop :=
  ∀ n, s.world.node = some n → n.headHeight = number n.head ∧ s.top = number n.head

/-- The client lacks the settled block at its height, as far as the node can tell. -/
def Missing (n : FullNode) (r : SyncReplies) (block : Block) (payload : ExecutionPayload) : Prop :=
  n.headHeight < block.header.height ∨
    ∃ here, r.blockByNumber = some here ∧ here ≠ some payload.blockHash

/-- The block whose payload the step submits with an answer, by either entry path. -/
inductive Applies (src : NodeSources) (n : FullNode) : Action → Block → ExecutionPayload → Prop
  | poll {announced : Nat} {block : Block} {replies : ApplyReplies} {payload : ExecutionPayload}
    {status : PayloadStatus} (hannounced : n.syncedHeight < announced)
    (hsigned : verifyBlockSignature src.verify block)
    (hd : src.decode block.data = some payload) (hreply : replies.newPayload = some status) :
    Applies src n (.pollP2p announced (some block) replies) block payload
  | sync {r : SyncReplies} {blocks : List Block} {block : Block} {payload : ExecutionPayload}
    {status : PayloadStatus} (hbatch : src.batchOf (n.syncedHeight + 1) = some blocks)
    (hfetched : r.fetched = true)
    (hfind : blocks.find? (fun block => block.header.height = n.syncedHeight + 1) = some block)
    (hsigned : verifyBlockSignature src.verify block)
    (hd : src.decode block.data = some payload) (hmissing : Missing n r block payload)
    (hreply : r.apply.newPayload = some status) :
    Applies src n (.syncNext r) block payload

/-- A start finds a head of the height it goes by, and none that is older than the heads of before
if these count. -/
def StartsAtTop (number : B256 → Nat) (restarts : Bool) (s : HeadHistory) : Action → Prop
  | .boot head height =>
    (∀ stored state, s.world.disk.load = some stored → parseForkchoice stored = some state →
      stored.height = number state.headBlockHash ∧ (restarts → s.top ≤ stored.height)) ∧
    ∀ hash height', s.world.disk.load.bind parseForkchoice = none → head = some hash →
      height = some height' → height' = number hash ∧ (restarts → s.top ≤ height')
  | _ => True

/-- No block below `head_height` is applied, and every start is at the top. -/
def Climbs (src : NodeSources) (number : B256 → Nat) (restarts : Bool) (s : HeadHistory)
    (a : Action) : Prop :=
  (∀ n block payload, s.world.node = some n → Applies src n a block payload →
    n.headHeight ≤ block.header.height) ∧ s.StartsAtTop number restarts a

/-! ## What a step does to the head -/

variable {src : NodeSources} {number : B256 → Nat} {restarts : Bool} {s t : HeadHistory}
  {w w' : FullNodeWorld} {n : FullNode} {a : Action}

theorem Applies.decode {block : Block} {payload : ExecutionPayload}
    (h : Applies src n a block payload) : src.decode block.data = some payload := by
  cases h with
  | poll _ _ hd _ => exact hd
  | sync _ _ _ _ hd _ _ => exact hd

/-- A step applies one block at most. -/
theorem Applies.unique {block block' : Block} {payload payload' : ExecutionPayload}
    (h : Applies src n a block payload) (h' : Applies src n a block' payload') :
    block = block' := by
  cases h with
  | poll =>
    cases h'
    rfl
  | sync hbatch _ hfind =>
    cases h' with
    | sync hbatch' _ hfind' =>
      cases hbatch.symm.trans hbatch'
      exact Option.some.inj (hfind.symm.trans hfind')

theorem applyAndFinalize_missing {block : Block} {payload : ExecutionPayload} {r : SyncReplies}
    (hd : src.decode block.data = some payload) (hmissing : Missing n r block payload) :
    applyAndFinalize src w n block r = (do
      let (w, n) ← applyBlock src w n block r.apply
      markFinalized src w n block r.finalize r.saved) := by
  simp only [applyAndFinalize, hd]
  obtain hlt | ⟨here, hhere, hne⟩ := hmissing
  · rw [if_neg (Nat.not_le_of_lt hlt)]
  · simp only [hhere, if_neg hne, ite_self]

/-- A block that is there, or that the client does not answer about, is not submitted. -/
theorem applyAndFinalize_head {block : Block} {r : SyncReplies} (hn : w.node = some n)
    (h : ∀ payload status, src.decode block.data = some payload → Missing n r block payload →
      r.apply.newPayload ≠ some status) :
    (applyAndFinalize src w n block r).world.HeadIs n.head n.headHeight := by
  have hsame : w.HeadIs n.head n.headHeight := ⟨n, hn, rfl, rfl⟩
  cases hd : src.decode block.data with
  | none =>
    simp only [applyAndFinalize, hd]
    exact hsame
  | some payload =>
    by_cases hmissing : Missing n r block payload
    · have hnone : r.apply.newPayload = none :=
        Option.eq_none_iff_forall_ne_some.2 fun status => h payload status hd hmissing
      rw [applyAndFinalize_missing hd hmissing, applyBlock_unanswered (.inr hnone)]
      exact hsame
    · obtain ⟨hle, hhere⟩ := not_or.1 hmissing
      simp only [applyAndFinalize, hd]
      rw [if_pos (Nat.le_of_not_lt hle)]
      cases hreply : r.blockByNumber with
      | none => exact hsame
      | some here =>
        by_cases heq : here = some payload.blockHash
        · simp only [if_pos heq]
          exact markFinalized_head hn
        · exact absurd ⟨here, hreply, heq⟩ hhere

/-- An iteration of the sync applies a block, or leaves the head. -/
theorem syncNext_head (hn : w.node = some n) (r : SyncReplies) :
    (∃ block payload, Applies src n (.syncNext r) block payload ∧
      (w.syncNext src n r).world.HeadIs payload.blockHash block.header.height) ∨
    (∀ block payload, ¬Applies src n (.syncNext r) block payload) ∧
      (w.syncNext src n r).world.HeadIs n.head n.headHeight := by
  by_cases happlies : ∃ block payload, Applies src n (.syncNext r) block payload
  · obtain ⟨block, payload, h⟩ := happlies
    refine .inl ⟨block, payload, h, ?_⟩
    cases h with
    | sync hbatch hfetched hfind hsigned hd hmissing hreply =>
      simp only [syncNext, hbatch, hfetched, hfind, hsigned, if_true]
      rw [applyAndFinalize_missing hd hmissing]
      exact applyThenFinalize_answered hd hreply
  · have hnone : ∀ block payload, ¬Applies src n (.syncNext r) block payload :=
      fun block payload h => happlies ⟨block, payload, h⟩
    refine .inr ⟨hnone, ?_⟩
    have hsame : w.HeadIs n.head n.headHeight := ⟨n, hn, rfl, rfl⟩
    unfold syncNext
    dsimp only
    split
    · rename_i blocks hbatch hfetched
      split
      · exact hsame
      · rename_i block hfind
        split
        · rename_i hsigned
          refine applyAndFinalize_head hn fun payload status hd hmissing hreply => ?_
          exact hnone block payload (.sync hbatch hfetched hfind hsigned hd hmissing hreply)
        · exact hsame
    · exact hsame

/-- And so does a poll. -/
theorem pollP2p_head (hn : w.node = some n) (announced : Nat) (cached : Option Block)
    (replies : ApplyReplies) :
    (∃ block payload, Applies src n (.pollP2p announced cached replies) block payload ∧
      (w.pollP2p src n announced cached replies).world.HeadIs payload.blockHash
        block.header.height) ∨
    (∀ block payload, ¬Applies src n (.pollP2p announced cached replies) block payload) ∧
      (w.pollP2p src n announced cached replies).world.HeadIs n.head n.headHeight := by
  by_cases happlies : ∃ block payload,
      Applies src n (.pollP2p announced cached replies) block payload
  · obtain ⟨block, payload, h⟩ := happlies
    refine .inl ⟨block, payload, h, ?_⟩
    cases h with
    | poll hannounced hsigned hd hreply =>
      simp only [pollP2p, if_neg (Nat.not_le_of_lt hannounced), hsigned, if_true]
      exact (applyBlock_answered hd hreply).1
  · have hnone : ∀ block payload,
        ¬Applies src n (.pollP2p announced cached replies) block payload :=
      fun block payload h => happlies ⟨block, payload, h⟩
    refine .inr ⟨hnone, ?_⟩
    have hsame : w.HeadIs n.head n.headHeight := ⟨n, hn, rfl, rfl⟩
    unfold pollP2p
    split
    · exact hsame
    · rename_i hannounced
      split
      · exact hsame
      · rename_i block
        split
        · rename_i hsigned
          have hunanswered : src.decode block.data = none ∨ replies.newPayload = none := by
            by_contra hboth
            obtain ⟨hd, hreply⟩ := not_or.1 hboth
            obtain ⟨payload, hd⟩ := Option.ne_none_iff_exists'.1 hd
            obtain ⟨status, hreply⟩ := Option.ne_none_iff_exists'.1 hreply
            exact hnone block payload (.poll (Nat.lt_of_not_le hannounced) hsigned hd hreply)
          rw [applyBlock_unanswered hunanswered]
          exact hsame
        · exact hsame

/-- A running node that moved its head stays at the top when the new head is at its height and
not below the others. -/
theorem next_atTop_iff {hash : B256} {height : Nat} (hn : s.world.node = some n)
    (h : w'.HeadIs hash height) :
    (s.next number restarts w').AtTop number ↔ height = number hash ∧ s.top ≤ number hash := by
  obtain ⟨n', hn', rfl, rfl⟩ := h
  have htop : (s.next number restarts w').top = max s.top (number n'.head) := by
    simp only [next, hn', hn]
  constructor
  · intro hat
    obtain ⟨hheight, hmax⟩ := hat n' hn'
    rw [htop] at hmax
    exact ⟨hheight, max_eq_right_iff.1 hmax⟩
  · intro hat n'' hn''
    cases hn'.symm.trans hn''
    exact ⟨hat.1, htop.trans (max_eq_right hat.2)⟩

/-- The same for a node that starts. -/
theorem next_atTop_start_iff (hs : s.world.node = none) (hn : w'.node = some n) :
    (s.next number restarts w').AtTop number ↔
      n.headHeight = number n.head ∧ (restarts → s.top ≤ number n.head) := by
  have htop : (s.next number restarts w').top =
      if restarts then max s.top (number n.head) else number n.head := by
    simp only [next, hs, hn]
  constructor
  · intro hat
    obtain ⟨hheight, hmax⟩ := hat n hn
    refine ⟨hheight, fun hrestarts => ?_⟩
    rw [htop, if_pos hrestarts] at hmax
    exact max_eq_right_iff.1 hmax
  · intro hat n' hn'
    cases hn.symm.trans hn'
    refine ⟨hat.1, htop.trans ?_⟩
    split_ifs with hrestarts
    · exact max_eq_right (hat.2 hrestarts)
    · rfl

theorem next_atTop_none (hn : w'.node = none) : (s.next number restarts w').AtTop number := by
  intro n hn'
  cases hn.symm.trans hn'

/-- A start without a readable file asks the client. -/
theorem boot_of_no_file (h : w.disk.load.bind parseForkchoice = none) (head : Reply B256)
    (height : Reply Nat) :
    w.boot head height = (match head, height with
      | some hash, some height =>
        { w.set ⟨height, hash, height, hash, hash⟩ with adopted := (height, hash) :: w.adopted }
      | _, _ => w) := by
  have hnone : (w.disk.load.bind fun stored =>
      (parseForkchoice stored).map fun state => (stored.height, state)) = none := by
    rw [Option.bind_eq_none_iff] at h ⊢
    intro stored hl
    rw [h stored hl, Option.map_none]
  cases head <;> cases height <;> simp only [boot, hnone]

/-- A start is at the top exactly from a head that is. -/
theorem boot_atTop_iff (hs : s.world.node = none) (head : Reply B256) (height : Reply Nat) :
    (s.next number restarts (s.world.boot head height)).AtTop number ↔
      s.StartsAtTop number restarts (.boot head height) := by
  cases hfile : s.world.disk.load.bind parseForkchoice with
  -- the head and its height are those of the file
  | some state =>
    obtain ⟨stored, hl, hp⟩ := Option.bind_eq_some_iff.1 hfile
    have hboot : s.world.boot head height = s.world.set ⟨stored.height, state.headBlockHash,
        stored.height, state.safeBlockHash, state.finalizedBlockHash⟩ := by
      simp only [boot, hl, Option.bind_some, hp, Option.map_some]
    rw [hboot, next_atTop_start_iff hs rfl]
    constructor
    · intro h
      refine ⟨fun stored' state' hl' hp' => ?_, fun hash height' hnone => ?_⟩
      · cases hl.symm.trans hl'
        cases hp.symm.trans hp'
        exact ⟨h.1, fun hrestarts => (h.2 hrestarts).trans h.1.ge⟩
      · cases hfile.symm.trans hnone
    · intro h
      obtain ⟨hheight, htop⟩ := h.1 stored state hl hp
      exact ⟨hheight, fun hrestarts => (htop hrestarts).trans hheight.le⟩
  | none =>
    have hnofile : ∀ stored state, s.world.disk.load = some stored →
        parseForkchoice stored ≠ some state := by
      intro stored state hl hp
      rw [hl, Option.bind_some, hp] at hfile
      cases hfile
    have hboot := boot_of_no_file (w := s.world) hfile head height
    cases head with
    | none =>
      rw [hboot]
      refine iff_of_true (next_atTop_none hs) ⟨fun stored state hl hp => ?_, fun _ _ _ hhash => ?_⟩
      · exact absurd hp (hnofile stored state hl)
      · cases hhash
    -- without a file the node adopts the head of the client, if both requests are answered
    | some hash =>
      cases height with
      | none =>
        rw [hboot]
        refine iff_of_true (next_atTop_none hs)
          ⟨fun stored state hl hp => ?_, fun _ _ _ _ hnum => ?_⟩
        · exact absurd hp (hnofile stored state hl)
        · cases hnum
      | some height' =>
        rw [hboot, next_atTop_start_iff hs rfl]
        constructor
        · intro h
          refine ⟨fun stored state hl hp => absurd hp (hnofile stored state hl), ?_⟩
          intro hash' height'' _ hhash hnumber
          cases hhash
          cases hnumber
          exact ⟨h.1, fun hrestarts => (h.2 hrestarts).trans h.1.ge⟩
        · intro h
          obtain ⟨hheight, htop⟩ := h.2 hash height' hfile rfl rfl
          exact ⟨hheight, fun hrestarts => (htop hrestarts).trans hheight.le⟩

/-- A step that may submit a block stays at the top exactly if the block is not below the head. -/
theorem delivery_atTop_iff (hat : s.AtTop number) (hn : s.world.node = some n)
    (hgenuine : ∀ block payload, Applies src n a block payload → Genuine src number block)
    (hhead : (∃ block payload, Applies src n a block payload ∧
        w'.HeadIs payload.blockHash block.header.height) ∨
      (∀ block payload, ¬Applies src n a block payload) ∧ w'.HeadIs n.head n.headHeight) :
    (∀ n block payload, s.world.node = some n → Applies src n a block payload →
      n.headHeight ≤ block.header.height) ↔ (s.next number restarts w').AtTop number := by
  obtain ⟨hheight, htop⟩ := hat n hn
  obtain ⟨block, payload, happlies, hnew⟩ | ⟨hnone, hsame⟩ := hhead
  · have hnumber := hgenuine block payload happlies payload happlies.decode
    rw [next_atTop_iff hn hnew, hnumber, htop, ← hheight]
    constructor
    · intro h
      exact ⟨rfl, h n block payload hn happlies⟩
    · intro h n' block' payload' hn' happlies'
      cases hn.symm.trans hn'
      obtain rfl := happlies.unique happlies'
      exact h.2
  · rw [next_atTop_iff hn hsame]
    constructor
    · intro _
      exact ⟨hheight, htop.le⟩
    · intro _ n' block payload hn' happlies
      cases hn.symm.trans hn'
      exact absurd happlies (hnone block payload)

/-- A step that leaves the process alone. -/
theorem next_atTop_same (hat : s.AtTop number) (h : w'.node = s.world.node) :
    (s.next number restarts w').AtTop number := by
  cases hn : s.world.node with
  | none => exact next_atTop_none (h.trans hn)
  | some n =>
    obtain ⟨hheight, htop⟩ := hat n hn
    exact (next_atTop_iff hn ⟨n, h.trans hn, rfl, rfl⟩).2 ⟨hheight, htop.le⟩

theorem climbs_of_no_block (hstart : s.StartsAtTop number restarts a)
    (h : ∀ n block payload, ¬Applies src n a block payload) : s.Climbs src number restarts a :=
  ⟨fun n block payload _ happlies => absurd happlies (h n block payload), hstart⟩

/-- A step keeps the head at the top exactly if it climbs. -/
theorem climbs_iff (hat : s.AtTop number) (hst : step src number restarts s a t) :
    s.Climbs src number restarts a ↔ t.AtTop number := by
  obtain ⟨hdelivers, hexec⟩ := hst
  simp only [enabled, exec, Option.map_eq_some_iff] at hexec
  obtain ⟨w', hw', rfl⟩ := hexec
  cases a with
  | boot head height =>
    simp only [FullNodeWorld.exec] at hw'
    cases hs : s.world.node with
    | some n =>
      rw [hs] at hw'
      cases hw'
    | none =>
      rw [hs] at hw'
      cases hw'
      rw [boot_atTop_iff hs]
      refine ⟨fun h => h.2, fun h => ⟨fun n block payload hn => ?_, h⟩⟩
      cases hs.symm.trans hn
  | crash =>
    cases hw'
    exact iff_of_true (climbs_of_no_block trivial (fun _ _ _ h => by cases h))
      (next_atTop_none rfl)
  | loseFile | tearFile =>
    cases hw'
    exact iff_of_true (climbs_of_no_block trivial (fun _ _ _ h => by cases h))
      (next_atTop_same hat rfl)
  | syncNext r =>
    simp only [FullNodeWorld.exec, Option.map_eq_some_iff] at hw'
    obtain ⟨n, hn, rfl⟩ := hw'
    rw [← delivery_atTop_iff hat hn (fun block payload h => ?_) (syncNext_head hn r)]
    · exact and_iff_left trivial
    · cases h with
      | sync hbatch _ hfind => exact hdelivers n _ _ hn hbatch (List.mem_of_find?_eq_some hfind)
  | pollP2p announced cached replies =>
    simp only [FullNodeWorld.exec, Option.map_eq_some_iff] at hw'
    obtain ⟨n, hn, rfl⟩ := hw'
    rw [← delivery_atTop_iff hat hn (fun block payload h => ?_) (pollP2p_head hn _ _ replies)]
    · exact and_iff_left trivial
    · cases h with
      | poll => exact hdelivers

/-- **The head never rolls back exactly while every step climbs.** In every run on genuine blocks,
in any order and however often, under any announcements, `head_height` is the height of the head
and no head is below an earlier one, exactly if no step applies a block below `head_height` and
every start finds a head of the height it goes by. -/
theorem atTop_iff {as : List Action} :
    Run (guarded (Climbs src number restarts) (step src number restarts)) ⟨fresh, 0⟩ as s ↔
      Run (fun s a t => step src number restarts s a t ∧ t.AtTop number) ⟨fresh, 0⟩ as s := by
  refine run_guarded_iff (I := AtTop number) (fun s a t hat hst => climbs_iff hat hst)
    (fun s a t hat hst hclimbs => (climbs_iff hat hst).1 hclimbs) fun n hn => ?_
  cases hn

/-! ## A chain of two blocks -/

def secondPayload : ExecutionPayload :=
  { firstPayload with
    parentHash := firstPayload.blockHash, blockNumber := 2, blockHash := .repeated 3 }

def secondBlock : Block where
  header := ⟨2, firstPayload.blockHash, .repeated 2, 5⟩
  data := [2]
  signature := firstBlock.signature

def secondChain : NodeSources where
  verify message signature := (message = firstBlock.header.signingMessage ||
    message = secondBlock.header.signingMessage) && some signature = firstBlock.signature
  decode data := if data = firstBlock.data then some firstPayload
    else if data = secondBlock.data then some secondPayload else none
  batchOf height := if height = 1 then some [firstBlock]
    else if height = 2 then some [secondBlock] else none

def secondNumber (hash : B256) : Nat :=
  if hash = firstPayload.blockHash then 1 else if hash = secondPayload.blockHash then 2 else 0

theorem genuine_first : Genuine secondChain secondNumber firstBlock := by
  intro payload hd
  cases hd
  rfl

theorem genuine_second : Genuine secondChain secondNumber secondBlock := by
  intro payload hd
  cases hd
  rfl

/-- The second block arrives from a peer, and after it the first one, announced at its true height.
And when the first block is settled after the second one arrived, a restart goes by height 1 with
the second block as its head. -/
theorem head_rolls_back :
    (∃ (s t : HeadHistory) (n n' : FullNode),
      Run (step secondChain secondNumber false) ⟨fresh, 0⟩
        [.boot (some .zero) (some 0), .pollP2p 2 (some secondBlock) .allValid] s ∧
      step secondChain secondNumber false s (.pollP2p 1 (some firstBlock) .allValid) t ∧
      s.world.node = some n ∧ t.world.node = some n' ∧
      secondNumber n'.head < secondNumber n.head ∧ ¬t.AtTop secondNumber) ∧
    ∃ (s : HeadHistory) (n : FullNode),
      Run (step secondChain secondNumber false) ⟨fresh, 0⟩
        [.boot (some .zero) (some 0), .pollP2p 2 (some secondBlock) .allValid,
          .syncNext (.allValid (some firstPayload.blockHash)), .crash, .boot none none] s ∧
      s.world.node = some n ∧ n.headHeight ≠ secondNumber n.head := by
  constructor
  · have hrun : Run (step secondChain secondNumber false) ⟨fresh, 0⟩
        [.boot (some .zero) (some 0), .pollP2p 2 (some secondBlock) .allValid] _ :=
      .cons ⟨trivial, rfl⟩ <| .cons ⟨genuine_second, rfl⟩ .nil
    refine ⟨_, _, _, _, hrun, ⟨genuine_first, rfl⟩, rfl, rfl, by decide, fun hat => ?_⟩
    have htop := (hat _ rfl).2
    revert htop
    decide
  · have hsettled : Delivers secondChain secondNumber
        ⟨fresh.set ⟨0, .repeated 3, 2, .zero, .zero⟩, 2⟩
        (.syncNext (.allValid (some firstPayload.blockHash))) := by
      intro n blocks block hn hbatch hmem
      cases hn
      cases hbatch
      cases List.mem_singleton.1 hmem
      exact genuine_first
    have hrun : Run (step secondChain secondNumber false) ⟨fresh, 0⟩
        [.boot (some .zero) (some 0), .pollP2p 2 (some secondBlock) .allValid,
          .syncNext (.allValid (some firstPayload.blockHash)), .crash, .boot none none] _ :=
      .cons ⟨trivial, rfl⟩ <| .cons ⟨genuine_second, rfl⟩ <| .cons ⟨hsettled, rfl⟩ <|
        .cons ⟨trivial, rfl⟩ <| .cons ⟨trivial, rfl⟩ .nil
    exact ⟨_, _, hrun, rfl, by decide⟩

end HeadHistory

end Podseq.Node
