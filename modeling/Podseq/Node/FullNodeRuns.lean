import Podseq.Node.SyncLoop

/-! # A full node over its crashes and restarts

Beside the loop, the process may crash, its state file may be lost or torn, and it may start
again. A step marks a block only as the chain has it; the frontier in memory and the one in the
file are of marked blocks, or of a head that a start without a file adopted. A pass whose requests
are all answered marks everything up to the latest height.
-/
namespace Podseq.Node
open Podseq.Lib

namespace FullNodeWorld

variable {c : SettledChain} {r : PassReplies} {w w' w'' : FullNodeWorld} {n n' : FullNode}
  {block : Block} {height k : Nat} {tableKnown : Bool}

/-- What a step does to the blocks marked and to the two frontiers. -/
structure Follows (c : SettledChain) (w w' : FullNodeWorld) : Prop where
  verified : ∀ e ∈ w'.verified, e ∈ w.verified ∨ c.mark e.1 = some e
  kept : ∀ e ∈ w.verified, e ∈ w'.verified
  adopted : w'.adopted = w.adopted
  node : ∀ n', w'.node = some n' → (n'.syncedHeight, n'.finalized) ∈ w'.verified ∨
    ∃ n, w.node = some n ∧ n'.syncedHeight = n.syncedHeight ∧ n'.finalized = n.finalized
  disk : ∀ stored state, w'.disk.load = some stored → parseForkchoice stored = some state →
    (stored.height, state.finalizedBlockHash) ∈ w'.verified ∨ w.disk.load = some stored

theorem Follows.refl (c : SettledChain) (w : FullNodeWorld) : Follows c w w :=
  ⟨fun _ he => .inl he, fun _ => id, rfl, fun n hn => .inr ⟨n, hn, rfl, rfl⟩,
    fun _ _ hload _ => .inr hload⟩

theorem Follows.trans (h : Follows c w w') (k : Follows c w' w'') : Follows c w w'' := by
  refine ⟨fun e he => ?_, fun e he => k.kept e (h.kept e he), k.adopted.trans h.adopted,
    fun n'' hn'' => ?_, fun stored state hload hparse => ?_⟩
  · rcases k.verified e he with he | hmark
    · exact h.verified e he
    · exact .inr hmark
  · rcases k.node n'' hn'' with hmem | ⟨n', hn', hheight', hfinal'⟩
    · exact .inl hmem
    · rcases h.node n' hn' with hmem | ⟨n, hn, hheight, hfinal⟩
      · left
        rw [hheight', hfinal']
        exact k.kept _ hmem
      · exact .inr ⟨n, hn, hheight'.trans hheight, hfinal'.trans hfinal⟩
  · rcases k.disk stored state hload hparse with hmem | hload'
    · exact .inl hmem
    · exact (h.disk stored state hload' hparse).imp_left (k.kept _)

/-- A step that leaves the marked blocks and the frontiers alone. -/
theorem Follows.same (hverified : w'.verified = w.verified) (hadopted : w'.adopted = w.adopted)
    (hdisk : w'.disk = w.disk) (hnode : ∀ n', w'.node = some n' → ∃ n, w.node = some n ∧
      n'.syncedHeight = n.syncedHeight ∧ n'.finalized = n.finalized) : Follows c w w' := by
  refine ⟨fun e he => .inl (hverified ▸ he), fun e he => hverified.symm ▸ he, hadopted,
    fun n' hn' => .inr (hnode n' hn'), fun stored state hload _ => .inr (hdisk ▸ hload)⟩

theorem applyBlock_follows (block : Block) (replies : ApplyReplies) (hn : w.node = some n) :
    Follows c w (applyBlock c.sources w n block replies).world := by
  obtain he | ⟨payload, status, -, -, ⟨-, he⟩ | ⟨status', -, he⟩⟩ :=
    applyBlock_cases c.sources w n block replies
  · rw [he]
    exact .refl c w
  all_goals
    rw [he]
    refine .same rfl rfl rfl fun n' hn' => ?_
    cases hn'
    exact ⟨n, hn, rfl, rfl⟩

theorem markFinalized_follows {reply : Reply PayloadStatus} {saved : Bool}
    (hmark : ∀ payload, c.decode block.data = some payload →
      c.mark block.header.height = some (block.header.height, payload.blockHash)) :
    Follows c w (markFinalized c.sources w n block reply saved).world := by
  obtain he | ⟨payload, hd, hcase⟩ := markFinalized_cases c.sources w n block reply saved
  · rw [he]
    exact .refl c w
  have hnew : (block.header.height, payload.blockHash) ∈
      (block.header.height, payload.blockHash) :: w.verified := List.mem_cons_self
  have hverified : ∀ e ∈ (block.header.height, payload.blockHash) :: w.verified,
      e ∈ w.verified ∨ c.mark e.1 = some e := by
    intro e he
    rcases List.mem_cons.1 he with rfl | he
    · exact .inr (hmark payload hd)
    · exact .inl he
  obtain ⟨-, he⟩ | ⟨status, -, he⟩ := hcase
  · rw [he]
    refine ⟨hverified, fun e => List.mem_cons_of_mem _, rfl, fun n' hn' => ?_,
      fun stored state hload _ => .inr hload⟩
    cases hn'
    exact .inl hnew
  · rw [he]
    cases saved with
    | true =>
      refine ⟨hverified, fun e => List.mem_cons_of_mem _, rfl, fun n' hn' => ?_,
        fun stored state hload hparse => .inl ?_⟩
      · cases hn'
        exact .inl hnew
      · cases hload
        rw [parseForkchoice_stored] at hparse
        cases hparse
        exact hnew
    | false =>
      refine ⟨hverified, fun e => List.mem_cons_of_mem _, rfl, fun n' hn' => ?_,
        fun stored state hload _ => .inr hload⟩
      cases hn'
      exact .inl hnew

theorem applyAndFinalize_follows {replies : SyncReplies} (hn : w.node = some n)
    (hmark : ∀ payload, c.decode block.data = some payload →
      c.mark block.header.height = some (block.header.height, payload.blockHash)) :
    Follows c w (applyAndFinalize c.sources w n block replies).world := by
  obtain he | ⟨-, -, -, he⟩ | he := applyAndFinalize_cases c.sources w n block replies
  · rw [he]
    exact .refl c w
  · rw [he]
    exact markFinalized_follows hmark
  · have happly : Follows c w (applyBlock c.sources w n block replies.apply).world :=
      applyBlock_follows block replies.apply hn
    rw [he]
    cases ha : applyBlock c.sources w n block replies.apply with
    | error w' =>
      rw [ha] at happly
      exact happly
    | ok result =>
      obtain ⟨w', n'⟩ := result
      rw [ha] at happly
      exact happly.trans (markFinalized_follows hmark)

/-- The block of an iteration is the one settled for its height. -/
theorem syncBlock_follows {id : BlobId} {replies : SyncReplies} (hn : w.node = some n)
    (hid : c.commitmentAt height = some id) :
    Follows c w (syncBlock c.sources w n height (c.blob id) replies).world := by
  unfold syncBlock
  split
  · exact .refl c w
  · rename_i block hfind
    have hheight : block.header.height = height := by simpa using List.find?_some hfind
    have hblock : c.blockAt height = some block := by
      simp only [SettledChain.blockAt, hid]
      exact hfind
    split
    · refine applyAndFinalize_follows hn fun payload hd => ?_
      rw [hheight]
      simp [SettledChain.mark, hblock, hd]
    · exact .refl c w

theorem syncFrom_follows {cached : Option (BlobId × List Block)} (hcache : CacheOk c r cached)
    (hn : w.node = some n) : Follows c w (syncFrom c r k height cached w n).world := by
  induction k generalizing cached w n height with
  | zero => exact .refl c w
  | succ k ih =>
    rw [syncFrom]
    split
    · exact .refl c w
    · rename_i id hid
      rw [readCommitment, Option.ite_none_right_eq_some] at hid
      rw [lookup_eq hcache]
      split
      · exact .refl c w
      · rename_i blocks hfetch
        have hnext := cacheOk_fetched hfetch
        obtain ⟨-, rfl⟩ := fetch_eq_some hfetch
        have hblock : Follows c w
            (syncBlock c.sources w n height (c.blob id) (r.next height)).world :=
          syncBlock_follows hn hid.2
        obtain ⟨w', he⟩ | ⟨⟨w', n'⟩, he⟩ := error_or_ok
          (syncBlock c.sources w n height (c.blob id) (r.next height))
        · rw [he] at hblock ⊢
          exact hblock
        · obtain ⟨hn', -⟩ := syncBlock_cursor hn he
          rw [he] at hblock ⊢
          rw [ok_bind]
          exact hblock.trans (ih hnext hn')

theorem syncFromSettlement_follows (hn : w.node = some n) :
    Follows c w (syncFromSettlement c r tableKnown w n).world := by
  unfold syncFromSettlement
  split
  · exact .refl c w
  · split
    · exact .refl c w
    · split
      · exact syncFrom_follows (fun id blocks h => by cases h) hn
      · exact .refl c w

theorem pollP2p_follows {announced : Nat} {cached : Option Block} {replies : ApplyReplies}
    (hn : w.node = some n) :
    Follows c w (w.pollP2p c.sources n announced cached replies).world := by
  obtain he | ⟨block, -, -, he⟩ := pollP2p_cases c.sources w n announced cached replies
  · rw [he]
    exact .refl c w
  · rw [he]
    exact applyBlock_follows block replies hn

end FullNodeWorld

/-! ## A pass that is answered -/

/-- The execution client answers, whatever its verdict. -/
structure SyncReplies.Answered (replies : SyncReplies) : Prop where
  blockByNumber : replies.blockByNumber.isSome
  newPayload : replies.apply.newPayload.isSome
  forkchoice : replies.apply.forkchoice.isSome
  finalize : replies.finalize.isSome

structure PassReplies.Answered (r : PassReplies) : Prop where
  tableUid : r.tableUid
  committed : ∀ height, r.committed height
  fetched : ∀ id, r.fetched id
  next : ∀ height, (r.next height).Answered

namespace FullNodeWorld

variable {c : SettledChain} {r : PassReplies} {w w' : FullNodeWorld} {n n' : FullNode}
  {block : Block} {height k : Nat} {payload : ExecutionPayload} {replies : SyncReplies}

/-- The block settled for a height is there, signed, and of a payload. -/
def Syncable (c : SettledChain) (height : Nat) : Prop :=
  ∃ block payload, c.blockAt height = some block ∧ verifyBlockSignature c.verify block ∧
    c.decode block.data = some payload

theorem applyBlock_returns (hd : c.decode block.data = some payload) (ha : replies.Answered) :
    ∃ w' n', applyBlock c.sources w n block replies.apply = .ok (w', n') := by
  obtain ⟨status, hnew⟩ := Option.isSome_iff_exists.1 ha.newPayload
  obtain ⟨status', hforkchoice⟩ := Option.isSome_iff_exists.1 ha.forkchoice
  have hd' : c.sources.decode block.data = some payload := hd
  simp only [applyBlock, hd', hnew, hforkchoice]
  exact ⟨_, _, rfl⟩

theorem markFinalized_returns (hd : c.decode block.data = some payload) (ha : replies.Answered) :
    ∃ w' n', markFinalized c.sources w n block replies.finalize replies.saved = .ok (w', n') := by
  obtain ⟨status, hfinalize⟩ := Option.isSome_iff_exists.1 ha.finalize
  have hd' : c.sources.decode block.data = some payload := hd
  simp only [markFinalized, hd', hfinalize]
  exact ⟨_, _, rfl⟩

theorem applyAndFinalize_returns (hd : c.decode block.data = some payload) (ha : replies.Answered) :
    ∃ w' n', applyAndFinalize c.sources w n block replies = .ok (w', n') := by
  have hthen : ∃ w' n', (applyBlock c.sources w n block replies.apply >>= fun p =>
      markFinalized c.sources p.1 p.2 block replies.finalize replies.saved) = .ok (w', n') := by
    obtain ⟨w₁, n₁, happly⟩ := applyBlock_returns (w := w) (n := n) hd ha
    rw [happly, ok_bind]
    exact markFinalized_returns hd ha
  obtain ⟨here, hhere⟩ := Option.isSome_iff_exists.1 ha.blockByNumber
  have hd' : c.sources.decode block.data = some payload := hd
  simp only [applyAndFinalize, hd', hhere]
  split
  · split
    · exact markFinalized_returns hd ha
    · exact hthen
  · exact hthen

/-- An iteration whose requests are answered marks the block settled for its height. -/
theorem syncBlock_syncs {id : BlobId} (hn : w.node = some n) (ha : replies.Answered)
    (hid : c.commitmentAt height = some id) (hsync : Syncable c height) :
    ∃ w' n' mark, syncBlock c.sources w n height (c.blob id) replies = .ok (w', n') ∧
      w'.node = some n' ∧ n'.syncedHeight = height ∧ c.mark height = some mark ∧
      w'.verified = mark :: w.verified := by
  obtain ⟨block, payload, hblock, hsigned, hdecode⟩ := hsync
  have hfind : (c.blob id).find? (fun b => b.header.height = height) = some block := by
    rw [SettledChain.blockAt, hid] at hblock
    exact hblock
  have hheight : block.header.height = height := by simpa using List.find?_some hfind
  have hsyncBlock : syncBlock c.sources w n height (c.blob id) replies =
      applyAndFinalize c.sources w n block replies := by
    simp only [syncBlock, hfind]
    exact if_pos hsigned
  rw [hsyncBlock]
  obtain ⟨w', n', hok⟩ := applyAndFinalize_returns (w := w) (n := n) hdecode ha
  obtain ⟨w₁, herror, -⟩ | ⟨w₁, n₁, hok₁, payload', hdecode', hn', hcursor, hverified⟩ :=
    applyAndFinalize_marks c.sources block replies hn
  · rw [hok] at herror
    cases herror
  · have hsame : payload = payload' := Option.some.inj (hdecode.symm.trans hdecode')
    subst hsame
    refine ⟨w₁, n₁, (height, payload.blockHash), hok₁, hn', hcursor.trans hheight, ?_, ?_⟩
    · simp [SettledChain.mark, hblock, hdecode]
    · rw [hverified, hheight]

theorem syncFrom_syncs {cached : Option (BlobId × List Block)} (hcache : CacheOk c r cached)
    (hn : w.node = some n) (ha : r.Answered)
    (hsync : ∀ h, n.syncedHeight < h → h ≤ n.syncedHeight + k → Syncable c h) :
    ∃ w' n', syncFrom c r k (n.syncedHeight + 1) cached w n = .ok (w', n') ∧
      w'.node = some n' ∧ n'.syncedHeight = n.syncedHeight + k ∧
      w'.verified =
        ((List.range' (n.syncedHeight + 1) k).filterMap c.mark).reverse ++ w.verified := by
  induction k generalizing cached w n with
  | zero => exact ⟨w, n, rfl, hn, rfl, rfl⟩
  | succ k ih =>
    have hfirst := hsync (n.syncedHeight + 1) (by omega) (by omega)
    obtain ⟨id, hid⟩ : ∃ id, c.commitmentAt (n.syncedHeight + 1) = some id := by
      obtain ⟨block, -, hblock, -⟩ := hfirst
      rw [SettledChain.blockAt, Option.bind_eq_bind, Option.bind_eq_some_iff] at hblock
      exact hblock.imp fun _ h => h.1
    have hfetch : lookup c r cached id = some (c.blob id) := by
      rw [lookup_eq hcache, fetch, if_pos (ha.fetched id)]
    obtain ⟨w₁, n₁, mark, hok, hn₁, hcursor, hmark, hverified⟩ :=
      syncBlock_syncs hn (ha.next (n.syncedHeight + 1)) hid hfirst
    have hcache₁ : CacheOk c r (some (id, c.blob id)) := by
      intro id' blocks' heq
      cases heq
      exact ⟨ha.fetched id, rfl⟩
    obtain ⟨w', n', hrest, hn', hcursor', hverified'⟩ := ih hcache₁ hn₁ fun h hlt hle =>
      hsync h (by omega) (by omega)
    refine ⟨w', n', ?_, hn', by omega, ?_⟩
    · simp only [syncFrom, readCommitment, ha.committed, if_true, hid, hfetch, hok, ok_bind]
      rw [← hcursor]
      exact hrest
    · rw [hverified', hverified, hcursor, List.range'_succ, List.filterMap_cons, hmark]
      simp

end FullNodeWorld

namespace SyncLoop

variable {env : SyncEnv} {s t : SyncLoop} {a : Action} {n : FullNode}

/-! ## Crashes and restarts -/

inductive NodeAction
  | loop (a : Action)
  | boot (head : Reply B256) (number : Reply Nat)
  | crash
  | loseFile
  | tearFile

def setWorld (s : SyncLoop) (world : FullNodeWorld) : SyncLoop := { s with world }

def exec (env : SyncEnv) (s : SyncLoop) : NodeAction → Option SyncLoop
  | .loop a => s.step env a
  | .boot head number =>
    match s.world.node with
    | none => some
        { world := s.world.boot head number
          tableKnown := false
          phase := .ticking
          announcements := []
          cache := { s.cache with messages := [] } }
    | some _ => none
  | .crash => some (s.setWorld { s.world with node := none })
  | .loseFile => some (s.setWorld { s.world with disk := .missing })
  | .tearFile => some (s.setWorld { s.world with disk := .unreadable })

/-- The frontiers are of blocks that were marked, or of an adopted head. -/
structure Frontiers (w : FullNodeWorld) : Prop where
  node : ∀ n, w.node = some n →
    (n.syncedHeight, n.finalized) ∈ w.verified ∨ (n.syncedHeight, n.finalized) ∈ w.adopted
  disk : ∀ stored state, w.disk.load = some stored → parseForkchoice stored = some state →
    (stored.height, state.finalizedBlockHash) ∈ w.verified ∨
      (stored.height, state.finalizedBlockHash) ∈ w.adopted

theorem Frontiers.follows {c : SettledChain} {w w' : FullNodeWorld} (hw : Frontiers w)
    (h : FullNodeWorld.Follows c w w') : Frontiers w' := by
  refine ⟨fun n' hn' => ?_, fun stored state hload hparse => ?_⟩
  · rw [h.adopted]
    rcases h.node n' hn' with hmem | ⟨n, hn, hheight, hfinal⟩
    · exact .inl hmem
    · rw [hheight, hfinal]
      exact (hw.node n hn).imp_left (h.kept _)
  · rw [h.adopted]
    rcases h.disk stored state hload hparse with hmem | hload'
    · exact .inl hmem
    · exact (hw.disk stored state hload' hparse).imp_left (h.kept _)

theorem Frontiers.boot {w : FullNodeWorld} (hw : Frontiers w) (head : Reply B256)
    (number : Reply Nat) : Frontiers (w.boot head number) ∧
      (w.boot head number).verified = w.verified := by
  obtain he | ⟨stored, state, hload, hparse, he⟩ | ⟨hash, height, -, -, -, he⟩ :=
    FullNodeWorld.boot_cases w head number
  · rw [he]
    exact ⟨hw, rfl⟩
  · rw [he]
    refine ⟨⟨fun n hn => ?_, hw.disk⟩, rfl⟩
    cases hn
    exact hw.disk stored state hload hparse
  · rw [he]
    refine ⟨⟨fun n hn => ?_, fun stored state hload hparse => ?_⟩, rfl⟩
    · cases hn
      exact .inr List.mem_cons_self
    · exact (hw.disk stored state hload hparse).imp_right (List.mem_cons_of_mem _)

/-- A step of the loop follows the chain. -/
theorem step_follows (h : enabled (step env) s a t) :
    FullNodeWorld.Follows env.chain s.world t.world := by
  cases hn : s.world.node with
  | none => simp [enabled, step, hn] at h
  | some n =>
    simp only [enabled, step, hn] at h
    split at h <;> cases h
    · exact .refl _ _
    · unfold deliver
      dsimp only
      split
      · split
        · exact FullNodeWorld.pollP2p_follows hn
        · exact .refl _ _
      · exact .refl _ _
    · exact .refl _ _
    · exact .refl _ _
    · exact FullNodeWorld.syncFromSettlement_follows hn
    · unfold poll
      split
      · exact .refl _ _
      · split
        · exact .refl _ _
        · split
          · exact .refl _ _
          · split
            · exact FullNodeWorld.pollP2p_follows hn
            · exact .refl _ _

/-- What a node marks in a step is what the chain has, and its frontiers stay where they belong. -/
theorem exec_frontiers {a : NodeAction} (h : enabled (exec env) s a t)
    (hs : Frontiers s.world) : Frontiers t.world ∧
      ∀ e ∈ t.world.verified, e ∈ s.world.verified ∨ env.chain.mark e.1 = some e := by
  unfold enabled at h
  cases a with
  | loop a =>
    have hfollows := step_follows h
    exact ⟨hs.follows hfollows, hfollows.verified⟩
  | boot head number =>
    simp only [exec] at h
    split at h
    · cases h
      obtain ⟨hboot, hverified⟩ := hs.boot head number
      exact ⟨hboot, fun e he => .inl (hverified ▸ he)⟩
    · cases h
  | crash =>
    cases h
    exact ⟨⟨fun n hn => (by cases hn), hs.disk⟩, fun e he => .inl he⟩
  | loseFile | tearFile =>
    cases h
    exact ⟨⟨hs.node, fun stored state hload => by cases hload⟩, fun e he => .inl he⟩

/-- A pass that is answered, over heights that can be synced, marks each up to the latest one. -/
theorem sync_syncs {r : PassReplies} {latest : Nat} (hn : s.world.node = some n)
    (hphase : s.phase = .ticking) (hle : n.syncedHeight ≤ latest) (hlatest : r.latest = some latest)
    (ha : r.Answered)
    (hsync : ∀ h, n.syncedHeight < h → h ≤ latest → FullNodeWorld.Syncable env.chain h) :
    ∃ t n', enabled (exec env) s (.loop (.sync r)) t ∧ t.world.node = some n' ∧
      n'.syncedHeight = latest ∧ t.world.verified =
        ((List.range' (n.syncedHeight + 1) (latest - n.syncedHeight)).filterMap
          env.chain.mark).reverse ++ s.world.verified := by
  have hstep : enabled (exec env) s (.loop (.sync r)) (s.sync env n r) := by
    simp only [enabled, exec, step, hn, hphase]
  refine ⟨s.sync env n r, ?_⟩
  rcases Nat.lt_or_ge n.syncedHeight latest with hlt | hge
  · obtain ⟨w', n', hok, hn', hcursor, hverified⟩ :=
      FullNodeWorld.syncFrom_syncs (c := env.chain) (r := r) (w := s.world)
        (k := latest - n.syncedHeight)
        (show ∀ id blocks, none = some (id, blocks) → _ from fun id blocks h => by cases h) hn ha
        fun h hlt' hle' => hsync h hlt' (by omega)
    refine ⟨n', hstep, ?_, by omega, ?_⟩
    all_goals
      simp only [sync, FullNodeWorld.syncFromSettlement, hlatest, if_neg hlt.not_ge, ha.tableUid,
        Bool.or_true, if_true, hok]
    · exact hn'
    · exact hverified
  · have heq : n.syncedHeight = latest := by omega
    refine ⟨n, hstep, ?_, heq, ?_⟩
    all_goals simp only [sync, FullNodeWorld.syncFromSettlement, hlatest, if_pos hge]
    · exact hn
    · rw [heq, Nat.sub_self]
      rfl

end SyncLoop

end Podseq.Node
