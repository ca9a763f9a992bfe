import Podseq.Node.FullNodeRuns
import Podseq.Node.GenuineBlocks
import Podseq.Node.LedgerReads
import Podseq.Node.WireBatch

/-! # The sequencer, the chain and the full nodes

Any number of full nodes follow the sequencer through the ledger and the blobs alone: they read
the book, fetch what it names and take the batch apart. Peers say what they like, processes crash
and files get lost on either side. What a full node takes for final is what was settled.
-/
namespace Podseq.Node
open Podseq.Lib Podseq.Move

/-- The sequencer's side, and what the full nodes run against. -/
structure SyncedEnv where
  sequencer : SequencerEnv
  ids : LedgerReads.ObjectIds
  /-- The replies of a full node of the ledger. -/
  get : SequencerWorld → FixedBytes 32 → ObjectReply
  /-- The check of a signature under the sequencer's key. -/
  verify : Bytes → FixedBytes 64 → Bool
  /-- The bytes of a blob, where there is one. -/
  store : BlobId → Option Bytes
  sha256 : HashFn

structure SyncedWorld where
  sequencer : SequencerWorld
  nodes : Nat → SyncLoop

namespace SyncedEnv

/-- `fetch`: a blob that is not there, or does not decode, has no block to go on with. -/
def blob (env : SyncedEnv) (id : BlobId) : List Block :=
  match env.store id with
  | none => []
  | some bytes =>
    match Wire.decode bytes with
    | .ok blocks => blocks
    | .error _ => []

def chain (env : SyncedEnv) (w : SequencerWorld) : SettledChain where
  verify := env.verify
  decode := env.sequencer.decode
  commitmentAt height :=
    match LedgerReads.commitmentAt (env.get w) env.ids env.ids.commitments height with
    | .ok found => found
    | .error _ => none
  blob := env.blob

/-- The replies to a pass, with the latest height as it is read, if it is. A pass that read it
earlier does what one does that fails above it. -/
def replies (env : SyncedEnv) (w : SequencerWorld) (r : PassReplies) : PassReplies :=
  { r with latest := r.latest.bind fun _ =>
      (LedgerReads.latestHeight (env.get w) env.ids).toOption }

def syncEnv (env : SyncedEnv) (w : SequencerWorld) : SyncEnv := ⟨env.chain w, env.sha256⟩

/-- What the libraries and the ledger promise: objects have ids of their own and are served under
them, blob ids have 32 bytes, payloads are read as they were written, and their numbers are of 64
bits. -/
structure Sound (env : SyncedEnv) : Prop where
  distinct : env.ids.Distinct
  serves : ∀ w : SequencerWorld, LedgerReads.Sized w.registry w.inbox →
    LedgerObjects.Serves (env.get w) env.ids.object
      (LedgerReads.stored env.ids w.registry w.inbox)
  blobIds : ∀ batch, (env.sequencer.blobId batch).length = 32
  roundTrips : SequencerWorld.RoundTrips env.sequencer
  numbers : ∀ hash payload, env.sequencer.tree.payloadOf hash = some payload →
    payload.blockNumber < 256 ^ 8 ∧ payload.timestamp < 256 ^ 8

/-- The encoding of the batch is served under the id it got. -/
def Served (env : SyncedEnv) (batch : List Block) : Prop :=
  ∃ id bytes, env.sequencer.blobId batch = id.val ∧ Wire.encode batch = .ok bytes ∧
    env.store id = some bytes

end SyncedEnv

namespace SyncedWorld

inductive Action
  | ledger (a : SequencerWorld.LedgerAction)
  | node (i : Nat) (a : SyncLoop.NodeAction)

/-- The action of a node, with what it reads of the ledger. -/
def reading (env : SyncedEnv) (w : SequencerWorld) : SyncLoop.NodeAction → SyncLoop.NodeAction
  | .loop (.sync r) => .loop (.sync (env.replies w r))
  | a => a

def setNode (w : SyncedWorld) (i : Nat) (node : SyncLoop) : SyncedWorld :=
  { w with nodes := Function.update w.nodes i node }

def exec (env : SyncedEnv) (w : SyncedWorld) : Action → Option SyncedWorld
  | .ledger a => (w.sequencer.execOnLedger env.sequencer a).map fun sequencer =>
      { w with sequencer }
  | .node i a => (SyncLoop.exec (env.syncEnv w.sequencer) (w.nodes i)
      (reading env w.sequencer a)).map (w.setNode i)

def Start (w : SyncedWorld) : Prop :=
  w.sequencer = .fresh ∧ ∀ i, (w.nodes i).world = .fresh

/-- What is published is served from then on, and what is submitted fits a transaction. -/
def Serves (env : SyncedEnv) (w : SyncedWorld) : Action → Prop
  | .ledger a => LedgerReads.Carried w.sequencer a ∧
      (a = .node (.finalize (.publish true)) → ∀ p, w.sequencer.process = some p →
        env.Served (p.batch.map (·.block)))
  | .node _ _ => True

variable {env : SyncedEnv} {s s' : SequencerWorld} {w w' : SyncedWorld} {height : Nat}
  {block : Block} {e : Nat × B256}

/-- The height and the hash are those of a block that was made of a payload and settled. -/
def SettledAs (env : SyncedEnv) (s : SequencerWorld) (e : Nat × B256) : Prop :=
  ∃ block ∈ s.settled, ∃ payload,
    env.sequencer.tree.payloadOf payload.blockHash = some payload ∧
    SequencerWorld.signedBlock env.sequencer payload = some block ∧
    e = (payload.blockNumber, payload.blockHash)

/-- What the sequencer's side keeps for the full nodes. -/
structure Ready (env : SyncedEnv) (s : SequencerWorld) : Prop where
  available : SequencerWorld.Available env.sequencer s
  genuine : SequencerWorld.MakesGenuine env.sequencer s
  counts : LedgerReads.Counts s.registry s.inbox
  served : ∀ batch ∈ s.published, env.Served batch

@[simp] theorem setNode_sequencer (w : SyncedWorld) (i : Nat) (node : SyncLoop) :
    (w.setNode i node).sequencer = w.sequencer := rfl

@[simp] theorem setNode_self (w : SyncedWorld) (i : Nat) (node : SyncLoop) :
    (w.setNode i node).nodes i = node := Function.update_self ..

theorem setNode_of_ne (w : SyncedWorld) {i j : Nat} (node : SyncLoop) (h : j ≠ i) :
    (w.setNode i node).nodes j = w.nodes j := Function.update_of_ne h ..

/-! ## From the book to the block -/

theorem genuine_fits (hs : env.Sound) (h : SequencerWorld.Genuine env.sequencer block) :
    Wire.FitsU64 block.header := by
  obtain ⟨payload, hpayload, hblock⟩ := h
  obtain ⟨⟨hheight, -, -, htime⟩, -⟩ := SequencerWorld.signedBlock_made hblock
  obtain ⟨hnumber, htimestamp⟩ := hs.numbers _ payload hpayload
  exact ⟨hheight ▸ hnumber, htime ▸ htimestamp⟩

theorem signedBlock_decode (hs : env.Sound) {payload : ExecutionPayload}
    (hpayload : env.sequencer.tree.payloadOf payload.blockHash = some payload)
    (hblock : SequencerWorld.signedBlock env.sequencer payload = some block) :
    env.sequencer.decode block.data = some payload :=
  hs.roundTrips _ _ _ hpayload (SequencerWorld.signedBlock_data hblock)

/-- What is served under the id of a batch is the batch. -/
theorem blob_served (hs : env.Sound) {id : BlobId} {batch : List Block} (hne : batch ≠ [])
    (hgenuine : ∀ block ∈ batch, SequencerWorld.Genuine env.sequencer block)
    (hserved : env.Served batch) (hid : env.sequencer.blobId batch = id.val) :
    env.blob id = batch := by
  obtain ⟨id', bytes, hid', hencode, hstore⟩ := hserved
  obtain rfl : id = id' := Subtype.ext (hid.symm.trans hid')
  have hdecode : Wire.decode bytes = .ok batch :=
    Wire.decode_encode hne (fun block hblock => genuine_fits hs (hgenuine block hblock)) hencode
  simp only [SyncedEnv.blob, hstore, hdecode]

/-- The blocks of a blob have heights of 64 bits. -/
theorem blob_heights {id : BlobId} (h : block ∈ env.blob id) : block.header.height ≤ u64Max := by
  unfold SyncedEnv.blob at h
  split at h
  · cases h
  · split at h
    · rename_i blocks hdecode
      obtain ⟨-, hfits, -⟩ := Wire.decode_eq_ok.1 hdecode
      have hheight := (Wire.wireBatch_fits_iff.1 hfits).2 _ (List.mem_map_of_mem h)
      exact Nat.le_of_lt_succ hheight.1
    · cases h

theorem Ready.sized (hr : Ready env s) (hs : env.Sound) : LedgerReads.Sized s.registry s.inbox :=
  hr.counts.sized hr.available hs.blobIds

/-- The id read for a height is the one in the book. -/
theorem chain_commitmentAt (hs : env.Sound) (hr : Ready env s) (hheight : height ≤ u64Max) :
    ((env.chain s).commitmentAt height).map Subtype.val = s.registry.commitments height := by
  obtain ⟨found, hread, hfound⟩ := LedgerReads.commitmentAt_eq (hs.serves s (hr.sized hs))
    hs.distinct (hr.sized hs) hheight
  simp only [SyncedEnv.chain, hread]
  exact hfound

/-- The block that full nodes find for a settled height is the settled one. -/
theorem blockAt_settled (hs : env.Sound) (hr : Ready env s) (hblock : block ∈ s.settled) :
    (env.chain s).blockAt block.header.height = some block := by
  obtain ⟨batch, hbatch, hcommitted, hfirst⟩ := hr.available.settled block hblock
  have hne : batch ≠ [] := by
    intro hnil
    rw [hnil] at hfirst
    cases hfirst
  have hheight : block.header.height ≤ u64Max :=
    (hr.available.book _ _ hcommitted).2.trans hr.counts.latestHeight
  have hread := chain_commitmentAt hs hr hheight
  rw [hcommitted] at hread
  obtain ⟨id, hid, hval⟩ := Option.map_eq_some_iff.1 hread
  have hblob : (env.chain s).blob id = batch :=
    blob_served hs hne (hr.genuine.published batch hbatch) (hr.served batch hbatch) hval.symm
  simp only [SettledChain.blockAt, hid]
  rw [Option.bind_eq_bind, Option.bind_some, hblob]
  exact hfirst

/-- Full nodes find no other block. -/
theorem settled_of_blockAt (hs : env.Sound) (hr : Ready env s)
    (h : (env.chain s).blockAt height = some block) :
    block ∈ s.settled ∧ block.header.height = height := by
  have hfind := h
  rw [SettledChain.blockAt, Option.bind_eq_bind, Option.bind_eq_some_iff] at hfind
  obtain ⟨id, hid, hfind⟩ := hfind
  have hheight : block.header.height = height := by simpa using List.find?_some hfind
  have hbound : height ≤ u64Max := hheight ▸ blob_heights (List.mem_of_find?_eq_some hfind)
  have hread := chain_commitmentAt hs hr hbound
  rw [hid] at hread
  obtain ⟨hpos, hle⟩ := hr.available.book _ _ hread.symm
  have hmem : height ∈ s.settled.map (·.header.height) := by
    rw [hr.available.heights, List.mem_reverse, List.mem_range'_1]
    omega
  obtain ⟨settled, hsettled, heq⟩ := List.mem_map.1 hmem
  have hthere := blockAt_settled hs hr hsettled
  rw [heq, h, Option.some.injEq] at hthere
  subst hthere
  exact ⟨hsettled, hheight⟩

/-- A settled block is of a payload, which is read back from its data. -/
theorem Ready.payload (hr : Ready env s) (hs : env.Sound) (hblock : block ∈ s.settled) :
    ∃ payload, env.sequencer.tree.payloadOf payload.blockHash = some payload ∧
      SequencerWorld.signedBlock env.sequencer payload = some block ∧
      env.sequencer.decode block.data = some payload ∧
      payload.blockNumber = block.header.height := by
  obtain ⟨batch, hbatch, -, hfirst⟩ := hr.available.settled block hblock
  obtain ⟨payload, hpayload, hsigned⟩ :=
    hr.genuine.published batch hbatch block (List.mem_of_find?_eq_some hfirst)
  obtain ⟨⟨hheight, -⟩, -⟩ := SequencerWorld.signedBlock_made hsigned
  exact ⟨payload, hpayload, hsigned, signedBlock_decode hs hpayload hsigned, hheight⟩

/-- What full nodes mark is settled. -/
theorem settledAs_of_mark (hs : env.Sound) (hr : Ready env s)
    (h : (env.chain s).mark e.1 = some e) : SettledAs env s e := by
  rw [SettledChain.mark, Option.bind_eq_bind, Option.bind_eq_some_iff] at h
  obtain ⟨block, hblockAt, h⟩ := h
  rw [Option.bind_eq_bind, Option.bind_eq_some_iff] at h
  obtain ⟨payload, hdecode, h⟩ := h
  obtain ⟨hsettled, hheight⟩ := settled_of_blockAt hs hr hblockAt
  obtain ⟨payload', hpayload, hsigned, hdecode', hnumber⟩ := hr.payload hs hsettled
  have hsame : payload' = payload := Option.some.inj (hdecode'.symm.trans hdecode)
  subst hsame
  refine ⟨block, hsettled, payload', hpayload, hsigned, ?_⟩
  rw [hnumber, hheight]
  exact (Option.some.inj h).symm

/-! ## Runs -/

theorem Ready.step {a : SequencerWorld.LedgerAction} (hr : Ready env s)
    (hcarried : LedgerReads.Carried s a)
    (hserves : a = .node (.finalize (.publish true)) → ∀ p, s.process = some p →
      env.Served (p.batch.map (·.block)))
    (h : SequencerWorld.LedgerStep env.sequencer s a s') : Ready env s' := by
  refine ⟨hr.available.ledger h, hr.genuine.ledger h, hr.counts.step hcarried h,
    fun batch hbatch => ?_⟩
  obtain hold | ⟨ha, p, hp, rfl⟩ := h.publishes batch hbatch
  · exact hr.served batch hold
  · exact hserves ha p hp

theorem SettledAs.mono {a : SequencerWorld.LedgerAction} (he : SettledAs env s e)
    (h : SequencerWorld.LedgerStep env.sequencer s a s') : SettledAs env s' e := by
  obtain ⟨block, hblock, hpayload⟩ := he
  exact ⟨block, h.settled_mono block hblock, hpayload⟩

/-- What holds in every state. -/
structure Synced (env : SyncedEnv) (w : SyncedWorld) : Prop where
  ready : Ready env w.sequencer
  marked : ∀ i, ∀ e ∈ (w.nodes i).world.verified, SettledAs env w.sequencer e
  frontiers : ∀ i, SyncLoop.Frontiers (w.nodes i).world

theorem Synced.start (h : Start w) : Synced env w := by
  obtain ⟨hsequencer, hnodes⟩ := h
  refine ⟨?_, fun i e he => ?_, fun i => ?_⟩
  · rw [hsequencer]
    exact ⟨.fresh, .fresh, .fresh, fun _ h => by cases h⟩
  · rw [hnodes i] at he
    cases he
  · rw [hnodes i]
    exact ⟨fun _ h => (by cases h), fun _ _ h => by cases h⟩

theorem Synced.step {a : Action} (hs : env.Sound) (hw : Synced env w) (hserves : Serves env w a)
    (h : enabled (exec env) w a w') : Synced env w' := by
  obtain ⟨hready, hmarked, hfrontiers⟩ := hw
  cases a with
  | ledger a =>
    simp only [enabled, exec, Option.map_eq_some_iff] at h
    obtain ⟨s', hstep, rfl⟩ := h
    have hledger := SequencerWorld.ledger_step hstep
    exact ⟨hready.step hserves.1 hserves.2 hledger,
      fun i e he => (hmarked i e he).mono hledger, hfrontiers⟩
  | node i a =>
    simp only [enabled, exec, Option.map_eq_some_iff] at h
    obtain ⟨t, hstep, rfl⟩ := h
    obtain ⟨hfrontier, hnew⟩ := SyncLoop.exec_frontiers hstep (hfrontiers i)
    refine ⟨hready, fun j e he => ?_, fun j => ?_⟩
    · by_cases hj : j = i
      · subst hj
        rw [setNode_self] at he
        rcases hnew e he with hold | hmark
        · exact hmarked j e hold
        · exact settledAs_of_mark hs hready hmark
      · rw [setNode_of_ne w t hj] at he
        exact hmarked j e he
    · by_cases hj : j = i
      · subst hj
        rw [setNode_self]
        exact hfrontier
      · rw [setNode_of_ne w t hj]
        exact hfrontiers j

theorem reachable_synced (hs : env.Sound)
    (h : Reachable Start (guarded (Serves env) (enabled (exec env))) w) : Synced env w :=
  h.inv (fun _ => .start) fun _ _ _ hw hstep => hw.step hs hstep.1 hstep.2

/-- There is one settled block of a height. -/
theorem SettledAs.unique {e' : Nat × B256} (hs : env.Sound) (hr : Ready env s)
    (h : SettledAs env s e) (h' : SettledAs env s e') (hheight : e.1 = e'.1) : e = e' := by
  obtain ⟨block, hblock, payload, hpayload, hsigned, rfl⟩ := h
  obtain ⟨block', hblock', payload', hpayload', hsigned', rfl⟩ := h'
  have hblockAt := blockAt_settled hs hr hblock
  have hblockAt' := blockAt_settled hs hr hblock'
  obtain ⟨⟨hnumber, -⟩, -⟩ := SequencerWorld.signedBlock_made hsigned
  obtain ⟨⟨hnumber', -⟩, -⟩ := SequencerWorld.signedBlock_made hsigned'
  have hsame : block.header.height = block'.header.height :=
    hnumber.symm.trans (hheight.trans hnumber')
  rw [hsame, hblockAt', Option.some.injEq] at hblockAt
  subst hblockAt
  have hdecode := signedBlock_decode hs hpayload hsigned
  rw [signedBlock_decode hs hpayload' hsigned', Option.some.injEq] at hdecode
  rw [hdecode]

/-- **Full nodes finalize what was settled.** Whatever the peers say and whichever processes crash
or lose their files, every block that a full node takes for final is one that the sequencer made
and settled at that height, so that no two nodes differ on a height; the frontier a node starts
from is of such a block, or the head that it adopted when it had no file. -/
theorem full_nodes_agree (hs : env.Sound)
    (h : Reachable Start (guarded (Serves env) (enabled (exec env))) w) :
    (∀ i, ∀ e ∈ (w.nodes i).world.verified, SettledAs env w.sequencer e) ∧
    (∀ i j, ∀ e ∈ (w.nodes i).world.verified, ∀ e' ∈ (w.nodes j).world.verified,
      e.1 = e'.1 → e = e') ∧
    ∀ i n, (w.nodes i).world.node = some n →
      SettledAs env w.sequencer (n.syncedHeight, n.finalized) ∨
        (n.syncedHeight, n.finalized) ∈ (w.nodes i).world.adopted := by
  have hw := reachable_synced hs h
  refine ⟨hw.marked, fun i j e he e' he' hheight => ?_, fun i n hn => ?_⟩
  · exact (hw.marked i e he).unique hs hw.ready (hw.marked j e' he') hheight
  · exact ((hw.frontiers i).node n hn).imp_left (hw.marked i _)

theorem syncable_settled (hs : env.Sound)
    (hsigned : ∀ header signature, env.sequencer.sign header = some signature →
      env.verify header.signingMessage signature)
    (hr : Ready env s) (hblock : block ∈ s.settled) :
    FullNodeWorld.Syncable (env.chain s) block.header.height := by
  obtain ⟨payload, -, hmade, hdecode, -⟩ := hr.payload hs hblock
  obtain ⟨-, signature, hsign, hsignature⟩ := SequencerWorld.signedBlock_made hmade
  refine ⟨block, payload, blockAt_settled hs hr hblock, ?_, hdecode⟩
  rw [verifyBlockSignature, hsignature]
  exact hsigned _ _ hsign

theorem mark_settled (hs : env.Sound) (hr : Ready env s) (hblock : block ∈ s.settled) :
    ∃ hash, (env.chain s).mark block.header.height = some (block.header.height, hash) := by
  obtain ⟨payload, -, -, hdecode, -⟩ := hr.payload hs hblock
  have hdecode' : (env.chain s).decode block.data = some payload := hdecode
  exact ⟨payload.blockHash, by simp [SettledChain.mark, blockAt_settled hs hr hblock, hdecode']⟩

/-- Marks that are all there are of the heights asked for. -/
theorem marks_heights {c : SettledChain} {heights : List Nat}
    (h : ∀ height ∈ heights, ∃ hash, c.mark height = some (height, hash)) :
    (heights.filterMap c.mark).map Prod.fst = heights := by
  induction heights with
  | nil => rfl
  | cons height heights ih =>
    obtain ⟨hash, hmark⟩ := h height List.mem_cons_self
    rw [List.filterMap_cons, hmark, List.map_cons,
      ih fun k hk => h k (List.mem_cons_of_mem _ hk)]

theorem replies_latest (hs : env.Sound) (hr : Ready env s) {r : PassReplies}
    (h : r.latest.isSome) : (env.replies s r).latest = some s.registry.latestHeight := by
  obtain ⟨latest, hlatest⟩ := Option.isSome_iff_exists.1 h
  have hread : LedgerReads.latestHeight (env.get s) env.ids = .ok s.registry.latestHeight :=
    LedgerReads.latestHeight_eq (hs.serves s (hr.sized hs)) hs.distinct (hr.sized hs)
  simp only [SyncedEnv.replies, hlatest, hread]
  rfl

/-- A pass that is answered marks the settled heights above the node's own. -/
theorem Ready.syncs (hr : Ready env w.sequencer) (hs : env.Sound)
    (hsigned : ∀ header signature, env.sequencer.sign header = some signature →
      env.verify header.signingMessage signature) {i : Nat} {n : FullNode}
    (hn : (w.nodes i).world.node = some n) (hphase : (w.nodes i).phase = .ticking)
    (hle : n.syncedHeight ≤ w.sequencer.registry.latestHeight) {r : PassReplies}
    (hlatest : r.latest.isSome) (ha : r.Answered) :
    ∃ t n', enabled (exec env) w (.node i (.loop (.sync r))) (w.setNode i t) ∧
      t.world.node = some n' ∧ n'.syncedHeight = w.sequencer.registry.latestHeight ∧
      t.world.verified.map Prod.fst = (List.range' (n.syncedHeight + 1)
          (w.sequencer.registry.latestHeight - n.syncedHeight)).reverse ++
        (w.nodes i).world.verified.map Prod.fst := by
  have hsettled : ∀ height, n.syncedHeight < height →
      height ≤ w.sequencer.registry.latestHeight →
      ∃ block ∈ w.sequencer.settled, block.header.height = height := by
    intro height hlt hle'
    refine List.mem_map.1 ?_
    rw [hr.available.heights, List.mem_reverse, List.mem_range'_1]
    omega
  obtain ⟨t, n', hstep, hn', hcursor, hverified⟩ :=
    @SyncLoop.sync_syncs (env.syncEnv w.sequencer) _ _ _ _ hn hphase hle
      (replies_latest hs hr hlatest)
      ⟨ha.tableUid, ha.committed, ha.fetched, ha.next⟩ fun height hlt hle' => by
        obtain ⟨block, hblock, rfl⟩ := hsettled height hlt hle'
        exact syncable_settled hs hsigned hr hblock
  refine ⟨t, n', ?_, hn', hcursor, ?_⟩
  · have hexec : SyncLoop.exec (env.syncEnv w.sequencer) (w.nodes i)
        (reading env w.sequencer (.loop (.sync r))) = some t := hstep
    simp only [enabled, exec, hexec, Option.map_some]
  · rw [hverified, List.map_append, List.map_reverse]
    refine congrArg (·.reverse ++ _) (marks_heights fun height hmem => ?_)
    rw [List.mem_range'_1] at hmem
    obtain ⟨block, hblock, rfl⟩ := hsettled height (by omega) (by omega)
    exact mark_settled hs hr hblock

/-- **Every settled block can be synced.** In every state a full node that is about to sync, from
no higher than the latest height, and whose requests are all answered, takes every height up to
the latest one for final in that pass, each once and in order. -/
theorem full_node_catches_up (hs : env.Sound)
    (hsigned : ∀ header signature, env.sequencer.sign header = some signature →
      env.verify header.signingMessage signature)
    (h : Reachable Start (guarded (Serves env) (enabled (exec env))) w) {i : Nat} {n : FullNode}
    (hn : (w.nodes i).world.node = some n) (hphase : (w.nodes i).phase = .ticking)
    (hle : n.syncedHeight ≤ w.sequencer.registry.latestHeight) {r : PassReplies}
    (hlatest : r.latest.isSome) (ha : r.Answered) :
    ∃ t n', enabled (exec env) w (.node i (.loop (.sync r))) (w.setNode i t) ∧
      t.world.node = some n' ∧ n'.syncedHeight = w.sequencer.registry.latestHeight ∧
      t.world.verified.map Prod.fst = (List.range' (n.syncedHeight + 1)
          (w.sequencer.registry.latestHeight - n.syncedHeight)).reverse ++
        (w.nodes i).world.verified.map Prod.fst :=
  (reachable_synced hs h).ready.syncs hs hsigned hn hphase hle hlatest ha

/-! ## A deployment with full nodes -/

def heightBlobId (batch : List Block) : Bytes :=
  List.replicate 32 (batch.map fun block : Block => block.header.height).sum.toUInt8

/-- The small deployment, with a blob for each of its first two blocks. -/
def smallSynced : SyncedEnv where
  sequencer := smallEnv heightBlobId
  ids := LedgerReads.plainIds
  get w := LedgerReads.fullNode LedgerReads.plainIds w.registry w.inbox
  verify _ _ := true
  store id :=
    if id.val = heightBlobId [SequencerWorld.block1] then
      (Wire.encode [SequencerWorld.block1]).toOption
    else (Wire.encode [SequencerWorld.block2]).toOption
  sha256 := BroadcastCache.lengthHash

theorem smallSynced_sound : smallSynced.Sound := by
  refine ⟨LedgerReads.plainIds_distinct, fun _ hsized =>
    LedgerReads.fullNode_serves hsized, fun _ => List.length_replicate,
    SequencerWorld.roundTrips_smallEnv _, fun hash payload hpayload => ?_⟩
  have hmem : payload ∈ smallPayloads := BlockTree.mem_of_find hpayload
  have hall : ∀ p ∈ smallPayloads, p.blockNumber < 256 ^ 8 ∧ p.timestamp < 256 ^ 8 := by
    decide
  exact hall payload hmem

/-- A block that can be encoded and is stored under its id is served. -/
theorem served_of_store {block : Block} (id : BlobId)
    (hfits : Wire.LengthsFit ([block].map Wire.WireBlock.ofBlock))
    (hid : heightBlobId [block] = id.val)
    (hstore : smallSynced.store id = (Wire.encode [block]).toOption) :
    smallSynced.Served [block] := by
  obtain ⟨bytes, hencode⟩ : ∃ bytes, Wire.encode [block] = .ok bytes :=
    ⟨_, Wire.encode_eq_ok.2 ⟨hfits, rfl⟩⟩
  refine ⟨id, bytes, hid, hencode, ?_⟩
  rw [hstore, hencode]
  rfl

theorem served_block1 : smallSynced.Served [SequencerWorld.block1] :=
  served_of_store (B256.repeated 1) (by decide) rfl rfl

theorem served_block2 : smallSynced.Served [SequencerWorld.block2] :=
  served_of_store (B256.repeated 2) (by decide) rfl rfl

/-- A run of the sequencer, with full nodes that stand still. -/
theorem run_ledger {as : List SequencerWorld.LedgerAction} {nodes : Nat → SyncLoop}
    (h : Run (guarded (fun s a => Serves env ⟨s, nodes⟩ (.ledger a))
      (enabled (SequencerWorld.execOnLedger env.sequencer))) s as s') :
    Run (guarded (Serves env) (enabled (exec env))) ⟨s, nodes⟩ (as.map .ledger) ⟨s', nodes⟩ := by
  induction h with
  | nil => exact .nil
  | cons hst _ ih =>
    refine .cons ⟨hst.1, ?_⟩ ih
    have hstep : SequencerWorld.execOnLedger env.sequencer _ _ = some _ := hst.2
    simp only [enabled, exec, hstep, Option.map_some]

/-- Only blocks 1 and 2 are published, each by itself. -/
def publishesSingly (s : SequencerWorld) : SequencerWorld.LedgerAction → Bool
  | .node (.finalize (.publish true)) => s.process.all fun p =>
    p.batch.map (·.block) = [SequencerWorld.block1] ∨
      p.batch.map (·.block) = [SequencerWorld.block2]
  | _ => true

theorem serves_of_check {nodes : Nat → SyncLoop} {a : SequencerWorld.LedgerAction}
    (h : (decide (LedgerReads.Carried s a) && publishesSingly s a) = true) :
    Serves smallSynced ⟨s, nodes⟩ (.ledger a) := by
  rw [Bool.and_eq_true] at h
  refine ⟨of_decide_eq_true h.1, fun ha p hp => ?_⟩
  have hbatch := h.2
  rw [ha, publishesSingly, show s.process = some p from hp] at hbatch
  obtain hblocks | hblocks := of_decide_eq_true hbatch
  · rw [hblocks]
    exact served_block1
  · rw [hblocks]
    exact served_block2

def singleCall (block : Block) : SettleCall := ⟨block, heightBlobId [block], 0⟩

/-- Blocks 1 and 2 are made, published and settled one after the other. -/
def settleBoth : List SequencerWorld.LedgerAction :=
  .govern SequencerWorld.entombedUid :: SequencerWorld.nodeActs (.boot (.repeated 0) 0 true ::
    SequencerWorld.wholePass payload1 ++ SequencerWorld.publishAndCall) ++
  [.settle true (singleCall SequencerWorld.block1) 0 7] ++
  SequencerWorld.nodeActs ([.finalize (.reply true), .finalize .readHead,
    .finalize (.forkchoice (some .valid)), .finalize .record, .finalize (.clear true),
    .finalize .snapshot, .finalize (.save true)] ++ SequencerWorld.wholePass payload2 ++
    SequencerWorld.publishAndCall) ++
  [.settle true (singleCall SequencerWorld.block2) 0 7]

def settledBoth : SequencerWorld :=
  (execAll (SequencerWorld.execOnLedger (smallEnv heightBlobId)) SequencerWorld.fresh
    settleBoth).getD SequencerWorld.fresh

def notStarted : SyncLoop := ⟨.fresh, false, .ticking, [], ⟨fun _ => none, []⟩⟩

def startedNode : SyncLoop :=
  ⟨FullNodeWorld.fresh.boot (some .zero) (some 0), false, .ticking, [], ⟨fun _ => none, []⟩⟩

def nodeStarted : SyncedWorld :=
  setNode ⟨settledBoth, fun _ => notStarted⟩ 0 startedNode

set_option maxRecDepth 4000 in
theorem reachable_nodeStarted :
    Reachable Start (guarded (Serves smallSynced) (enabled (exec smallSynced))) nodeStarted := by
  have hledger : Run (guarded (fun s a => Serves smallSynced ⟨s, fun _ => notStarted⟩ (.ledger a))
      (enabled (SequencerWorld.execOnLedger smallSynced.sequencer))) .fresh
      settleBoth settledBoth :=
    run_of_check (fun _ _ => serves_of_check) rfl
  have hreach : Reachable Start (guarded (Serves smallSynced) (enabled (exec smallSynced)))
      ⟨settledBoth, fun _ => notStarted⟩ :=
    ⟨⟨.fresh, fun _ => notStarted⟩, _, ⟨rfl, fun _ => rfl⟩, run_ledger hledger⟩
  exact hreach.next (a := .node 0 (.boot (some .zero) (some 0))) ⟨trivial, rfl⟩

def answeredPass : PassReplies where
  latest := some 0
  tableUid := true
  committed _ := true
  fetched _ := true
  next _ := .allValid none

theorem answeredPass_answered : answeredPass.Answered :=
  ⟨rfl, fun _ => rfl, fun _ => rfl, fun _ => ⟨rfl, rfl, rfl, rfl⟩⟩

theorem full_node_catches_up_two : ∃ t n',
    enabled (exec smallSynced) nodeStarted (.node 0 (.loop (.sync answeredPass)))
      (nodeStarted.setNode 0 t) ∧
    t.world.node = some n' ∧ n'.syncedHeight = 2 ∧ t.world.verified.map Prod.fst = [2, 1] :=
  full_node_catches_up smallSynced_sound (fun _ _ _ => rfl) reachable_nodeStarted (i := 0)
    (n := ⟨0, .zero, 0, .zero, .zero⟩) rfl rfl (by decide) rfl answeredPass_answered

/-- A node that has started takes block 2 for final in its first pass. -/
theorem syncs_block2 {i : Nat} (hsequencer : w.sequencer = settledBoth)
    (hnode : w.nodes i = startedNode)
    (h : Reachable Start (guarded (Serves smallSynced) (enabled (exec smallSynced))) w) :
    ∃ t, (∃ e ∈ t.world.verified, e.1 = 2) ∧
      Reachable Start (guarded (Serves smallSynced) (enabled (exec smallSynced)))
        (w.setNode i t) := by
  have hlatest : w.sequencer.registry.latestHeight = 2 := by
    rw [hsequencer]
    rfl
  have hn : (w.nodes i).world.node = some ⟨0, .zero, 0, .zero, .zero⟩ := by
    rw [hnode]
    rfl
  have hphase : (w.nodes i).phase = .ticking := by
    rw [hnode]
    rfl
  obtain ⟨t, n', hstep, -, -, hverified⟩ :=
    (reachable_synced smallSynced_sound h).ready.syncs smallSynced_sound (fun _ _ _ => rfl) hn
      hphase (Nat.zero_le _) (r := answeredPass) rfl answeredPass_answered
  have hmem : 2 ∈ t.world.verified.map Prod.fst := by
    rw [hverified, hlatest]
    exact List.mem_cons_self
  obtain ⟨e, he, hheight⟩ := List.mem_map.1 hmem
  exact ⟨t, ⟨e, he, hheight⟩, h.next (a := .node i (.loop (.sync answeredPass))) ⟨trivial, hstep⟩⟩

set_option maxRecDepth 4000 in
/-- Node 0 takes block 2 for final; then node 1 starts and does, and both have the same. -/
theorem full_nodes_agree_two : ∃ w, ∃ e, e ∈ (w.nodes 0).world.verified ∧
    e ∈ (w.nodes 1).world.verified ∧ e.1 = 2 ∧
    Reachable Start (guarded (Serves smallSynced) (enabled (exec smallSynced))) w ∧
    SettledAs smallSynced w.sequencer e := by
  obtain ⟨t, ⟨e, he, hheight⟩, hfirst⟩ := syncs_block2 (i := 0) rfl rfl reachable_nodeStarted
  have hbooted : Reachable Start (guarded (Serves smallSynced) (enabled (exec smallSynced)))
      ((nodeStarted.setNode 0 t).setNode 1 startedNode) :=
    hfirst.next (a := .node 1 (.boot (some .zero) (some 0))) ⟨trivial, rfl⟩
  obtain ⟨t', ⟨e', he', hheight'⟩, hsecond⟩ := syncs_block2 (i := 1) rfl (setNode_self ..) hbooted
  obtain ⟨hsettled, hagree, -⟩ := full_nodes_agree smallSynced_sound hsecond
  have hzero : e ∈ ((((nodeStarted.setNode 0 t).setNode 1 startedNode).setNode 1 t').nodes
      0).world.verified := by
    rw [setNode_of_ne _ _ Nat.zero_ne_one, setNode_of_ne _ _ Nat.zero_ne_one, setNode_self]
    exact he
  have hone : e' ∈ ((((nodeStarted.setNode 0 t).setNode 1 startedNode).setNode 1 t').nodes
      1).world.verified := by
    rw [setNode_self]
    exact he'
  obtain rfl := hagree 0 1 e hzero e' hone (hheight.trans hheight'.symm)
  exact ⟨_, e, hzero, hone, hheight, hsecond, hsettled 0 e hzero⟩

end SyncedWorld

end Podseq.Node
