import Podseq.Node.FullNode

/-! # The full node and the verdicts of its execution client

The node moves its pointers before it looks at a verdict, and it never looks: that they end
only on valid blocks rests on what the client replies.
-/
namespace Podseq.Node
open Podseq.Lib

def ForkchoiceState.Names (state : ForkchoiceState) (hash : B256) : Prop :=
  state.headBlockHash = hash ∨ state.safeBlockHash = hash ∨ state.finalizedBlockHash = hash

/-- The client finds the submitted payload and the fork choice valid, or fails to answer the
first request. -/
def ApplyReplies.Valid (r : ApplyReplies) : Prop :=
  ∀ status, r.newPayload = some status → status = .valid ∧ r.forkchoice = some .valid

namespace FullNodeWorld

variable {src : NodeSources} {w w' : FullNodeWorld} {n n' : FullNode} {block : Block}
  {hash : B256} {a : Action} {payload : ExecutionPayload}

/-- `engine_newPayload` and `engine_forkchoiceUpdated` both answered `VALID` for the block. -/
def Accepted (w : FullNodeWorld) (hash : B256) : Prop :=
  (hash, .valid) ∈ w.payloads ∧ ∃ state, (state, .valid) ∈ w.forkchoices ∧ state.Names hash

/-- A head of the client that a start adopted, or a block the client accepted. -/
def Trusted (w : FullNodeWorld) (hash : B256) : Prop :=
  (∃ height, (height, hash) ∈ w.adopted) ∨ w.Accepted hash

/-- The pointers stand on blocks the client vouched for; the synced height is that of the
finalized block. -/
structure OnlyValid (w : FullNodeWorld) (n : FullNode) : Prop where
  head : w.Trusted n.head
  safe : w.Trusted n.safe
  finalized : w.Trusted n.finalized
  synced : (n.syncedHeight, n.finalized) ∈ w.adopted ∨ (n.syncedHeight, n.finalized) ∈ w.verified

structure Extends (w w' : FullNodeWorld) : Prop where
  payloads : w.payloads ⊆ w'.payloads
  forkchoices : w.forkchoices ⊆ w'.forkchoices
  adopted : w.adopted ⊆ w'.adopted
  verified : w.verified ⊆ w'.verified

theorem Extends.same (hp : w'.payloads = w.payloads) (hf : w'.forkchoices = w.forkchoices)
    (ha : w'.adopted = w.adopted) (hv : w'.verified = w.verified) : Extends w w' :=
  ⟨hp ▸ List.Subset.refl _, hf ▸ List.Subset.refl _, ha ▸ List.Subset.refl _,
    hv ▸ List.Subset.refl _⟩

theorem Trusted.mono (h : w.Trusted hash) (hw : Extends w w') : w'.Trusted hash := by
  rcases h with ⟨height, h⟩ | ⟨hp, state, hs, hn⟩
  · exact .inl ⟨height, hw.adopted h⟩
  · exact .inr ⟨hw.payloads hp, state, hw.forkchoices hs, hn⟩

theorem OnlyValid.mono (h : w.OnlyValid n) (hw : Extends w w') : w'.OnlyValid n :=
  ⟨h.head.mono hw, h.safe.mono hw, h.finalized.mono hw,
    h.synced.imp (fun h => hw.adopted h) fun h => hw.verified h⟩

def restored (stored : StoredState) (state : ForkchoiceState) : FullNode :=
  ⟨stored.height, state.headBlockHash, stored.height, state.safeBlockHash,
    state.finalizedBlockHash⟩

/-- The node obeys, and so does the one the file holds. -/
structure Obedient (w : FullNodeWorld) : Prop where
  node : ∀ {n}, w.node = some n → w.OnlyValid n
  disk : ∀ {stored state}, w.disk.load = some stored → parseForkchoice stored = some state →
    w.OnlyValid (restored stored state)

/-- Every verdict is `VALID`, and the client has a settled block at its height only when it
had found it valid before. -/
def validReplies (src : NodeSources) (w : FullNodeWorld) : Action → Prop
  | .syncNext r => r.apply.Valid ∧ r.finalize = some .valid ∧
    ∀ n blocks block payload, w.node = some n → src.batchOf (n.syncedHeight + 1) = some blocks →
      block ∈ blocks → src.decode block.data = some payload →
      r.blockByNumber = some (some payload.blockHash) → (payload.blockHash, .valid) ∈ w.payloads
  | .pollP2p _ _ replies => replies.Valid
  | _ => True

theorem fresh_obedient : Obedient fresh := ⟨(nomatch ·), (nomatch ·)⟩

/-- Records only grow, the node obeys and the disk is as it was. -/
theorem Obedient.set (hw : Obedient w) (he : Extends w w') (hdisk : w'.disk = w.disk)
    (hnode : w'.node = some n) (hn : w'.OnlyValid n) : Obedient w' := by
  refine ⟨fun hn' => ?_, fun hl hp => (hw.disk (hdisk ▸ hl) hp).mono he⟩
  rw [hnode] at hn'
  cases hn'
  exact hn

theorem Obedient.applyBlock {replies : ApplyReplies} (hw : Obedient w) (hn : w.node = some n)
    (hr : replies.Valid) :
    Obedient (applyBlock src w n block replies).world ∧
    ∀ {w' n'}, FullNodeWorld.applyBlock src w n block replies = .ok (w', n') →
      w'.node = some n' ∧ ∃ payload, src.decode block.data = some payload ∧
        (payload.blockHash, .valid) ∈ w'.payloads := by
  obtain he | ⟨payload, status, hd, hp, hcase⟩ := applyBlock_cases src w n block replies
  · rw [he]
    exact ⟨hw, (nomatch ·)⟩
  · obtain ⟨rfl, hf⟩ := hr status hp
    obtain ⟨hnone, -⟩ | ⟨status', hsome, he⟩ := hcase
    · rw [hf] at hnone
      cases hnone
    · rw [hf] at hsome
      cases hsome
      rw [he]
      have hext : Extends w (Outcome.world (.ok (((w.answeredPayload block payload
          .valid).set (n.advanced payload.blockHash block.header.height)).answeredForkchoice
          (n.advanced payload.blockHash block.header.height).forkchoice .valid,
          n.advanced payload.blockHash block.header.height))) :=
        ⟨List.subset_cons_self .., List.subset_cons_self .., List.Subset.refl _,
          List.Subset.refl _⟩
      have hold := (hw.node hn).mono hext
      refine ⟨hw.set hext rfl rfl ⟨.inr ⟨List.mem_cons_self, _, List.mem_cons_self, .inl rfl⟩,
        hold.safe, hold.finalized, hold.synced⟩, fun hok => ?_⟩
      cases hok
      exact ⟨rfl, payload, hd, List.mem_cons_self⟩

theorem Obedient.markFinalized {saved : Bool} (hw : Obedient w) (hn : w.node = some n)
    (hd : src.decode block.data = some payload)
    (hvalid : (payload.blockHash, .valid) ∈ w.payloads) :
    Obedient (markFinalized src w n block (some .valid) saved).world := by
  obtain he | ⟨payload', hd', hcase⟩ := markFinalized_cases src w n block (some .valid) saved
  · rw [he]
    exact hw
  · rw [hd] at hd'
    cases hd'
    obtain ⟨hnone, -⟩ | ⟨status, hsome, he⟩ := hcase
    · cases hnone
    · cases hsome
      rw [he]
      -- The node after the block obeys in any world with these records.
      have hvalidNode : ∀ {w' : FullNodeWorld} {k : Nat}, Extends w w' →
          ((n.settled payload.blockHash block.header.height).forkchoice, .valid) ∈
            w'.forkchoices →
          (block.header.height, payload.blockHash) ∈ w'.verified →
          w'.OnlyValid ⟨block.header.height, n.head, k, payload.blockHash,
            payload.blockHash⟩ := by
        intro w' k hext hfork hmem
        have htrusted : w'.Trusted payload.blockHash :=
          .inr ⟨hext.payloads hvalid, _, hfork, .inr (.inl rfl)⟩
        exact ⟨(hw.node hn).head.mono hext, htrusted, htrusted, .inr hmem⟩
      cases saved with
      | true =>
        have hext : Extends w { ((w.finalizing block payload).set (n.settled
            payload.blockHash block.header.height)).answeredForkchoice
              (n.settled payload.blockHash block.header.height).forkchoice .valid with
            disk := .written ((n.settled payload.blockHash block.header.height).stored
              block.header.timestamp) } :=
          ⟨List.Subset.refl _, List.subset_cons_self .., List.Subset.refl _,
            List.subset_cons_self ..⟩
        refine ⟨fun hn' => ?_, fun hl hp => ?_⟩
        · cases hn'
          exact hvalidNode hext List.mem_cons_self List.mem_cons_self
        · cases hl
          rw [parseForkchoice_stored] at hp
          cases hp
          exact hvalidNode hext List.mem_cons_self List.mem_cons_self
      | false =>
        have hext : Extends w (((w.finalizing block payload).set (n.settled
            payload.blockHash block.header.height)).answeredForkchoice
              (n.settled payload.blockHash block.header.height).forkchoice .valid) :=
          ⟨List.Subset.refl _, List.subset_cons_self .., List.Subset.refl _,
            List.subset_cons_self ..⟩
        exact hw.set hext rfl rfl (hvalidNode hext List.mem_cons_self List.mem_cons_self)

theorem Obedient.syncNext {r : SyncReplies} (hw : Obedient w) (hn : w.node = some n)
    (hok : w.validReplies src (.syncNext r)) : Obedient (w.syncNext src n r).world := by
  obtain ⟨happly, hfinal, hhere⟩ := hok
  obtain he | ⟨blocks, block, hbatch, hmem, -, -, he⟩ := syncNext_cases src w n r
  · rw [he]
    exact hw
  · rw [he]
    obtain he | ⟨payload, hd, hblock, he⟩ | he := applyAndFinalize_cases src w n block r
    · rw [he]
      exact hw
    · rw [he, hfinal]
      exact hw.markFinalized hn hd (hhere n blocks block payload hn hbatch hmem hd hblock)
    · have happlied : Obedient (FullNodeWorld.applyBlock src w n block r.apply).world ∧ _ :=
        hw.applyBlock hn happly
      obtain ⟨hworld, hnode⟩ := happlied
      rw [he]
      cases ha : FullNodeWorld.applyBlock src w n block r.apply with
      | error w' =>
        rw [ha] at hworld
        exact hworld
      | ok r' =>
        obtain ⟨w', n'⟩ := r'
        rw [ha] at hworld
        obtain ⟨hn', payload, hd, hvalid⟩ := hnode ha
        have hmark : Obedient (FullNodeWorld.markFinalized src w' n' block r.finalize
            r.saved).world := by
          rw [hfinal]
          exact hworld.markFinalized hn' hd hvalid
        exact hmark

theorem Obedient.boot {head : Reply B256} {number : Reply Nat} (hw : Obedient w) :
    Obedient (w.boot head number) := by
  obtain he | ⟨stored, state, hl, hp, he⟩ | ⟨hash, height, -, -, -, he⟩ := boot_cases w head number
  · rw [he]
    exact hw
  · rw [he]
    have hext : Extends w (w.set (restored stored state)) := .same rfl rfl rfl rfl
    exact hw.set hext rfl rfl ((hw.disk hl hp).mono hext)
  · rw [he]
    have hext : Extends w { w.set ⟨height, hash, height, hash, hash⟩ with
        adopted := (height, hash) :: w.adopted } :=
      ⟨List.Subset.refl _, List.Subset.refl _, List.subset_cons_self .., List.Subset.refl _⟩
    have htrusted : Trusted { w.set ⟨height, hash, height, hash, hash⟩ with
        adopted := (height, hash) :: w.adopted } hash := .inl ⟨height, List.mem_cons_self⟩
    exact hw.set hext rfl rfl ⟨htrusted, htrusted, htrusted, .inl List.mem_cons_self⟩

theorem Obedient.exec (hw : Obedient w) (hok : w.validReplies src a)
    (h : w.exec src a = some w') : Obedient w' := by
  cases a with
  | boot head number =>
    simp only [FullNodeWorld.exec] at h
    split at h
    · cases h
      exact hw.boot
    · cases h
  | crash =>
    cases h
    exact ⟨(nomatch ·), fun hl hp => (hw.disk hl hp).mono (.same rfl rfl rfl rfl)⟩
  | loseFile | tearFile =>
    cases h
    exact ⟨fun hn => (hw.node hn).mono (.same rfl rfl rfl rfl), (nomatch ·)⟩
  | syncNext r =>
    simp only [FullNodeWorld.exec, Option.map_eq_some_iff] at h
    obtain ⟨n, hn, rfl⟩ := h
    exact hw.syncNext hn hok
  | pollP2p announced cached replies =>
    simp only [FullNodeWorld.exec, Option.map_eq_some_iff] at h
    obtain ⟨n, hn, rfl⟩ := h
    obtain he | ⟨block, -, -, he⟩ := pollP2p_cases src w n announced cached replies
    · rw [he]
      exact hw
    · rw [he]
      exact (hw.applyBlock hn hok).1

/-- The pointers stand only on blocks the client vouched for, when its verdicts are. -/
theorem validReplies_onlyValid
    (h : Reachable (· = fresh) (guarded (validReplies src) (enabled (exec src))) w)
    (hn : w.node = some n) : w.OnlyValid n := by
  have hw : Obedient w := by
    refine h.inv ?_ fun _ _ _ hw hs => hw.exec hs.1 hs.2
    rintro _ rfl
    exact fresh_obedient
  exact hw.node hn

/-- A node that syncs one block, with verdicts `VALID`. -/
theorem validReplies_onlyValid_first : ∃ (w : FullNodeWorld) (n : FullNode),
    w.node = some n ∧ n.finalized = firstPayload.blockHash ∧ w.OnlyValid n := by
  have hrun : Run (guarded (validReplies (firstChain true)) (enabled (exec (firstChain true))))
      fresh [.boot (some .zero) (some 0), .syncNext (.allValid none)] _ :=
    .cons ⟨trivial, rfl⟩ <| .cons ⟨⟨fun _ h => ⟨(Option.some.inj h).symm, rfl⟩, rfl,
      fun _ _ _ _ _ _ _ _ hb => by cases hb⟩, rfl⟩ .nil
  exact ⟨_, _, rfl, rfl, validReplies_onlyValid ⟨_, _, rfl, hrun⟩ rfl⟩

/-- A block that the client rejects twice is head, safe and finalized. -/
theorem rejected_finalized : ∃ (w : FullNodeWorld) (n : FullNode),
    Reachable (· = fresh) (enabled (exec (firstChain true))) w ∧ w.node = some n ∧
    n.head = firstPayload.blockHash ∧ n.finalized = firstPayload.blockHash ∧
    n.syncedHeight = 1 ∧ (firstPayload.blockHash, .invalid) ∈ w.payloads ∧
    ¬ w.Trusted firstPayload.blockHash := by
  have hrun : Run (enabled (exec (firstChain true))) fresh
      [.boot (some .zero) (some 0),
        .syncNext ⟨true, some none, ⟨some .invalid, some .invalid⟩, some .invalid, true⟩] _ :=
    run_of_execAll rfl
  refine ⟨_, _, ⟨_, _, rfl, hrun⟩, rfl, rfl, rfl, rfl, List.mem_cons_self, fun h => ?_⟩
  rcases h with ⟨height, hmem⟩ | ⟨hmem, -⟩
  · have hzero := List.mem_singleton.1 hmem
    cases hzero
  · have hsingle := List.mem_singleton.1 hmem
    cases hsingle

end FullNodeWorld

end Podseq.Node
