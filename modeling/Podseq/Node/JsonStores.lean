import Podseq.Lib.RenameFile
import Podseq.Node.ChainState
import Podseq.Node.InboxStore
import Podseq.Node.PendingStore

/-! # The JSON stores under concurrent tasks

The producer, the finalizer and the inbox poller run at the same time and rewrite three files.
Every call loads its file (or, for `state.json`, takes a snapshot of the shared pointers),
writes the temporary name of that file and renames it.
-/
namespace Podseq.Node
open Podseq.Lib

/-- The tasks of the sequencer; `recover_pending` runs in the producer's. -/
inductive Task
  | producer
  | finalizer
  | poller
deriving DecidableEq

inductive PendingOp
  | mark (height : Nat)
  | clear (height : Nat)
deriving DecidableEq

inductive InboxOp
  | recordSubmitted (nonce deadlineHeight deadlineMs firstSeenHeight : Nat)
      (txHash txBytes : String)
  | markIncluded (nonce height : Nat)
deriving DecidableEq

/-- A snapshot of the pointers, with how many updates of them came before it. -/
structure SavedState where
  stored : StoredState
  taken : Nat
deriving DecidableEq

def PendingOp.apply : PendingOp → PendingStore → Except StoreError PendingStore
  | .mark height, store => .ok (store.mark height)
  | .clear height, store => .ok (store.clear height)

def InboxOp.apply : InboxOp → InboxStore → Except StoreError InboxStore
  | .recordSubmitted nonce deadlineHeight deadlineMs firstSeenHeight txHash txBytes, store =>
    store.recordSubmitted nonce deadlineHeight deadlineMs firstSeenHeight txHash txBytes
  | .markIncluded nonce height, store => store.markIncluded nonce height

/-- A save replaces the contents. -/
def SavedState.apply (op : SavedState) (_ : Option SavedState) :
    Except StoreError (Option SavedState) :=
  .ok (some op)

/-- The calls of each task. -/
def PendingOp.calledBy : PendingOp → Task → Bool
  | .mark _, task => task = .producer
  | .clear _, task => task = .producer || task = .finalizer

def InboxOp.calledBy : InboxOp → Task → Bool
  | .recordSubmitted .., task => task = .poller
  | .markIncluded .., task => task = .producer || task = .poller

structure JsonStores where
  pending : RenameFile Task PendingOp PendingStore
  inbox : RenameFile Task InboxOp InboxStore
  /-- No contents until the first save. -/
  state : RenameFile Task SavedState (Option SavedState)
  memory : ChainState
  updates : Nat

namespace JsonStores

inductive Action
  | loadPending (task : Task) (op : PendingOp)
  | writePending (task : Task)
  | renamePending (task : Task)
  | loadInbox (task : Task) (op : InboxOp)
  | writeInbox (task : Task)
  | renameInbox (task : Task)
  /-- The start of `persist_state`: the pointers are read under their lock. -/
  | snapshot (task : Task) (height : Nat)
  | writeState (task : Task)
  | renameState (task : Task)
  /-- `produce_block` advances the head. -/
  | advanceHead (head : B256) (timestamp : Nat)
  /-- `advance_finalized` moves the other two pointers. -/
  | advanceFinalized (hash : B256)

def idle (w : JsonStores) (task : Task) : Bool :=
  (w.pending.calls task).isNone && (w.inbox.calls task).isNone && (w.state.calls task).isNone

def execPending (w : JsonStores) (step : RenameFile.Step Task PendingOp) : Option JsonStores :=
  (w.pending.exec PendingOp.apply step).map fun pending => { w with pending }

def execInbox (w : JsonStores) (step : RenameFile.Step Task InboxOp) : Option JsonStores :=
  (w.inbox.exec InboxOp.apply step).map fun inbox => { w with inbox }

def execState (w : JsonStores) (step : RenameFile.Step Task SavedState) : Option JsonStores :=
  (w.state.exec SavedState.apply step).map fun state => { w with state }

def update (w : JsonStores) (memory : ChainState) : JsonStores :=
  { w with memory, updates := w.updates + 1 }

/-- One step, when it is enabled: a task makes one call at a time. -/
def exec (w : JsonStores) : Action → Option JsonStores
  | .loadPending task op =>
    if w.idle task && op.calledBy task then w.execPending (.load task op) else none
  | .writePending task => w.execPending (.write task)
  | .renamePending task => w.execPending (.rename task)
  | .loadInbox task op =>
    if w.idle task && op.calledBy task then w.execInbox (.load task op) else none
  | .writeInbox task => w.execInbox (.write task)
  | .renameInbox task => w.execInbox (.rename task)
  | .snapshot task height =>
    if w.idle task && task != .poller then
      w.execState (.load task ⟨w.memory.stored height, w.updates⟩)
    else none
  | .writeState task => w.execState (.write task)
  | .renameState task => w.execState (.rename task)
  | .advanceHead head timestamp =>
    if w.idle .producer then some (w.update { w.memory with head, timestamp }) else none
  | .advanceFinalized hash =>
    if w.idle .finalizer then some (w.update { w.memory with safe := hash, finalized := hash })
    else none

/-- Every rename publishes what its own call wrote, and no other call on the file completed
since that call loaded it. -/
def undisturbed (w : JsonStores) : Action → Bool
  | .renamePending task => w.pending.undisturbed (.rename task)
  | .renameInbox task => w.inbox.undisturbed (.rename task)
  | .renameState task => w.state.undisturbed (.rename task)
  | _ => true

/-- No call in flight; the files hold anything, and temporary files may be left over. -/
def Start (w : JsonStores) : Prop :=
  ∃ pending pendingTmp inbox inboxTmp state stateTmp memory, w = {
    pending := .start pending pendingTmp
    inbox := .start inbox inboxTmp
    state := .start state stateTmp
    memory := memory
    updates := 0 }

/-- Each file is what some order of the complete calls makes of its first contents, and
`state.json` holds the newest snapshot saved. -/
structure NothingLost (w₀ w : JsonStores) : Prop where
  pending : RenameFile.Serial PendingOp.apply w₀.pending.file w.pending
  inbox : RenameFile.Serial InboxOp.apply w₀.inbox.file w.inbox
  state : RenameFile.Serial SavedState.apply w₀.state.file w.state
  newest : ∀ op ∈ w.state.done, ∃ saved, w.state.file = some saved ∧ op.taken ≤ saved.taken

/-! ## Undisturbed runs -/

variable {w w₀ w' : JsonStores} {a : Action} {state state' : RenameFile Task SavedState
  (Option SavedState)} {updates : Nat} {task : Task}

/-- Snapshots are saved in the order in which they were taken. -/
structure InTurn (state : RenameFile Task SavedState (Option SavedState)) (updates : Nat) :
    Prop where
  past : ∀ op ∈ state.done, op.taken ≤ updates
  /-- A call that nobody overtook has a newer snapshot than every complete one. -/
  current : ∀ {task call}, state.calls task = some call →
    call.op.taken ≤ updates ∧ call.next = some call.op ∧
      (call.loadedAt = state.done.length → ∀ op ∈ state.done, op.taken ≤ call.op.taken)
  newest : ∀ op ∈ state.done, ∃ saved, state.file = some saved ∧ op.taken ≤ saved.taken

theorem InTurn.update (h : InTurn state updates) : InTurn state (updates + 1) := by
  refine ⟨fun op hop => Nat.le_succ_of_le (h.past op hop), fun hc => ?_, h.newest⟩
  obtain ⟨hle, hnext⟩ := h.current hc
  exact ⟨Nat.le_succ_of_le hle, hnext⟩

theorem InTurn.load {stored : StoredState} (h : InTurn state updates)
    (hs : state.exec SavedState.apply (.load task ⟨stored, updates⟩) = some state') :
    InTurn state' updates := by
  obtain rfl | ⟨-, next, hnext, rfl⟩ := RenameFile.load_cases hs
  · exact h
  · cases hnext
    refine ⟨h.past, fun {task' call} hc => ?_, h.newest⟩
    obtain ⟨-, hc⟩ | hc := RenameFile.setCall_eq_some hc
    · cases hc
      exact ⟨Nat.le_refl _, rfl, fun _ => h.past⟩
    · exact h.current hc

theorem InTurn.write (h : InTurn state updates)
    (hs : state.exec SavedState.apply (.write task) = some state') : InTurn state' updates := by
  obtain ⟨op, next, loadedAt, hcall, rfl⟩ := RenameFile.write_cases hs
  refine ⟨h.past, fun {task' call} hc => ?_, h.newest⟩
  obtain ⟨-, hc⟩ | hc := RenameFile.setCall_eq_some (f := state) hc
  · cases hc
    have hcurrent := h.current hcall
    exact hcurrent
  · exact h.current hc

theorem InTurn.rename {contents : Option SavedState} (h : InTurn state updates)
    (ho : RenameFile.InOrder SavedState.apply contents state)
    (hok : state.undisturbed (.rename task))
    (hs : state.exec SavedState.apply (.rename task) = some state') : InTurn state' updates := by
  obtain ⟨op, next, loadedAt, hcall, hcase⟩ := RenameFile.rename_cases hs
  simp only [RenameFile.undisturbed, hcall, Bool.and_eq_true, decide_eq_true_eq] at hok
  have htmp := ho.written hok.2 hcall rfl
  obtain ⟨hle, hnext, hmax⟩ := h.current hcall
  dsimp only at hle hnext hmax htmp
  obtain ⟨hnone, -⟩ | ⟨contents', hsome, rfl⟩ := hcase
  · rw [hnone] at htmp
    cases htmp
  · rw [hsome, hnext] at htmp
    cases htmp
    refine ⟨fun op' hop => ?_, fun {task' call} hc => ?_, fun op' hop => ?_⟩
    · rcases List.mem_append.1 hop with hop | hop
      · exact h.past op' hop
      · rw [List.mem_singleton.1 hop]
        exact hle
    · obtain ⟨-, hc⟩ | hc := RenameFile.setCall_eq_some (f := state) hc
      · cases hc
      · obtain ⟨hle', hnext', -⟩ := h.current hc
        -- The rename overtook every other call in flight.
        have hloaded := (ho.loaded hc).1
        refine ⟨hle', hnext', fun he => ?_⟩
        simp only [List.length_append, List.length_singleton] at he
        omega
    · refine ⟨op, rfl, ?_⟩
      rcases List.mem_append.1 hop with hop | hop
      · exact hmax hok.1 op' hop
      · rw [List.mem_singleton.1 hop]

/-- What every undisturbed run keeps. -/
structure Kept (w₀ w : JsonStores) : Prop where
  pending : RenameFile.InOrder PendingOp.apply w₀.pending.file w.pending
  inbox : RenameFile.InOrder InboxOp.apply w₀.inbox.file w.inbox
  state : RenameFile.InOrder SavedState.apply w₀.state.file w.state
  turn : InTurn w.state w.updates

theorem start_kept (h : Start w) : Kept w w := by
  obtain ⟨pending, pendingTmp, inbox, inboxTmp, state, stateTmp, memory, rfl⟩ := h
  refine ⟨RenameFile.start_inOrder, RenameFile.start_inOrder, RenameFile.start_inOrder, ?_⟩
  exact ⟨fun _ h => (List.not_mem_nil h).elim, (nomatch ·), fun _ h => (List.not_mem_nil h).elim⟩

theorem Kept.execPending {step : RenameFile.Step Task PendingOp} (hw : Kept w₀ w)
    (hok : w.pending.undisturbed step) (h : w.execPending step = some w') : Kept w₀ w' := by
  simp only [JsonStores.execPending, Option.map_eq_some_iff] at h
  obtain ⟨pending, hp, rfl⟩ := h
  exact { hw with pending := hw.pending.exec hok hp }

theorem Kept.execInbox {step : RenameFile.Step Task InboxOp} (hw : Kept w₀ w)
    (hok : w.inbox.undisturbed step) (h : w.execInbox step = some w') : Kept w₀ w' := by
  simp only [JsonStores.execInbox, Option.map_eq_some_iff] at h
  obtain ⟨inbox, hi, rfl⟩ := h
  exact { hw with inbox := hw.inbox.exec hok hi }

theorem Kept.execState {step : RenameFile.Step Task SavedState} (hw : Kept w₀ w)
    (hok : w.state.undisturbed step) (h : w.execState step = some w')
    (hturn : ∀ {state'}, w.state.exec SavedState.apply step = some state' →
      InTurn state' w.updates) : Kept w₀ w' := by
  simp only [JsonStores.execState, Option.map_eq_some_iff] at h
  obtain ⟨state, hs, rfl⟩ := h
  exact { hw with state := hw.state.exec hok hs, turn := hturn hs }

theorem Kept.exec (hw : Kept w₀ w) (hok : w.undisturbed a) (h : w.exec a = some w') :
    Kept w₀ w' := by
  cases a with
  | loadPending task op =>
    simp only [JsonStores.exec, Option.ite_none_right_eq_some] at h
    exact hw.execPending rfl h.2
  | writePending task => exact hw.execPending rfl h
  | renamePending task =>
    have hrename : w.pending.undisturbed (.rename task) := hok
    exact hw.execPending hrename h
  | loadInbox task op =>
    simp only [JsonStores.exec, Option.ite_none_right_eq_some] at h
    exact hw.execInbox rfl h.2
  | writeInbox task => exact hw.execInbox rfl h
  | renameInbox task =>
    have hrename : w.inbox.undisturbed (.rename task) := hok
    exact hw.execInbox hrename h
  | snapshot task height =>
    simp only [JsonStores.exec, Option.ite_none_right_eq_some] at h
    exact hw.execState rfl h.2 hw.turn.load
  | writeState task => exact hw.execState rfl h hw.turn.write
  | renameState task =>
    have hrename : w.state.undisturbed (.rename task) := hok
    exact hw.execState hrename h (hw.turn.rename hw.state hrename)
  | advanceHead head timestamp =>
    simp only [JsonStores.exec, Option.ite_none_right_eq_some, Option.some.injEq] at h
    obtain ⟨-, rfl⟩ := h
    exact { hw with turn := hw.turn.update }
  | advanceFinalized hash =>
    simp only [JsonStores.exec, Option.ite_none_right_eq_some, Option.some.injEq] at h
    obtain ⟨-, rfl⟩ := h
    exact { hw with turn := hw.turn.update }

/-- As long as no call is overtaken between its load and its rename, nothing is lost. -/
theorem undisturbed_nothingLost {as : List Action} (h₀ : Start w₀)
    (h : Run (guarded (fun w a => w.undisturbed a) (enabled exec)) w₀ as w) :
    NothingLost w₀ w := by
  have hw := h.inv (I := Kept w₀) (fun _ _ _ hu hs => hu.exec hs.1 hs.2) (start_kept h₀)
  exact ⟨hw.pending.serial, hw.inbox.serial, hw.state.serial, hw.turn.newest⟩

/-- The finalizer clears height 1, the poller records a submission and the producer saves the
pointers, step by step beside each other; then the producer marks height 2. -/
def sideBySide : List Action :=
  [.loadPending .finalizer (.clear 1), .advanceHead (.repeated 2) 5,
    .loadInbox .poller (.recordSubmitted 0 9 900 1 "0x00" "0x07"), .snapshot .producer 1,
    .writePending .finalizer, .writeState .producer, .writeInbox .poller, .renameState .producer,
    .renamePending .finalizer, .loadPending .producer (.mark 2), .renameInbox .poller,
    .writePending .producer, .renamePending .producer]

def onePending : JsonStores where
  pending := .start (PendingStore.empty.mark 1) none
  inbox := .start .fresh none
  state := .start none none
  memory := ⟨.zero, .zero, .zero, 0⟩
  updates := 0

theorem onePending_start : Start onePending := ⟨_, _, _, _, _, _, _, rfl⟩

theorem undisturbed_nothingLost_calls : ∃ w, NothingLost onePending w ∧
    w.pending.file.heights = [2] ∧
    w.inbox.file.get 0 = some (.submitted 9 900 1 "0x00" "0x07") ∧
    w.state.file.map (fun saved => saved.stored.timestamp) = some 5 := by
  have hrun : Run (guarded (fun w a => undisturbed w a) (enabled exec)) onePending
      sideBySide _ := run_of_execOk rfl
  exact ⟨_, undisturbed_nothingLost onePending_start hrun, rfl, rfl, rfl⟩

/-! ## A lost mark -/

/-- In every sequential order a marked height that no call clears stays marked. -/
theorem replay_mark {height : Nat} {ops : List PendingOp} {store store' : PendingStore}
    (hclear : .clear height ∉ ops) (hmark : .mark height ∈ ops ∨ height ∈ store.heights)
    (h : RenameFile.replay PendingOp.apply store ops = .ok store') : height ∈ store'.heights := by
  induction ops generalizing store with
  | nil =>
    cases h
    exact hmark.resolve_left List.not_mem_nil
  | cons op ops ih =>
    obtain ⟨hop, hops⟩ := not_or.1 (mt List.mem_cons.2 hclear)
    cases op with
    | mark height' =>
      refine ih hops ?_ h
      rw [PendingStore.mem_mark]
      rcases hmark with hmark | hmark
      · rcases List.mem_cons.1 hmark with he | hmark
        · cases he
          exact .inr (.inl rfl)
        · exact .inl hmark
      · exact .inr (.inr hmark)
    | clear height' =>
      refine ih hops ?_ h
      rw [PendingStore.mem_clear]
      rcases hmark with hmark | hmark
      · exact .inl ((List.mem_cons.1 hmark).resolve_left (nomatch ·))
      · exact .inr ⟨fun he => hop (he ▸ rfl), hmark⟩

/-- The finalizer loads the file, the producer marks height 2, and the finalizer puts back what
it made of the contents it loaded. -/
theorem mark_lost : ∃ as w, Start onePending ∧ Run (enabled exec) onePending as w ∧
    ¬ NothingLost onePending w := by
  have hrun : Run (enabled exec) onePending
      [.loadPending .finalizer (.clear 1), .loadPending .producer (.mark 2),
        .writePending .producer, .renamePending .producer, .writePending .finalizer,
        .renamePending .finalizer] _ := run_of_execAll rfl
  refine ⟨_, _, onePending_start, hrun, fun hlost => ?_⟩
  obtain ⟨order, hperm, hreplay⟩ := hlost.pending
  have hmem : 2 ∈ _ := replay_mark (fun h => absurd (hperm.mem_iff.1 h) (by decide))
    (.inl (hperm.mem_iff.2 (by decide))) hreplay
  exact absurd hmem (by decide)

end JsonStores

end Podseq.Node
