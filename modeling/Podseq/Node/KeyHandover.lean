import Podseq.Node.KeyRotation

/-! # Handing the adopted key to a late relayer

The rotation watcher and the relayer of the bridge are two tasks of one process. The watcher
leaves the adopted key in a holder and looks once for the relayer's client in a cell; the relayer
reads the holder early in its setup and fills the cell at its end. Between the two the watcher
can do all of its steps. Its plans come from records read as they stand on the ledger, which the
program's own reader does not do.
-/
namespace Podseq.Node
open Podseq.Lib Podseq.Move

namespace KeyHandover

/-! ## The two tasks -/

/-- Where the relayer is: before `new_or_adopted`, between it and the end of the setup, or
relaying. -/
inductive RelayerPhase
  | setup
  | built (client : Nat)
  | running (client : Nat)
deriving DecidableEq, Repr

/-- The last step of `swap_signers` that was done; the planner adopts once in a process. -/
inductive WatcherPhase
  | waiting | holderSet | settlementSwapped | snapshotWritten
  /-- It has a client from the cell and waits for its lock. -/
  | found (client : Nat)
  | done
deriving DecidableEq, Repr

/-- What the tasks share. A client is known by its place in `clients`, which has the key each
one signs with. -/
structure Tasks where
  adoptedKey : Option Address
  settlement : Address
  senderSnapshot : Address
  suiBridge : Option Nat
  clients : List Address
  relayer : RelayerPhase
  watcher : WatcherPhase
deriving DecidableEq, Repr

def Tasks.spawn (fileKey : Address) : Tasks :=
  ⟨none, fileKey, fileKey, none, [], .setup, .waiting⟩

inductive Event
  -- the relayer: a setup can fail after the client was built, and the relay loop can fail
  | newOrAdopted | failSetup | setupDone | exitRun
  -- the watcher, in the order of `swap_signers`
  | setHolder | swapSettlement | writeSnapshot | getBridge | swapBridge
deriving DecidableEq, Repr

def Event.ofWatcher : Event → Bool
  | .newOrAdopted | .failSetup | .setupDone | .exitRun => false
  | .setHolder | .swapSettlement | .writeSnapshot | .getBridge | .swapBridge => true

/-- One step of either task; a step out of turn is not enabled. -/
def step (fileKey staged : Address) (s : Tasks) : Event → Option Tasks
  | .newOrAdopted =>
    match s.relayer with
    | .setup => some { s with
        clients := s.clients ++ [s.adoptedKey.getD fileKey]
        relayer := .built s.clients.length }
    | _ => none
  | .failSetup =>
    match s.relayer with
    | .built _ => some { s with relayer := .setup }
    | _ => none
  | .setupDone =>
    match s.relayer with
    -- the result of `set` is dropped: a cell that is filled keeps its client
    | .built client => some { s with
        suiBridge := s.suiBridge.or (some client)
        relayer := .running client }
    | _ => none
  | .exitRun =>
    match s.relayer with
    | .running _ => some { s with relayer := .setup }
    | _ => none
  | .setHolder =>
    if s.watcher = .waiting then
      some { s with adoptedKey := some staged, watcher := .holderSet }
    else none
  | .swapSettlement =>
    if s.watcher = .holderSet then
      some { s with settlement := staged, watcher := .settlementSwapped }
    else none
  | .writeSnapshot =>
    if s.watcher = .settlementSwapped then
      some { s with senderSnapshot := staged, watcher := .snapshotWritten }
    else none
  | .getBridge =>
    if s.watcher = .snapshotWritten then
      match s.suiBridge with
      | some client => some { s with watcher := .found client }
      | none => some { s with watcher := .done }
    else none
  | .swapBridge =>
    match s.watcher with
    | .found client => some { s with clients := s.clients.set client staged, watcher := .done }
    | _ => none

/-- What a step does, the guard of each in its case. -/
inductive Stepped (fileKey staged : Address) (s : Tasks) : Event → Tasks → Prop
  | newOrAdopted (phase : s.relayer = .setup) : Stepped fileKey staged s .newOrAdopted { s with
      clients := s.clients ++ [s.adoptedKey.getD fileKey], relayer := .built s.clients.length }
  | failSetup {client} (phase : s.relayer = .built client) :
      Stepped fileKey staged s .failSetup { s with relayer := .setup }
  | setupDone {client} (phase : s.relayer = .built client) :
      Stepped fileKey staged s .setupDone { s with
        suiBridge := s.suiBridge.or (some client), relayer := .running client }
  | exitRun {client} (phase : s.relayer = .running client) :
      Stepped fileKey staged s .exitRun { s with relayer := .setup }
  | setHolder (phase : s.watcher = .waiting) : Stepped fileKey staged s .setHolder { s with
      adoptedKey := some staged, watcher := .holderSet }
  | swapSettlement (phase : s.watcher = .holderSet) :
      Stepped fileKey staged s .swapSettlement { s with
        settlement := staged, watcher := .settlementSwapped }
  | writeSnapshot (phase : s.watcher = .settlementSwapped) :
      Stepped fileKey staged s .writeSnapshot { s with
        senderSnapshot := staged, watcher := .snapshotWritten }
  | getFilled {client} (phase : s.watcher = .snapshotWritten) (cell : s.suiBridge = some client) :
      Stepped fileKey staged s .getBridge { s with watcher := .found client }
  | getEmpty (phase : s.watcher = .snapshotWritten) (cell : s.suiBridge = none) :
      Stepped fileKey staged s .getBridge { s with watcher := .done }
  | swapBridge {client} (phase : s.watcher = .found client) :
      Stepped fileKey staged s .swapBridge { s with
        clients := s.clients.set client staged, watcher := .done }

variable {fileKey staged : Address} {s s' t : Tasks} {e : Event} {es pre mid post : List Event}
  {client : Nat}

theorem step_cases (h : enabled (step fileKey staged) s e s') : Stepped fileKey staged s e s' := by
  cases e with
  | newOrAdopted | failSetup | setupDone | exitRun | swapBridge =>
    simp only [enabled, step] at h
    split at h <;> cases h
    constructor
    assumption
  | setHolder | swapSettlement | writeSnapshot =>
    simp only [enabled, step] at h
    split_ifs at h with hphase
    cases h
    constructor
    assumption
  | getBridge =>
    simp only [enabled, step] at h
    split_ifs at h with hphase
    split at h <;> cases h
    · exact .getFilled hphase ‹_›
    · exact .getEmpty hphase ‹_›

/-! ## What the schedule says about the state -/

/-- The watcher has looked at the cell. -/
def WatcherPhase.Looked : WatcherPhase → Prop
  | .waiting | .holderSet | .settlementSwapped | .snapshotWritten => False
  | .found _ | .done => True

/-- The schedule decides the holder, whether the cell is filled and whether the watcher has
looked at it. -/
structure Scheduled (staged : Address) (es : List Event) (s : Tasks) : Prop where
  holder : s.adoptedKey = if .setHolder ∈ es then some staged else none
  filled : s.suiBridge.isSome ↔ .setupDone ∈ es
  looked : s.watcher.Looked ↔ .getBridge ∈ es

theorem Scheduled.next (hi : Scheduled staged es s) (h : Stepped fileKey staged s e s') :
    Scheduled staged (es ++ [e]) s' := by
  obtain ⟨hholder, hfilled, hlooked⟩ := hi
  cases h with
  | setupDone phase => exact ⟨by simpa using hholder, by simp, by simpa using hlooked⟩
  | setHolder phase | swapSettlement phase | writeSnapshot phase | swapBridge phase =>
    rw [phase] at hlooked
    exact ⟨by simp [hholder], by simpa using hfilled, by simpa [WatcherPhase.Looked] using hlooked⟩
  | getFilled | getEmpty =>
    exact ⟨by simpa using hholder, by simpa using hfilled, by simp [WatcherPhase.Looked]⟩
  | newOrAdopted | failSetup | exitRun =>
    exact ⟨by simpa using hholder, by simpa using hfilled, by simpa using hlooked⟩

/-- The clients the tasks hold: the cell's and the watcher's exist and are one; a relayer in its
setup has one that it has not shared. -/
structure Linked (s : Tasks) : Prop where
  known : ∀ c, s.suiBridge = some c → c < s.clients.length
  found : ∀ c, s.watcher = .found c → s.suiBridge = some c
  built : ∀ c, s.relayer = .built c → c < s.clients.length ∧ s.suiBridge ≠ some c
  running : ∀ c, s.relayer = .running c → c < s.clients.length

theorem Linked.next (hi : Linked s) (h : Stepped fileKey staged s e s') : Linked s' := by
  obtain ⟨hknown, hfound, hbuilt, hrunning⟩ := hi
  cases h with
  | newOrAdopted phase =>
    refine ⟨fun c hc => ?_, hfound, fun c hc => ?_, nofun⟩
    · have hlt := hknown c hc
      simp only [List.length_append]
      omega
    · cases hc
      refine ⟨by simp, fun hcell => absurd (hknown _ hcell) (Nat.lt_irrefl _)⟩
  | failSetup phase => exact ⟨hknown, hfound, nofun, nofun⟩
  | setupDone phase =>
    refine ⟨fun c hc => ?_, fun c hc => ?_, nofun, fun c hc => ?_⟩
    · rcases Option.or_eq_some_iff.1 hc with hcell | ⟨-, hc⟩
      · exact hknown c hcell
      · cases hc
        exact (hbuilt _ phase).1
    · simp [hfound c hc]
    · cases hc
      exact (hbuilt _ phase).1
  | exitRun phase => exact ⟨hknown, hfound, nofun, nofun⟩
  | setHolder phase | swapSettlement phase | writeSnapshot phase | getEmpty phase cell =>
    exact ⟨hknown, nofun, hbuilt, hrunning⟩
  | getFilled phase cell =>
    refine ⟨hknown, fun c hc => ?_, hbuilt, hrunning⟩
    cases hc
    exact cell
  | swapBridge phase =>
    refine ⟨fun c hc => ?_, nofun, fun c hc => ?_, fun c hc => ?_⟩ <;> rw [List.length_set]
    · exact hknown c hc
    · exact hbuilt c hc
    · exact hrunning c hc

/-! ## The client of a running relayer -/

/-- The client signs with the adopted key, or will once the watcher is done. -/
def WillSign (staged : Address) (s : Tasks) (c : Nat) : Prop :=
  s.clients[c]? = some staged ∨ (s.suiBridge = some c ∧ ¬ s.watcher.Looked) ∨ s.watcher = .found c

/-- No step of the watcher changes what a client that exists will sign with. -/
theorem willSign_next (hi : Linked s) (hc : client < s.clients.length) (he : e.ofWatcher)
    (h : Stepped fileKey staged s e s') : WillSign staged s' client ↔ WillSign staged s client := by
  cases h with
  | newOrAdopted | failSetup | setupDone | exitRun => cases he
  | setHolder phase | swapSettlement phase | writeSnapshot phase =>
    simp [WillSign, phase, WatcherPhase.Looked]
  | getFilled phase cell =>
    simp [WillSign, phase, cell, WatcherPhase.Looked]
  | getEmpty phase cell =>
    simp [WillSign, phase, cell]
  | @swapBridge c phase =>
    have hcell := hi.found c phase
    by_cases heq : c = client
    · subst heq
      simp [WillSign, phase, hc]
    · simp [WillSign, phase, heq, WatcherPhase.Looked]

/-- The schedule hands the adopted key over: the relayer reads the holder after the watcher has
set it, or shares its client through the empty cell before the watcher looks. -/
def InTime (fileKey staged : Address) (pre mid : List Event) : Prop :=
  fileKey = staged ∨ .setHolder ∈ pre ∨ .setupDone ∉ pre ∧ .getBridge ∉ pre ++ mid

/-- How the schedule has gone since the relayer last read the holder. -/
inductive Handed (fileKey staged : Address) (es : List Event) (s : Tasks) : Prop
  | setup (phase : s.relayer = .setup)
  | built (c : Nat) (pre mid : List Event) (phase : s.relayer = .built c)
      (schedule : es = pre ++ .newOrAdopted :: mid) (others : ∀ e ∈ mid, e.ofWatcher)
      (key : s.clients[c]? = some (if .setHolder ∈ pre then staged else fileKey))
  | running (c : Nat) (pre mid post : List Event) (phase : s.relayer = .running c)
      (schedule : es = pre ++ .newOrAdopted :: mid ++ .setupDone :: post)
      (others : ∀ e ∈ mid ++ post, e.ofWatcher)
      (sign : WillSign staged s c ↔ InTime fileKey staged pre mid)

theorem relayer_next (he : e.ofWatcher) (h : Stepped fileKey staged s e s') :
    s'.relayer = s.relayer := by
  cases h with
  | newOrAdopted | failSetup | setupDone | exitRun => cases he
  | setHolder | swapSettlement | writeSnapshot | getFilled | getEmpty | swapBridge => rfl

/-- The watcher does not reach a client that was not shared. -/
theorem unshared_next (hi : Linked s) (hc : s.relayer = .built client) (he : e.ofWatcher)
    (h : Stepped fileKey staged s e s') : s'.clients[client]? = s.clients[client]? := by
  cases h with
  | newOrAdopted | failSetup | setupDone | exitRun => cases he
  | setHolder | swapSettlement | writeSnapshot | getFilled | getEmpty => rfl
  | @swapBridge c phase =>
    have hne : c ≠ client := by
      intro heq
      exact (hi.built client hc).2 (heq ▸ hi.found c phase)
    exact List.getElem?_set_ne hne

theorem Handed.next_watcher (hh : Handed fileKey staged es s) (hi : Linked s) (he : e.ofWatcher)
    (h : Stepped fileKey staged s e s') : Handed fileKey staged (es ++ [e]) s' := by
  have hrel := relayer_next he h
  cases hh with
  | setup phase => exact .setup (hrel.trans phase)
  | built c pre mid phase schedule others key =>
    refine .built c pre (mid ++ [e]) (hrel.trans phase) (by simp [schedule]) ?_ ?_
    · simpa [or_imp, forall_and] using ⟨others, he⟩
    · rw [unshared_next hi phase he h]
      exact key
  | running c pre mid post phase schedule others sign =>
    refine .running c pre mid (post ++ [e]) (hrel.trans phase) (by simp [schedule]) ?_ ?_
    · simp only [List.mem_append, List.mem_singleton] at others ⊢
      rintro e' (hmid | hpost | rfl)
      · exact others e' (.inl hmid)
      · exact others e' (.inr hpost)
      · exact he
    · exact (willSign_next hi (hi.running c phase) he h).trans sign

/-- The end of a setup: the client is shared if the cell is empty. -/
theorem willSign_setupDone (hsch : Scheduled staged (pre ++ .newOrAdopted :: mid) s) (hi : Linked s)
    (hphase : s.relayer = .built client) (hothers : ∀ e ∈ mid, e.ofWatcher)
    (hkey : s.clients[client]? = some (if .setHolder ∈ pre then staged else fileKey)) :
    WillSign staged { s with
      suiBridge := s.suiBridge.or (some client), relayer := .running client } client ↔
      InTime fileKey staged pre mid := by
  obtain ⟨-, hfilled, hlooked⟩ := hsch
  have hshared := (hi.built client hphase).2
  have hfound : s.watcher ≠ .found client := fun hw => hshared (hi.found client hw)
  have hnone : s.suiBridge.or (some client) = some client ↔ .setupDone ∉ pre := by
    have hmid : .setupDone ∉ mid := fun h => nomatch hothers _ h
    have hpre : s.suiBridge.isSome ↔ .setupDone ∈ pre := by simpa [hmid] using hfilled
    cases hcell : s.suiBridge with
    | none => simpa [hcell] using hpre
    | some c =>
      have hne : c ≠ client := fun heq => hshared (heq ▸ hcell)
      simpa [hcell, hne] using hpre
  have hseen : s.watcher.Looked ↔ .getBridge ∈ pre ++ mid := by simpa using hlooked
  simp only [WillSign, InTime, hkey, hnone, hseen, hfound, or_false]
  split_ifs with hset
  · simp [hset]
  · simp [hset]

theorem Handed.next (hh : Handed fileKey staged es s) (hsch : Scheduled staged es s)
    (hi : Linked s) (h : Stepped fileKey staged s e s') :
    Handed fileKey staged (es ++ [e]) s' := by
  by_cases he : e.ofWatcher
  · exact hh.next_watcher hi he h
  · cases h with
    | newOrAdopted phase =>
      refine .built s.clients.length es [] rfl rfl nofun ?_
      rw [List.getElem?_concat_length, hsch.holder]
      split_ifs <;> rfl
    | failSetup | exitRun => exact .setup rfl
    | setupDone phase =>
      cases hh with
      | setup phase' => rw [phase] at phase'; cases phase'
      | running c pre mid post phase' => rw [phase] at phase'; cases phase'
      | built c pre mid phase' schedule others key =>
        rw [phase] at phase'; cases phase'
        subst schedule
        refine .running _ pre mid [] rfl rfl ?_ ?_
        · simpa using others
        · exact willSign_setupDone hsch hi phase others key
    | setHolder | swapSettlement | writeSnapshot | getFilled | getEmpty | swapBridge =>
      exact absurd rfl he

/-- **When a late relayer signs with the adopted key.** In every interleaving of the two tasks,
with setups and relay loops that fail and start again: once the watcher is done, the client of
a running relayer signs with the adopted key exactly when its last setup was in time. -/
theorem late_relayer_signs_iff (hrun : Run (enabled (step fileKey staged)) (.spawn fileKey) es t)
    (hrelayer : t.relayer = .running client) (hwatcher : t.watcher = .done) :
    ∃ pre mid post, es = pre ++ .newOrAdopted :: mid ++ .setupDone :: post ∧
      (∀ e ∈ mid ++ post, e.ofWatcher) ∧
      (t.clients[client]? = some staged ↔
        fileKey = staged ∨ .setHolder ∈ pre ∨ .setupDone ∉ pre ∧ .getBridge ∉ pre ++ mid) := by
  have hstart : Scheduled staged [] (.spawn fileKey) ∧ Linked (.spawn fileKey) ∧
      Handed fileKey staged [] (.spawn fileKey) := by
    refine ⟨⟨rfl, ?_, ?_⟩, ⟨nofun, nofun, nofun, nofun⟩, .setup rfl⟩
    · simp [Tasks.spawn]
    · simp [Tasks.spawn, WatcherPhase.Looked]
  have hnext : ∀ es s e s', Scheduled staged es s ∧ Linked s ∧ Handed fileKey staged es s →
      enabled (step fileKey staged) s e s' →
      Scheduled staged (es ++ [e]) s' ∧ Linked s' ∧ Handed fileKey staged (es ++ [e]) s' := by
    intro es s e s' ⟨hsch, hlink, hhand⟩ hst
    have h := step_cases hst
    exact ⟨hsch.next h, hlink.next h, hhand.next hsch hlink h⟩
  obtain ⟨-, -, hhanded⟩ := hrun.history hstart hnext
  cases hhanded with
  | setup phase => rw [hrelayer] at phase; cases phase
  | built c pre mid phase => rw [hrelayer] at phase; cases phase
  | running c pre mid post phase schedule others sign =>
    rw [hrelayer] at phase; cases phase
    refine ⟨pre, mid, post, schedule, others, ?_⟩
    rw [← InTime, ← sign]
    simp [WillSign, hwatcher, WatcherPhase.Looked]

/-- A client built on the key file and shared before the watcher looks is swapped in its cell. -/
def sharedInTime : List Event :=
  [.newOrAdopted, .setHolder, .setupDone, .swapSettlement, .writeSnapshot, .getBridge, .swapBridge]

theorem late_relayer_signs_shared :
    ∃ t, Run (enabled (step 1 2)) (.spawn 1) sharedInTime t ∧ t.relayer = .running 0 ∧
      t.watcher = .done ∧ ∃ pre mid post,
        sharedInTime = pre ++ .newOrAdopted :: mid ++ .setupDone :: post ∧
        (∀ e ∈ mid ++ post, e.ofWatcher) ∧
        (t.clients[0]? = some 2 ↔
          (1 : Address) = 2 ∨ .setHolder ∈ pre ∨ .setupDone ∉ pre ∧ .getBridge ∉ pre ++ mid) :=
  ⟨⟨some 2, 2, 2, some 0, [2], .running 0, .done⟩, run_of_execAll rfl, rfl, rfl,
    late_relayer_signs_iff (run_of_execAll rfl) rfl rfl⟩

/-- **A relayer can keep the key of the file.** It reads an empty holder; the watcher sets the
holder and finds the cell empty, all before the setup is done. -/
theorem late_relayer_keeps_file_key :
    ¬ ∀ (fileKey staged : Address) (es : List Event) (t : Tasks) (client : Nat),
      Run (enabled (step fileKey staged)) (.spawn fileKey) es t →
      t.relayer = .running client → t.watcher = .done → t.clients[client]? = some staged := by
  intro h
  have hrun : Run (enabled (step 1 2)) (.spawn 1)
      [.newOrAdopted, .setHolder, .swapSettlement, .writeSnapshot, .getBridge, .setupDone]
      ⟨some 2, 2, 2, some 0, [1], .running 0, .done⟩ := run_of_execAll rfl
  exact absurd (h 1 2 _ _ 0 hrun rfl rfl) (by decide)

end KeyHandover

end Podseq.Node
