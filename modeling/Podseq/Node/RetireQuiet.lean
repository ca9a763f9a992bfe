import Podseq.Node.KeyRotation

/-! # The quiet interval before a retirement

An executor is asked for at most one step by each `apply`. Here every call of it stays on record,
also one that fails, with the instants at which it was made and at which it had returned, over all
that one process applies. A retirement that follows an `Adopt` plan waits out the quiet interval;
one that follows a `Retire` plan only looks whether the staged key was adopted.
-/
namespace Podseq.Node
open Podseq.Lib Podseq.Move

namespace KeyRotation

variable {ε σ : Type}

inductive ExecutorStep
  | claim | adopt | retirePrevious
deriving DecidableEq, Repr

def Executor.call (executor : Executor σ) : ExecutorStep → Address → σ → Tx σ
  | .claim => executor.claim
  | .adopt => executor.adopt
  | .retirePrevious => executor.retirePrevious

structure ExecutorCall where
  step : ExecutorStep
  key : Address
  started : Nat
  finished : Nat
  succeeded : Bool
deriving DecidableEq, Repr

/-- The guard of a process, under its clock, and the calls that its executor received. -/
structure RotationTask where
  now : Nat
  guard : AdoptionGuard
  calls : List ExecutorCall
deriving DecidableEq, Repr

/-- What is applied; when the guard is asked whether the quiet interval is over; and how a call of
the executor would go. -/
structure Application (ε : Type) where
  plan : Plan
  stagedKey : Option Address
  checked : Nat
  started : Nat
  finished : Nat
  answer : ExecutorStep → Address → Except ε Unit

namespace Application

/-- What stays of a call. -/
def record (p : Application ε) (step : ExecutorStep) (key : Address) : ExecutorCall :=
  ⟨step, key, p.started, p.finished, (p.answer step key).isOk⟩

def call (p : Application ε) (step : ExecutorStep) (key : Address) (w : RotationTask) :
    Except ε Unit × RotationTask :=
  (p.answer step key, { w with calls := w.calls ++ [p.record step key] })

def adopt (p : Application ε) (w : RotationTask) : Except ε Action × RotationTask :=
  match p.stagedKey with
  | none => (.ok .refused, w)
  | some key =>
    match p.call .adopt key w with
    | (.error e, w) => (.error e, w)
    | (.ok _, w) => (.ok .adopted, { w with guard := w.guard.markAdopted p.finished })

def retire (p : Application ε) (w : RotationTask) : Except ε Action × RotationTask :=
  match p.stagedKey with
  | none => (.ok .refused, w)
  | some key =>
    match p.call .retirePrevious key w with
    | (.error e, w) => (.error e, w)
    | (.ok _, w) => (.ok .retired, w)

/-- `apply`, with what it leaves when a call fails. -/
def apply (p : Application ε) (w : RotationTask) : Except ε Action × RotationTask :=
  match p.plan with
  | .idle => (.ok .idle, w)
  | .misconfigured => (.ok .refused, w)
  | .claim =>
    match p.stagedKey with
    | none => (.ok .refused, w)
    | some key =>
      match p.call .claim key w with
      | (.error e, w) => (.error e, w)
      | (.ok _, w) => (.ok .claimed, w)
  | .adopt =>
    if w.guard.adopted then
      if w.guard.retireReady p.checked then p.retire w else (.ok .idle, w)
    else p.adopt w
  | .retire => if w.guard.adopted then p.retire w else p.adopt w

/-! ## The step on a state -/

section Executor

variable {executor : Executor σ} {s : σ} {p : Application Abort} {w : RotationTask}

/-- The executor answers as it acts on `s`. -/
def Answers (executor : Executor σ) (s : σ) (p : Application Abort) : Prop :=
  ∀ step key, p.answer step key = (executor.call step key s).map fun _ => ()

/-- The action and the guard. -/
def outcome (r : Except Abort Action × RotationTask) : Except Abort (Action × AdoptionGuard) :=
  r.1.map fun action => (action, r.2.guard)

theorem retire_executor (h : Answers executor s p) :
    (KeyRotation.retire executor p.stagedKey w.guard s).map (fun r => (r.1, r.2.1)) =
      outcome (p.retire w) := by
  have hanswer := h .retirePrevious
  simp only [Executor.call] at hanswer
  unfold KeyRotation.retire Application.retire
  cases p.stagedKey with
  | none => rfl
  | some key =>
    simp only [call, hanswer]
    cases executor.retirePrevious key s <;> rfl

theorem adopt_executor (h : Answers executor s p) :
    (KeyRotation.adopt executor p.stagedKey w.guard p.finished s).map (fun r => (r.1, r.2.1)) =
      outcome (p.adopt w) := by
  have hanswer := h .adopt
  simp only [Executor.call] at hanswer
  unfold KeyRotation.adopt Application.adopt
  cases p.stagedKey with
  | none => rfl
  | some key =>
    simp only [call, hanswer]
    cases executor.adopt key s <;> rfl

/-- Where all happens at one instant, the action and the guard are those of the step on `s`. -/
theorem apply_executor (h : Answers executor s p) (hinstant : p.checked = p.finished) :
    (KeyRotation.apply p.plan p.stagedKey executor w.guard p.finished s).map
      (fun r => (r.1, r.2.1)) = outcome (p.apply w) := by
  cases hplan : p.plan with
  | idle | misconfigured => simp only [KeyRotation.apply, apply, hplan]; rfl
  | claim =>
    have hanswer := h .claim
    simp only [Executor.call] at hanswer
    simp only [KeyRotation.apply, apply, hplan]
    cases p.stagedKey with
    | none => rfl
    | some key =>
      simp only [call, hanswer]
      cases executor.claim key s <;> rfl
  | adopt =>
    simp only [KeyRotation.apply, apply, hplan, hinstant]
    split_ifs
    · exact retire_executor h
    · rfl
    · exact adopt_executor h
  | retire =>
    simp only [KeyRotation.apply, apply, hplan]
    split_ifs
    · exact retire_executor h
    · exact adopt_executor h

end Executor

/-! ## What one application calls -/

variable {p : Application ε} {w : RotationTask}

/-- A task that made a call. -/
def called (p : Application ε) (step : ExecutorStep) (key : Address) (w : RotationTask) :
    RotationTask :=
  { w with calls := w.calls ++ [p.record step key] }

theorem retire_some {key : Address} (hkey : p.stagedKey = some key) :
    (p.retire w).2 = p.called .retirePrevious key w := by
  simp only [retire, hkey, call]
  cases p.answer .retirePrevious key <;> rfl

theorem adopt_some {key : Address} (hkey : p.stagedKey = some key) :
    (∃ e, p.answer .adopt key = .error e ∧
      p.adopt w = (.error e, p.called .adopt key w)) ∨
    p.answer .adopt key = .ok () ∧ p.adopt w = (.ok .adopted,
      { p.called .adopt key w with guard := w.guard.markAdopted p.finished }) := by
  simp only [adopt, hkey, call]
  cases hanswer : p.answer .adopt key with
  | error e => exact .inl ⟨e, rfl, rfl⟩
  | ok _ => exact .inr ⟨rfl, rfl⟩

theorem adopt_calls {key : Address} (hkey : p.stagedKey = some key) :
    (p.adopt w).2.calls = w.calls ++ [p.record .adopt key] := by
  obtain ⟨e, -, h⟩ | ⟨-, h⟩ := @adopt_some _ p w _ hkey <;> rw [h] <;> rfl

/-- Nothing is called; or a claim; or a retirement, after an adoption, whose quiet interval is over
where the plan is to adopt; or an adoption, before any. -/
theorem apply_cases (p : Application ε) (w : RotationTask) :
    (p.apply w).2 = w ∨
    (∃ key, (p.apply w).2 = p.called .claim key w) ∨
    (w.guard.adopted ∧ (p.plan = .retire ∨ w.guard.retireReady p.checked) ∧
      ∃ key, p.stagedKey = some key ∧ (p.apply w).2 = p.called .retirePrevious key w) ∨
    (w.guard.adopted = false ∧ ∃ key, p.stagedKey = some key ∧ p.apply w = p.adopt w) := by
  cases hkey : p.stagedKey with
  | none =>
    left
    simp only [apply, retire, adopt, hkey]
    cases p.plan <;> first | rfl | (split_ifs <;> rfl)
  | some key =>
    cases hplan : p.plan with
    | idle => left; simp only [apply, hplan]
    | misconfigured => left; simp only [apply, hplan]
    | claim =>
      right; left
      refine ⟨key, ?_⟩
      simp only [apply, hplan, hkey, call]
      cases p.answer .claim key <;> rfl
    | adopt =>
      simp only [apply, hplan]
      split_ifs with hadopted hready
      · exact .inr (.inr (.inl ⟨hadopted, .inr hready, key, rfl, retire_some hkey⟩))
      · exact .inl rfl
      · exact .inr (.inr (.inr ⟨Bool.eq_false_iff.2 hadopted, key, rfl, rfl⟩))
    | retire =>
      simp only [apply, hplan]
      split_ifs with hadopted
      · exact .inr (.inr (.inl ⟨hadopted, .inl trivial, key, rfl, retire_some hkey⟩))
      · exact .inr (.inr (.inr ⟨Bool.eq_false_iff.2 hadopted, key, rfl, rfl⟩))

theorem apply_adopts {key : Address} (hkey : p.stagedKey = some key)
    (hplan : p.plan = .adopt ∨ p.plan = .retire) (hguard : w.guard.adopted = false) :
    (p.apply w).2.calls = w.calls ++ [p.record .adopt key] := by
  have happly : p.apply w = p.adopt w := by
    rcases hplan with hplan | hplan <;> simp [apply, hplan, hguard]
  rw [happly]
  exact adopt_calls hkey

end Application

/-! ## One process -/

namespace RotationTask

/-- The instants of an application are in order, and after those of the one before. -/
def exec (w : RotationTask) (p : Application ε) : Option RotationTask :=
  if w.now ≤ p.checked ∧ p.checked ≤ p.started ∧ p.started ≤ p.finished then
    some { (p.apply w).2 with now := p.finished }
  else none

def start (now retireQuiet : Nat) : RotationTask := ⟨now, .new retireQuiet, []⟩

/-- Every retirement so far was called a quiet interval or more after an adoption had succeeded. -/
def Paced (w : RotationTask) : Prop :=
  ∀ pre c, pre ++ [c] <+: w.calls → c.step = .retirePrevious →
    ∃ a ∈ pre, a.step = .adopt ∧ a.succeeded ∧ a.finished + w.guard.retireQuiet ≤ c.started

def OneCall (w w' : RotationTask) : Prop := ∃ calls, calls.length ≤ 1 ∧ w'.calls = w.calls ++ calls

/-- An adoption that fails is reported, leaves the guard unmarked, and is called again by the next
application that is to adopt or to retire. -/
def AdoptsAgain (w : RotationTask) (p : Application ε) (w' : RotationTask) : Prop :=
  ∀ c, w'.calls = w.calls ++ [c] → c.step = .adopt → c.succeeded = false →
    (∃ e, (p.apply w).1 = .error e) ∧ w'.guard.adopted = false ∧
      ∀ (q : Application ε) (key : Address), (q.plan = .adopt ∨ q.plan = .retire) →
        q.stagedKey = some key → (q.apply w').2.calls = w'.calls ++ [q.record .adopt key]

/-- After an adoption, a plan to retire is applied with a staged key only when the quiet interval
is over. -/
def Quiet (w : RotationTask) (p : Application ε) : Prop :=
  p.plan = .retire → p.stagedKey.isSome → w.guard.adopted → w.guard.retireReady p.started

variable {w w' : RotationTask} {p : Application ε} {ps : List (Application ε)}

theorem exec_eq_some : exec w p = some w' ↔
    (w.now ≤ p.checked ∧ p.checked ≤ p.started ∧ p.started ≤ p.finished) ∧
      w' = { (p.apply w).2 with now := p.finished } := by
  rw [exec]
  split_ifs with h
  · rw [Option.some.injEq, eq_comm, and_iff_right h]
  · simp [h]

/-! ### What every step does -/

theorem oneCall (h : exec w p = some w') : OneCall w w' := by
  obtain ⟨-, rfl⟩ := exec_eq_some.1 h
  obtain hnone | ⟨key, hclaim⟩ | ⟨-, -, key, -, hretire⟩ | ⟨-, key, hkey, hadopt⟩ :=
    p.apply_cases w
  · exact ⟨[], Nat.zero_le _, by simp [hnone]⟩
  · exact ⟨[_], le_rfl, by rw [hclaim]; rfl⟩
  · exact ⟨[_], le_rfl, by rw [hretire]; rfl⟩
  · exact ⟨[_], le_rfl, by rw [hadopt]; exact Application.adopt_calls hkey⟩

theorem adoptsAgain (h : exec w p = some w') : AdoptsAgain w p w' := by
  intro c hcalls hstep hfailed
  obtain ⟨-, rfl⟩ := exec_eq_some.1 h
  have hlast : ∀ {c' : ExecutorCall}, w.calls ++ [c'] = w.calls ++ [c] → c = c' := by
    intro c' heq
    simpa using (List.append_cancel_left heq).symm
  obtain hnone | ⟨key, hclaim⟩ | ⟨-, -, key, -, hretire⟩ | ⟨hguard, key, hkey, hadopt⟩ :=
    p.apply_cases w
  · simp [hnone] at hcalls
  · simp only [hclaim, Application.called] at hcalls
    rw [hlast hcalls] at hstep
    cases hstep
  · simp only [hretire, Application.called] at hcalls
    rw [hlast hcalls] at hstep
    cases hstep
  · obtain ⟨e, -, hadopted⟩ | ⟨hok, hadopted⟩ := @Application.adopt_some _ p w _ hkey
    · rw [hadopt, hadopted]
      refine ⟨⟨e, rfl⟩, hguard, fun q key' hplan hkey' => ?_⟩
      exact Application.apply_adopts hkey' hplan hguard
    · simp only [hadopt, hadopted, Application.called] at hcalls
      rw [hlast hcalls, Application.record, hok] at hfailed
      cases hfailed

/-! ### The invariant -/

/-- What the guard says is the one adoption that succeeded. -/
structure Inv (w : RotationTask) : Prop where
  past : ∀ c ∈ w.calls, c.finished ≤ w.now
  marked : ∀ instant, w.guard.adoptedAt = some instant →
    ∃ a ∈ w.calls, a.step = .adopt ∧ a.succeeded ∧ a.finished = instant
  only : ∀ a ∈ w.calls, a.step = .adopt → a.succeeded → w.guard.adoptedAt = some a.finished
  paced : Paced w

theorem start_inv (now retireQuiet : Nat) : Inv (start now retireQuiet) := by
  refine ⟨?_, ?_, ?_, fun pre c hpre => ?_⟩
  · exact List.forall_mem_nil _
  · intro instant h
    cases h
  · intro a ha
    cases ha
  · have hnil := List.prefix_nil.1 hpre
    cases List.append_ne_nil_of_right_ne_nil pre (List.cons_ne_nil c []) hnil

/-- One more call. -/
theorem paced_called {c : ExecutorCall} {now : Nat} {guard : AdoptionGuard}
    (hquiet : guard.retireQuiet = w.guard.retireQuiet) :
    Paced ⟨now, guard, w.calls ++ [c]⟩ ↔ Paced w ∧ (c.step = .retirePrevious →
      ∃ a ∈ w.calls, a.step = .adopt ∧ a.succeeded ∧
        a.finished + w.guard.retireQuiet ≤ c.started) := by
  constructor
  · intro h
    rw [Paced, hquiet] at h
    exact ⟨fun pre c' hpre => h pre c' (hpre.trans (List.prefix_append _ _)),
      h w.calls c List.prefix_rfl⟩
  · intro h pre c' hpre
    rw [List.prefix_concat_iff] at hpre
    rw [hquiet]
    rcases hpre with heq | hpre
    · obtain ⟨rfl, rfl⟩ := List.append_inj' heq rfl |>.imp id List.singleton_inj.1
      exact h.2
    · exact h.1 pre c' hpre

/-- After an adoption, the quiet interval is over exactly when it is since the call. -/
theorem Inv.retireReady_iff (h : Inv w) {instant : Nat} (hnow : w.now ≤ instant) :
    w.guard.retireReady instant ↔ ∃ a ∈ w.calls, a.step = .adopt ∧ a.succeeded ∧
      a.finished + w.guard.retireQuiet ≤ instant := by
  rw [AdoptionGuard.retireReady]
  constructor
  · intro hready
    split at hready
    · rename_i marked hmarked
      obtain ⟨a, ha, hstep, hok, rfl⟩ := h.marked marked hmarked
      have hpast := h.past a ha
      refine ⟨a, ha, hstep, hok, ?_⟩
      have := of_decide_eq_true hready
      omega
    · cases hready
  · intro hcall
    obtain ⟨a, ha, hstep, hok, hle⟩ := hcall
    rw [h.only a ha hstep hok]
    exact decide_eq_true (by omega)

/-- A call that is no adoption, or one that failed. -/
theorem Inv.called (h : Inv w) {c : ExecutorCall} {now : Nat} (hnow : w.now ≤ now)
    (hfinished : c.finished ≤ now) (hadopt : c.step = .adopt → c.succeeded = false)
    (hretire : c.step = .retirePrevious → ∃ a ∈ w.calls, a.step = .adopt ∧ a.succeeded ∧
      a.finished + w.guard.retireQuiet ≤ c.started) :
    Inv { w with now, calls := w.calls ++ [c] } := by
  refine ⟨fun c' hc' => ?_, fun instant hmarked => ?_, fun a ha hstep hok => ?_, ?_⟩
  · rcases List.mem_append.1 hc' with hc' | hc'
    · exact (h.past c' hc').trans hnow
    · rwa [List.mem_singleton.1 hc']
  · obtain ⟨a, ha, hone⟩ := h.marked instant hmarked
    exact ⟨a, List.mem_append_left _ ha, hone⟩
  · rcases List.mem_append.1 ha with ha | ha
    · exact h.only a ha hstep hok
    · rw [List.mem_singleton.1 ha] at hstep hok
      rw [hadopt hstep] at hok
      cases hok
  · exact (paced_called rfl).2 ⟨h.paced, hretire⟩

/-- The first adoption that succeeds. -/
theorem Inv.adopted (h : Inv w) (hguard : w.guard.adopted = false) {c : ExecutorCall}
    (hnow : w.now ≤ c.finished) (hstep : c.step = .adopt) (hok : c.succeeded) :
    Inv ⟨c.finished, w.guard.markAdopted c.finished, w.calls ++ [c]⟩ := by
  have hnone : ∀ a ∈ w.calls, a.step = .adopt → ¬a.succeeded := by
    intro a ha hadopt hsucceeded
    rw [AdoptionGuard.adopted, h.only a ha hadopt hsucceeded] at hguard
    cases hguard
  refine ⟨fun c' hc' => ?_, fun instant hmarked => ?_, fun a ha hadopt hsucceeded => ?_, ?_⟩
  · rcases List.mem_append.1 hc' with hc' | hc'
    · exact (h.past c' hc').trans hnow
    · rw [List.mem_singleton.1 hc']
  · cases hmarked
    exact ⟨c, List.mem_append_right _ (List.mem_singleton.2 rfl), hstep, hok, rfl⟩
  · rcases List.mem_append.1 ha with ha | ha
    · exact absurd hsucceeded (hnone a ha hadopt)
    · rw [List.mem_singleton.1 ha]
      rfl
  · have hone : Paced ⟨c.finished, w.guard.markAdopted c.finished, w.calls ++ [c]⟩ ↔ _ :=
      paced_called rfl
    refine hone.2 ⟨h.paced, fun hretire => ?_⟩
    rw [hstep] at hretire
    cases hretire

theorem inv_of_quiet (h : Inv w) (hst : exec w p = some w') (hquiet : Quiet w p) : Inv w' := by
  obtain ⟨⟨hchecked, hstarted, hfinished⟩, rfl⟩ := exec_eq_some.1 hst
  have hnow : w.now ≤ p.finished := by omega
  obtain hnone | ⟨key, hclaim⟩ | ⟨hadopted, hready, key, hkey, hretire⟩ |
    ⟨hguard, key, hkey, hadopt⟩ := p.apply_cases w
  · rw [hnone]
    exact ⟨fun c hc => (h.past c hc).trans hnow, h.marked, h.only, h.paced⟩
  · rw [hclaim]
    exact h.called hnow le_rfl (fun hc => by cases hc) (fun hc => by cases hc)
  · rw [hretire]
    refine h.called hnow le_rfl (fun hc => by cases hc) fun _ => ?_
    rcases hready with hplan | hready
    · have hover := hquiet hplan (by rw [hkey]; rfl) hadopted
      exact (h.retireReady_iff (hchecked.trans hstarted)).1 hover
    · obtain ⟨a, ha, hstep, hok, hle⟩ := (h.retireReady_iff hchecked).1 hready
      exact ⟨a, ha, hstep, hok, hle.trans hstarted⟩
  · rw [hadopt]
    obtain ⟨e, herror, hstep⟩ | ⟨hok, hstep⟩ := @Application.adopt_some _ p w _ hkey
    · rw [hstep]
      refine h.called hnow le_rfl (fun _ => ?_) (fun hc => by cases hc)
      rw [Application.record, herror]
      rfl
    · rw [hstep]
      refine h.adopted (c := p.record .adopt key) hguard hnow rfl ?_
      rw [Application.record, hok]
      rfl

theorem quiet_of_paced (h : Inv w) (hst : exec w p = some w') (hpaced : Paced w') :
    Quiet w p := by
  obtain ⟨⟨hchecked, hstarted, hfinished⟩, rfl⟩ := exec_eq_some.1 hst
  intro hplan hstaged hadopted
  obtain ⟨key, hkey⟩ := Option.isSome_iff_exists.1 hstaged
  have hretire : (p.apply w).2 = p.called .retirePrevious key w := by
    simp only [Application.apply, hplan, hadopted, if_true]
    exact Application.retire_some hkey
  rw [hretire] at hpaced
  have hcall := ((paced_called rfl).1 hpaced).2 rfl
  exact (h.retireReady_iff (by omega)).2 hcall

/-- In every state of a process each retirement was called a quiet interval after an adoption,
exactly when no plan to retire is applied sooner; each application makes at most one call, and an
adoption that fails is called again. -/
theorem paced_iff_quiet {now retireQuiet : Nat} :
    Run (guarded Quiet (enabled exec)) (start now retireQuiet) ps w' ↔
      Run (fun w p w' => (enabled exec w p w' ∧ Paced w') ∧ OneCall w w' ∧ AdoptsAgain w p w')
        (start now retireQuiet) ps w' := by
  have hpaced : Run (guarded Quiet (enabled exec)) (start now retireQuiet) ps w' ↔
      Run (fun w p w' => enabled exec w p w' ∧ Paced w') (start now retireQuiet) ps w' := by
    refine run_guarded_iff (I := Inv) (fun w p w' hi hst => ⟨fun hquiet => ?_, fun hpaced => ?_⟩)
      (fun w p w' hi hst hquiet => inv_of_quiet hi hst hquiet) (start_inv now retireQuiet)
    · exact (inv_of_quiet hi hst hquiet).paced
    · exact quiet_of_paced hi hst hpaced
  rw [hpaced]
  constructor
  · exact Run.mono fun w p w' h => ⟨h, oneCall h.1, adoptsAgain h.1⟩
  · exact Run.mono fun w p w' h => h.1

/-- The key is adopted at once, and the plan applied a second later is to retire; the quiet
interval has 30 seconds. -/
def retireAtOnce : List (Application Unit) :=
  [⟨.retire, some 2, 0, 0, 0, fun _ _ => .ok ()⟩, ⟨.retire, some 2, 1, 1, 1, fun _ _ => .ok ()⟩]

theorem retires_within_quiet : ∃ w, Run (enabled exec) (start 0 30) retireAtOnce w ∧
    w.calls = [⟨.adopt, 2, 0, 0, true⟩, ⟨.retirePrevious, 2, 1, 1, true⟩] ∧ ¬Paced w := by
  have hrun : Run (enabled exec) (start 0 30) retireAtOnce _ := run_of_execAll rfl
  refine ⟨_, hrun, rfl, fun h => ?_⟩
  obtain ⟨a, ha, -, -, hle⟩ := h [⟨.adopt, 2, 0, 0, true⟩] ⟨.retirePrevious, 2, 1, 1, true⟩
    List.prefix_rfl rfl
  rw [List.mem_singleton.1 ha] at hle
  exact absurd hle (by decide)

end RotationTask

end KeyRotation

end Podseq.Node
