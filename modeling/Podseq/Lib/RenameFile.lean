import Podseq.Lib.Fallible
import Podseq.Lib.Runs

/-! # A file that concurrent calls rewrite

A call loads the file, writes what it makes of the contents to the file's one temporary name,
and renames that over the file. Nothing but the rename is atomic. The calls take effect one
after another, in the order of their renames, as long as each renames what it wrote itself over
the contents it loaded.
-/
namespace Podseq.Lib

/-- A call between its load and its rename. -/
structure InFlight (α κ : Type) where
  op : α
  /-- The contents it is to write. -/
  next : κ
  /-- How many calls were complete when it loaded the file. -/
  loadedAt : Nat
  written : Bool

/-- The file, its temporary name, and the calls of the tasks `ι` on it. -/
structure RenameFile (ι α κ : Type) where
  file : κ
  tmp : Option κ
  /-- The task that wrote the temporary file. -/
  writer : Option ι
  calls : ι → Option (InFlight α κ)
  /-- The complete calls, in the order of their renames. -/
  done : List α

namespace RenameFile

inductive Step (ι α : Type)
  | load (task : ι) (op : α)
  | write (task : ι)
  | rename (task : ι)

variable {ι α κ ε : Type} [DecidableEq ι]

def start (file : κ) (tmp : Option κ) : RenameFile ι α κ where
  file := file
  tmp := tmp
  writer := none
  calls := fun _ => none
  done := []

def setCall (f : RenameFile ι α κ) (task : ι) (call : Option (InFlight α κ)) :
    RenameFile ι α κ :=
  { f with calls := Function.update f.calls task call }

/-- The task loads the file and computes what to write; when that is an error the call returns
it and is over. -/
def load (apply : α → κ → Except ε κ) (f : RenameFile ι α κ) (task : ι) (op : α) :
    Option (RenameFile ι α κ) :=
  match f.calls task, apply op f.file with
  | some _, _ => none
  | none, .error _ => some f
  | none, .ok next => some (f.setCall task (some ⟨op, next, f.done.length, false⟩))

def write (f : RenameFile ι α κ) (task : ι) : Option (RenameFile ι α κ) :=
  match f.calls task with
  | some ⟨op, next, loadedAt, false⟩ => some
      { f.setCall task (some ⟨op, next, loadedAt, true⟩) with
        tmp := some next, writer := some task }
  | _ => none

/-- The rename publishes whatever the temporary file holds; without one it fails. -/
def rename (f : RenameFile ι α κ) (task : ι) : Option (RenameFile ι α κ) :=
  match f.calls task, f.tmp with
  | some ⟨op, _, _, true⟩, some contents => some
      { f.setCall task none with
        file := contents, tmp := none, writer := none, done := f.done ++ [op] }
  | some ⟨_, _, _, true⟩, none => some (f.setCall task none)
  | _, _ => none

def exec (apply : α → κ → Except ε κ) (f : RenameFile ι α κ) :
    Step ι α → Option (RenameFile ι α κ)
  | .load task op => f.load apply task op
  | .write task => f.write task
  | .rename task => f.rename task

/-- A rename is undisturbed when the call renames its own temporary file and no other call
completed since it loaded the file. -/
def undisturbed (f : RenameFile ι α κ) : Step ι α → Bool
  | .rename task => match f.calls task with
    | some call => call.loadedAt = f.done.length && f.writer = some task
    | none => true
  | _ => true

/-- What the calls `ops` make of `contents`, one after another. -/
def replay (apply : α → κ → Except ε κ) (contents : κ) (ops : List α) : Except ε κ :=
  ops.foldlM (fun k op => apply op k) contents

/-- The file is what some sequential order of the complete calls makes of `contents`. -/
def Serial (apply : α → κ → Except ε κ) (contents : κ) (f : RenameFile ι α κ) : Prop :=
  ∃ order : List α, order.Perm f.done ∧ replay apply contents order = .ok f.file

/-! ## Undisturbed renames -/

variable {apply : α → κ → Except ε κ} {f f' : RenameFile ι α κ} {step : Step ι α} {task : ι}
  {op : α} {contents : κ} {tmp : Option κ}

/-- The complete calls took effect in order, and a call in flight that nobody overtook is about
to take effect on the file as it is. -/
structure InOrder (apply : α → κ → Except ε κ) (contents : κ) (f : RenameFile ι α κ) : Prop where
  replayed : replay apply contents f.done = .ok f.file
  loaded : ∀ {task call}, f.calls task = some call → call.loadedAt ≤ f.done.length ∧
    (call.loadedAt = f.done.length → apply call.op f.file = .ok call.next)
  written : ∀ {task}, f.writer = some task →
    ∀ {call}, f.calls task = some call → call.written → f.tmp = some call.next

omit [DecidableEq ι] in
theorem start_inOrder : InOrder apply contents (start contents tmp : RenameFile ι α κ) :=
  ⟨rfl, (nomatch ·), (nomatch ·)⟩

/-- The call of a task after one was set: the one set, if it is that task's. -/
theorem setCall_eq_some {call : Option (InFlight α κ)} {task' : ι} {c : InFlight α κ}
    (h : (f.setCall task call).calls task' = some c) :
    (task' = task ∧ call = some c) ∨ f.calls task' = some c := by
  by_cases ht : task' = task
  · subst ht
    simp only [RenameFile.setCall, Function.update_self] at h
    exact .inl ⟨rfl, h⟩
  · simp only [RenameFile.setCall, Function.update_of_ne ht] at h
    exact .inr h

/-- Setting a call that fits keeps the order; a call that waits to be renamed is what the
temporary file holds, if its task wrote it. -/
theorem InOrder.setCall (hf : InOrder apply contents f) {call : Option (InFlight α κ)}
    (hcall : ∀ c, call = some c → c.loadedAt ≤ f.done.length ∧
      (c.loadedAt = f.done.length → apply c.op f.file = .ok c.next))
    (hwritten : ∀ c, call = some c → c.written = false) :
    InOrder apply contents (f.setCall task call) := by
  refine ⟨hf.replayed, fun {task' c} hc => ?_, fun {task'} hw {c} hc hcw => ?_⟩
  · obtain ⟨-, hc⟩ | hc := setCall_eq_some hc
    · exact hcall c hc
    · exact hf.loaded hc
  · obtain ⟨-, hc⟩ | hc := setCall_eq_some hc
    · rw [hwritten c hc] at hcw
      cases hcw
    · exact hf.written hw hc hcw

theorem load_cases (h : f.load apply task op = some f') :
    f' = f ∨ f.calls task = none ∧ ∃ next, apply op f.file = .ok next ∧
      f' = f.setCall task (some ⟨op, next, f.done.length, false⟩) := by
  unfold load at h
  split at h
  · cases h
  · cases h
    exact .inl rfl
  · cases h
    exact .inr ⟨‹_›, _, ‹_›, rfl⟩

theorem write_cases (h : f.write task = some f') : ∃ op next loadedAt,
    f.calls task = some ⟨op, next, loadedAt, false⟩ ∧
    f' = { f.setCall task (some ⟨op, next, loadedAt, true⟩) with
      tmp := some next, writer := some task } := by
  unfold write at h
  split at h
  · cases h
    exact ⟨_, _, _, ‹_›, rfl⟩
  · cases h

theorem rename_cases (h : f.rename task = some f') : ∃ op next loadedAt,
    f.calls task = some ⟨op, next, loadedAt, true⟩ ∧
    ((f.tmp = none ∧ f' = f.setCall task none) ∨ ∃ contents, f.tmp = some contents ∧
      f' = { f.setCall task none with
        file := contents, tmp := none, writer := none, done := f.done ++ [op] }) := by
  unfold rename at h
  split at h
  · cases h
    exact ⟨_, _, _, ‹_›, .inr ⟨_, ‹_›, rfl⟩⟩
  · cases h
    exact ⟨_, _, _, ‹_›, .inl ⟨‹_›, rfl⟩⟩
  · cases h

theorem InOrder.exec (hf : InOrder apply contents f) (hok : f.undisturbed step)
    (h : f.exec apply step = some f') : InOrder apply contents f' := by
  cases step with
  | load task op =>
    obtain rfl | ⟨-, next, hnext, rfl⟩ := load_cases h
    · exact hf
    · refine hf.setCall (fun c hc => ?_) fun c hc => ?_
      · cases hc
        exact ⟨Nat.le_refl _, fun _ => hnext⟩
      · cases hc
        rfl
  | write task =>
    obtain ⟨op, next, loadedAt, hcall, rfl⟩ := write_cases h
    refine ⟨hf.replayed, fun {task' c} hc => ?_, fun {task'} hw {c} hc _ => ?_⟩
    · obtain ⟨-, hc⟩ | hc := setCall_eq_some (f := f) hc
      · cases hc
        have hloaded := hf.loaded hcall
        exact hloaded
      · exact hf.loaded hc
    · cases hw
      simp only [RenameFile.setCall, Function.update_self, Option.some.injEq] at hc
      subst hc
      rfl
  | rename task =>
    obtain ⟨op, next, loadedAt, hcall, hcase⟩ := rename_cases h
    simp only [undisturbed, hcall, Bool.and_eq_true, decide_eq_true_eq] at hok
    have hnext := (hf.loaded hcall).2 hok.1
    have htmp := hf.written hok.2 hcall rfl
    obtain ⟨hnone, -⟩ | ⟨contents', hsome, rfl⟩ := hcase
    · rw [hnone] at htmp
      cases htmp
    · rw [hsome] at htmp
      cases htmp
      refine ⟨?_, fun {task' c} hc => ?_, (nomatch ·)⟩
      · have hr := hf.replayed
        unfold replay at hr ⊢
        simp only [List.foldlM_append, List.foldlM_cons, List.foldlM_nil, bind_eq_ok, pure_eq_ok]
        exact ⟨_, hr, _, hnext, rfl⟩
      · obtain ⟨-, hc⟩ | hc := setCall_eq_some (f := f) hc
        · cases hc
        · have hle := (hf.loaded hc).1
          simp only [List.length_append, List.length_singleton]
          exact ⟨by omega, fun he => by omega⟩

omit [DecidableEq ι] in
theorem InOrder.serial (hf : InOrder apply contents f) : Serial apply contents f :=
  ⟨f.done, .refl _, hf.replayed⟩

end RenameFile

end Podseq.Lib
