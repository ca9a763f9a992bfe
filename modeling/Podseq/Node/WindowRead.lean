import Podseq.Move.WindowNotice
import Podseq.Node.LedgerObjects

/-! # The inclusion window as a node reads it

The override and the staged widening are two fields, read one after the other while the chain moves
on. A narrowing rewrites both: a read that saw the override before it and the staging after it pairs
values that never stood together.
-/
namespace Podseq.Node
open Podseq.Lib Podseq.Move LedgerObjects

structure WindowView where
  overrideMs : Option Nat
  pending : Option PendingWindow
  effectiveMs : Nat

inductive WindowKey
  | window
  | pendingWindow
deriving DecidableEq

namespace InboxReader

/-! ## The fields on the ledger -/

variable (childId : WindowKey → Bytes → FixedBytes 32)

/-- `Field<WindowKey, u64>`, with `keyBcs` for what the ledger writes for a key. -/
def windowField (id : FixedBytes 32) (keyBcs : Bytes) (windowMs : Nat) : Bytes :=
  (Bcs.fixed 32).write id ++ (keyBcs ++ Bcs.u64.write windowMs)

def pendingBcs : Bcs (Nat × Nat) := .pair .u64 .u64

def pendingWindowField (id : FixedBytes 32) (keyBcs : Bytes) (pending : PendingWindow) : Bytes :=
  (Bcs.fixed 32).write id ++
    (keyBcs ++ pendingBcs.write (pending.newWindowMs, pending.effectiveAtMs))

/-- The id of a field, by its key and what is written for it. -/
def fieldId (field : WindowKey × Bytes) : FixedBytes 32 := childId field.1 field.2

/-- The contents of a field, if there is one. -/
def stored (keyBcs : Bytes) (inbox : Inbox) (field : WindowKey × Bytes) : Option Bytes :=
  if field.2 = keyBcs then
    match field.1 with
    | .window => inbox.window.map (windowField (fieldId childId field) keyBcs)
    | .pendingWindow =>
      inbox.pendingWindow.map (pendingWindowField (fieldId childId field) keyBcs)
  else none

/-! ## The reader -/

def windowKeyBcs : Bytes := []

def parseWindowOverride (field : Bytes) : Except InboxError Nat :=
  match (Bcs.pair (.fixed 32) .u64).ofBytes field with
  | some (_, value) => .ok value
  | none => .error .parseWindow

def parsePendingWindow (field : Bytes) : Except InboxError PendingWindow :=
  match (Bcs.pair (.fixed 32) pendingBcs).ofBytes field with
  | some (_, newWindowMs, effectiveAtMs) => .ok ⟨newWindowMs, effectiveAtMs⟩
  | none => .error .parsePendingWindow

def effectiveWindowMs (overrideMs : Option Nat) (pending : Option PendingWindow) (nowMs : Nat) :
    Nat :=
  match pending with
  | some staged =>
    if staged.effectiveAtMs ≤ nowMs then staged.newWindowMs
    else overrideMs.getD Inbox.inclusionWindowMs
  | none => overrideMs.getD Inbox.inclusionWindowMs

/-- One field read; an object that does not exist is an absent field. -/
def optionalField {α : Type} (reply : Except InboxError Bytes)
    (parse : Bytes → Except InboxError α) : Except InboxError (Option α) :=
  match reply with
  | .ok bytes => (parse bytes).map some
  | .error (.notFound _) => .ok none
  | .error e => .error e

/-- `window`: the override from the first read, the staged widening from the second. -/
def window (nowMs : Nat) (first second : FixedBytes 32 → Except InboxError Bytes) :
    Except InboxError WindowView := do
  let overrideMs ← optionalField (first (childId .window windowKeyBcs)) parseWindowOverride
  let pending ← optionalField (second (childId .pendingWindow windowKeyBcs)) parsePendingWindow
  return ⟨overrideMs, pending, effectiveWindowMs overrideMs pending nowMs⟩

/-! ## What the two reads find -/

variable {childId} {keyBcs : Bytes} {inbox : Inbox} {nowMs : Nat} {field : WindowKey × Bytes}
  {bytes : Bytes} {get get' : FixedBytes 32 → ObjectReply}

/-- The fields' ids, and the ids the reader asks for, are different wherever the keys are. -/
def Separate (childId : WindowKey → Bytes → FixedBytes 32) (keyBcs : Bytes) : Prop :=
  (∀ a ∈ [windowKeyBcs, keyBcs], ∀ b ∈ [windowKeyBcs, keyBcs],
    childId .window a ≠ childId .pendingWindow b) ∧
  ∀ key, childId key windowKeyBcs = childId key keyBcs → windowKeyBcs = keyBcs

def FieldsFit (inbox : Inbox) : Prop :=
  (∀ windowMs ∈ inbox.window, windowMs < 256 ^ 8) ∧
  ∀ p ∈ inbox.pendingWindow, p.newWindowMs < 256 ^ 8 ∧ p.effectiveAtMs < 256 ^ 8

theorem parseWindowOverride_field {id : FixedBytes 32} {windowMs : Nat} (h : windowMs < 256 ^ 8) :
    parseWindowOverride (windowField id [] windowMs) = .ok windowMs := by
  have hread : (Bcs.pair (.fixed 32) .u64).ofBytes (windowField id [] windowMs) =
      some (id, windowMs) := Bcs.ofBytes_write _ (a := (id, windowMs)) ⟨trivial, h⟩
  simp only [parseWindowOverride, hread]

theorem parsePendingWindow_field {id : FixedBytes 32} {p : PendingWindow}
    (h : p.newWindowMs < 256 ^ 8 ∧ p.effectiveAtMs < 256 ^ 8) :
    parsePendingWindow (pendingWindowField id [] p) = .ok p := by
  have hread : (Bcs.pair (.fixed 32) pendingBcs).ofBytes (pendingWindowField id [] p) =
      some (id, p.newWindowMs, p.effectiveAtMs) :=
    Bcs.ofBytes_write _ (a := (id, p.newWindowMs, p.effectiveAtMs)) ⟨trivial, h⟩
  simp only [parsePendingWindow, hread]

theorem stored_key (h : stored childId keyBcs inbox field = some bytes) : field.2 = keyBcs := by
  rw [stored, Option.ite_none_right_eq_some] at h
  exact h.1

theorem fieldId_injective (hids : Separate childId keyBcs) (a b : WindowKey × Bytes)
    (ha : a.2 = keyBcs) (hb : b.2 = keyBcs) (h : fieldId childId a = fieldId childId b) :
    a = b := by
  have hmem : keyBcs ∈ [windowKeyBcs, keyBcs] := List.mem_cons_of_mem _ List.mem_cons_self
  obtain ⟨key, _⟩ := a
  obtain ⟨key', _⟩ := b
  subst ha hb
  cases key <;> cases key'
  · rfl
  · exact absurd h (hids.1 _ hmem _ hmem)
  · exact absurd h.symm (hids.1 _ hmem _ hmem)
  · rfl

/-- The reply for a key as it is written is the field, or that there is none. -/
theorem get_field (hget : Serves get (fieldId childId) (stored childId keyBcs inbox))
    (hids : Separate childId keyBcs) (key : WindowKey) :
    get (childId key keyBcs) = match stored childId keyBcs inbox (key, keyBcs) with
      | none => .noObject
      | some bytes => .contents bytes :=
  hget.get_eq (fieldId_injective hids) stored_key (key, keyBcs) rfl

/-- Were a key no bytes, the first read would find the override. -/
theorem first_found (hget : Serves get (fieldId childId) (stored childId [] inbox))
    (hids : Separate childId []) (hfit : FieldsFit inbox) :
    optionalField (transportContents get (childId .window windowKeyBcs)) parseWindowOverride =
      .ok inbox.window := by
  have hreply := get_field hget hids .window
  rw [stored, if_pos rfl] at hreply
  cases hw : inbox.window with
  | none =>
    rw [hw] at hreply
    rw [windowKeyBcs, transportContents_absent hreply]
    rfl
  | some windowMs =>
    rw [hw] at hreply
    rw [windowKeyBcs, transportContents_found hreply]
    simp only [optionalField, parseWindowOverride_field (hfit.1 windowMs hw)]
    rfl

/-- And the second the staged widening. -/
theorem second_found (hget : Serves get (fieldId childId) (stored childId [] inbox))
    (hids : Separate childId []) (hfit : FieldsFit inbox) :
    optionalField (transportContents get (childId .pendingWindow windowKeyBcs))
      parsePendingWindow = .ok inbox.pendingWindow := by
  have hreply := get_field hget hids .pendingWindow
  rw [stored, if_pos rfl] at hreply
  cases hp : inbox.pendingWindow with
  | none =>
    rw [hp] at hreply
    rw [windowKeyBcs, transportContents_absent hreply]
    rfl
  | some p =>
    rw [hp] at hreply
    rw [windowKeyBcs, transportContents_found hreply]
    simp only [optionalField, parsePendingWindow_field (hfit.2 p hp)]
    rfl

/-- A key of any bytes lies where the reader does not look. -/
theorem not_found (hget : Serves get (fieldId childId) (stored childId keyBcs inbox))
    (hids : Separate childId keyBcs) (hkey : windowKeyBcs ≠ keyBcs) (key : WindowKey) :
    get (childId key windowKeyBcs) = .noObject := by
  have hread : windowKeyBcs ∈ [windowKeyBcs, keyBcs] := List.mem_cons_self
  have hstored : keyBcs ∈ [windowKeyBcs, keyBcs] := List.mem_cons_of_mem _ List.mem_cons_self
  refine hget.absent (key, windowKeyBcs) fun field hid => ?_
  by_contra hne
  obtain ⟨bytes, hbytes⟩ := Option.ne_none_iff_exists'.1 hne
  obtain ⟨key', written⟩ := field
  obtain rfl : written = keyBcs := stored_key hbytes
  cases key <;> cases key'
  · exact hkey (hids.2 .window hid.symm)
  · exact hids.1 _ hread _ hstored hid.symm
  · exact hids.1 _ hstored _ hread hid
  · exact hkey (hids.2 .pendingWindow hid.symm)

/-- A read of two states of the inbox whose fields are where the reader looks. -/
theorem window_found {first second : Inbox}
    (hget : Serves get (fieldId childId) (stored childId [] first))
    (hget' : Serves get' (fieldId childId) (stored childId [] second))
    (hids : Separate childId []) (hfirst : FieldsFit first) (hsecond : FieldsFit second) :
    window childId nowMs (transportContents get) (transportContents get') =
      .ok ⟨first.window, second.pendingWindow,
        effectiveWindowMs first.window second.pendingWindow nowMs⟩ := by
  rw [window, first_found hget hids hfirst, second_found hget' hids hsecond]
  rfl

/-- A read whose fields are not finds the default. -/
theorem window_not_found {first second : Inbox}
    (hget : Serves get (fieldId childId) (stored childId keyBcs first))
    (hget' : Serves get' (fieldId childId) (stored childId keyBcs second))
    (hids : Separate childId keyBcs) (hkey : windowKeyBcs ≠ keyBcs) :
    window childId nowMs (transportContents get) (transportContents get') =
      .ok ⟨none, none, Inbox.inclusionWindowMs⟩ := by
  rw [window, transportContents_absent (not_found hget hids hkey .window),
    transportContents_absent (not_found hget' hids hkey .pendingWindow)]
  rfl

/-! ## Reads that are not torn -/

variable {s t u : InboxChain} {calls : List InboxChain.Call}

/-- The states of a run, its ends included. -/
def During (s : InboxChain) (calls : List InboxChain.Call) (t u : InboxChain) : Prop :=
  ∃ before after, calls = before ++ after ∧ Run (enabled InboxChain.exec) s before u ∧
    Run (enabled InboxChain.exec) u after t

theorem During.first (h : Run (enabled InboxChain.exec) s calls t) : During s calls t s :=
  ⟨[], calls, rfl, .nil, h⟩

theorem During.last (h : Run (enabled InboxChain.exec) s calls t) : During s calls t t :=
  ⟨calls, [], (List.append_nil calls).symm, h, .nil⟩

/-- The window read, first of `get` and then of `get'`, is one that the inbox had for this clock at
some instant between the two reads. -/
def Untorn (childId : WindowKey → Bytes → FixedBytes 32)
    (get get' : FixedBytes 32 → ObjectReply) (nowMs : Nat) (s : InboxChain)
    (calls : List InboxChain.Call) (t : InboxChain) : Prop :=
  ∀ view, window childId nowMs (transportContents get) (transportContents get') = .ok view →
    ∃ u, During s calls t u ∧ u.inbox.effectiveWindowMs nowMs = view.effectiveMs

/-- Of the second read only an elapsed widening matters. -/
theorem effectiveWindowMs_of_elapsed {first second : Inbox} (h : second.WideningElapsed nowMs) :
    effectiveWindowMs first.window second.pendingWindow nowMs = second.effectiveWindowMs nowMs := by
  obtain ⟨p, hp, hle⟩ := h
  rw [Inbox.effectiveWindowMs_of_elapsed hp hle]
  simp only [effectiveWindowMs, hp, if_pos hle]

theorem effectiveWindowMs_of_not_elapsed {first second : Inbox}
    (h : ¬second.WideningElapsed nowMs) :
    effectiveWindowMs first.window second.pendingWindow nowMs = first.baseWindowMs := by
  cases hp : second.pendingWindow with
  | none => rfl
  | some p => exact if_neg fun hle => h ⟨p, hp, hle⟩

/-- Either the second read has found an elapsed widening, or the window without one that the first
read found was in force at some instant between the two. -/
def Steady (nowMs : Nat) (s : InboxChain) (calls : List InboxChain.Call) (t : InboxChain) : Prop :=
  t.inbox.WideningElapsed nowMs ∨
    ∃ u, During s calls t u ∧ u.inbox.effectiveWindowMs nowMs = s.inbox.baseWindowMs

theorem untorn_iff_steady (hget : Serves get (fieldId childId) (stored childId [] s.inbox))
    (hget' : Serves get' (fieldId childId) (stored childId [] t.inbox))
    (hids : Separate childId []) (hs : FieldsFit s.inbox) (ht : FieldsFit t.inbox)
    (hrun : Run (enabled InboxChain.exec) s calls t) :
    Untorn childId get get' nowMs s calls t ↔ Steady nowMs s calls t := by
  have hread : window childId nowMs (transportContents get) (transportContents get') =
      .ok ⟨s.inbox.window, t.inbox.pendingWindow,
        effectiveWindowMs s.inbox.window t.inbox.pendingWindow nowMs⟩ :=
    window_found hget hget' hids hs ht
  constructor
  · intro h
    obtain ⟨u, hu, heq⟩ := h _ hread
    by_cases helapsed : t.inbox.WideningElapsed nowMs
    · exact .inl helapsed
    · exact .inr ⟨u, hu, heq.trans (effectiveWindowMs_of_not_elapsed helapsed)⟩
  · intro h view hview
    cases hread.symm.trans hview
    by_cases helapsed : t.inbox.WideningElapsed nowMs
    · exact ⟨t, .last hrun, (effectiveWindowMs_of_elapsed helapsed).symm⟩
    · obtain ⟨u, hu, heq⟩ := h.resolve_left helapsed
      exact ⟨u, hu, heq.trans (effectiveWindowMs_of_not_elapsed helapsed).symm⟩

/-- A call that writes the override at once. -/
def Narrows (s : InboxChain) : InboxChain.Call → Prop
  | .stageWindowChange newWindowMs _ => newWindowMs ≤ s.inbox.effectiveWindowMs s.now
  | _ => False

/-- The other calls leave the override alone. -/
theorem window_of_not_narrows {c : InboxChain.Call} (h : enabled InboxChain.exec s c t)
    (hc : ¬Narrows s c) : t.inbox.window = s.inbox.window := by
  cases c with
  | tick now =>
    simp only [enabled, InboxChain.exec, Option.ite_none_right_eq_some, Option.some.injEq] at h
    obtain ⟨-, rfl⟩ := h
    rfl
  | submit txBytes =>
    simp only [enabled, InboxChain.exec, Option.map_eq_some_iff, toOption_eq_some] at h
    obtain ⟨inbox', hok, rfl⟩ := h
    obtain ⟨-, -, -, -, rfl⟩ := Inbox.submit_eq_ok.1 hok
    rfl
  | stageWindowChange newWindowMs delayMs =>
    simp only [enabled, InboxChain.exec, Option.map_eq_some_iff, toOption_eq_some] at h
    obtain ⟨inbox', hok, rfl⟩ := h
    obtain ⟨-, ⟨hle, -⟩ | ⟨-, -, rfl⟩⟩ := Inbox.stageWindowChange_cases hok
    · exact absurd hle hc
    · rfl
  | cancelWindowChange =>
    simp only [enabled, InboxChain.exec, Option.map_eq_some_iff, toOption_eq_some] at h
    obtain ⟨inbox', hok, rfl⟩ := h
    obtain ⟨-, rfl⟩ := Inbox.cancelWindowChange_eq_ok.1 hok
    rfl
  | enforceSettle blockTs cursor =>
    simp only [enabled, InboxChain.exec, Option.map_eq_some_iff, toOption_eq_some] at h
    obtain ⟨inbox', hok, rfl⟩ := h
    obtain ⟨-, -, -, -, -, rfl⟩ := Inbox.enforceSettle_eq_ok.1 hok
    rfl

/-- Only a narrowing tears a read. -/
theorem steady_of_no_narrowing
    (hrun : Run (guarded (fun s c => ¬Narrows s c) (enabled InboxChain.exec)) s calls t) :
    Steady nowMs s calls t := by
  induction hrun with
  | nil =>
    rename_i s
    by_cases helapsed : s.inbox.WideningElapsed nowMs
    · exact .inl helapsed
    · exact .inr ⟨s, .first .nil, Inbox.effectiveWindowMs_of_not_elapsed helapsed⟩
  | cons hstep _ ih =>
    obtain helapsed | ⟨u, ⟨before, after, rfl, hbefore, hafter⟩, heq⟩ := ih
    · exact .inl helapsed
    · refine .inr ⟨u, ⟨_ :: before, after, rfl, .cons hstep.2 hbefore, hafter⟩, heq.trans ?_⟩
      rw [Inbox.baseWindowMs, Inbox.baseWindowMs, window_of_not_narrows hstep.2 hstep.1]

/-- **When a window read is not torn.** Whatever happens to the inbox between the two reads of a
full node, the window read was in force for this clock at some instant between them exactly if: the
fields are where the reader looks, and the read is steady, as it is without a narrowing in between;
or they are not, and at some instant the window was the default. -/
theorem untorn_iff (hget : Serves get (fieldId childId) (stored childId keyBcs s.inbox))
    (hget' : Serves get' (fieldId childId) (stored childId keyBcs t.inbox))
    (hids : Separate childId keyBcs) (hs : FieldsFit s.inbox) (ht : FieldsFit t.inbox)
    (hrun : Run (enabled InboxChain.exec) s calls t) :
    (Untorn childId get get' nowMs s calls t ↔
      windowKeyBcs = keyBcs ∧ Steady nowMs s calls t ∨
      windowKeyBcs ≠ keyBcs ∧
        ∃ u, During s calls t u ∧ u.inbox.effectiveWindowMs nowMs = Inbox.inclusionWindowMs) ∧
    (Run (guarded (fun s c => ¬Narrows s c) (enabled InboxChain.exec)) s calls t →
      Steady nowMs s calls t) := by
  refine ⟨?_, steady_of_no_narrowing⟩
  by_cases hkey : windowKeyBcs = keyBcs
  · subst hkey
    simp only [true_and, ne_eq, not_true_eq_false, false_and, or_false]
    exact untorn_iff_steady hget hget' hids hs ht hrun
  · simp only [hkey, false_and, ne_eq, not_false_eq_true, true_and, false_or]
    have hread : window childId nowMs (transportContents get) (transportContents get') =
        .ok ⟨none, none, Inbox.inclusionWindowMs⟩ := window_not_found hget hget' hids hkey
    constructor
    · intro h
      exact h _ hread
    · intro h view hview
      cases hread.symm.trans hview
      exact h

/-! ## Two reads of one inbox -/

/-- The instants around one call are the two ends. -/
theorem During.of_single {c : InboxChain.Call} (h : During s [c] t u) : u = s ∨ u = t := by
  obtain ⟨before, after, heq, hbefore, hafter⟩ := h
  cases before with
  | nil =>
    cases hbefore
    exact .inl rfl
  | cons c' before =>
    obtain ⟨-, hnil⟩ := List.cons.inj heq
    obtain ⟨-, rfl⟩ := List.append_eq_nil_iff.1 hnil.symm
    cases hafter
    exact .inr rfl

/-- Ids that tell the two keys apart, and a key from no bytes. -/
def childIds (key : WindowKey) (keyBcs : Bytes) : FixedBytes 32 :=
  ⟨(if key = .window then 1 else 2) :: keyBcs.length.toUInt8 :: List.replicate 30 0, rfl⟩

theorem separate_unnamed : Separate childIds [] := by
  refine ⟨fun a _ b _ heq => ?_, fun _ _ => rfl⟩
  have hhead := (List.cons.inj (congrArg Subtype.val heq)).1
  revert hhead
  decide

theorem separate_named : Separate childIds [0] := by
  refine ⟨fun a _ b _ heq => ?_, fun key heq => ?_⟩
  · have hhead := (List.cons.inj (congrArg Subtype.val heq)).1
    revert hhead
    decide
  · have hlength := (List.cons.inj (List.cons.inj (congrArg Subtype.val heq)).2).1
    revert hlength
    decide

def windowNode (keyBcs : Bytes) (inbox : Inbox) : FixedBytes 32 → ObjectReply :=
  service (fieldId childIds) [(.window, keyBcs), (.pendingWindow, keyBcs)]
    (stored childIds keyBcs inbox)

theorem windowNode_serves :
    Serves (windowNode keyBcs inbox) (fieldId childIds) (stored childIds keyBcs inbox) := by
  refine service_serves fun field bytes h => ?_
  obtain ⟨key, written⟩ := field
  obtain rfl : written = keyBcs := stored_key h
  cases key
  · exact List.mem_cons_self
  · exact List.mem_cons_of_mem _ List.mem_cons_self

/-- An inbox without an override whose widening to 900000 ms is in force. -/
def widened : InboxChain where
  now := 600000
  inbox := { Inbox.initializeInbox 1 with pendingWindow := some ⟨900000, 600000⟩ }

/-- The same inbox narrowed to 700000 ms. -/
def narrowed : InboxChain where
  now := 600000
  inbox := { Inbox.initializeInbox 1 with window := some 700000 }

theorem fieldsFit_widened : FieldsFit widened.inbox := by
  refine ⟨fun windowMs h => ?_, fun p hp => ?_⟩
  · cases h
  · cases hp
    exact ⟨by decide, by decide⟩

theorem fieldsFit_narrowed : FieldsFit narrowed.inbox := by
  refine ⟨fun windowMs h => ?_, fun p hp => ?_⟩
  · cases h
    decide
  · cases hp

def unwidened : InboxChain := ⟨600000, Inbox.initializeInbox 1⟩

theorem fieldsFit_unwidened : FieldsFit unwidened.inbox := by
  constructor
  · intro windowMs hw
    cases hw
  · intro p hp
    cases hp

/-- With keys written as one byte, a read around the cancellation of an elapsed widening returns
the window after it, and a read before the cancellation one that the inbox did not have. -/
theorem untorn_iff_cancelled :
    Untorn childIds (windowNode [0] widened.inbox) (windowNode [0] unwidened.inbox) 600000 widened
      [.cancelWindowChange] unwidened ∧
    ¬Untorn childIds (windowNode [0] widened.inbox) (windowNode [0] widened.inbox) 600000 widened
      [] widened ∧
    Steady 600000 widened [.cancelWindowChange] unwidened := by
  have hrun : Run (enabled InboxChain.exec) widened [.cancelWindowChange] unwidened := .single rfl
  obtain ⟨hcancelled, hsteady⟩ := untorn_iff windowNode_serves windowNode_serves separate_named
    fieldsFit_widened fieldsFit_unwidened hrun
  obtain ⟨hwidened, -⟩ := untorn_iff windowNode_serves windowNode_serves separate_named
    fieldsFit_widened fieldsFit_widened (.nil : Run (enabled InboxChain.exec) widened [] widened)
  refine ⟨hcancelled.2 (.inr ⟨by decide, unwidened, .last hrun, rfl⟩), fun h => ?_,
    hsteady (.single ⟨id, rfl⟩)⟩
  obtain ⟨hkey, -⟩ | ⟨-, u, ⟨before, after, hnil, hrun', -⟩, heq⟩ := hwidened.1 h
  · cases hkey
  · obtain ⟨rfl, rfl⟩ := List.append_eq_nil_iff.1 hnil.symm
    cases hrun'
    exact absurd heq (by decide)

/-- A narrowing to 700000 ms between the reads: the read returns 600000 ms, and the window was never
that. And with keys written as one byte, a narrowed inbox reads as 600000 ms, too. -/
theorem narrowing_tears_read :
    (Run (enabled InboxChain.exec) ⟨0, Inbox.initializeInbox 1⟩
        [.stageWindowChange 900000 600000, .tick 600000] widened ∧
      Run (enabled InboxChain.exec) widened [.stageWindowChange 700000 0] narrowed ∧
      ¬Untorn childIds (windowNode [] widened.inbox) (windowNode [] narrowed.inbox) 600000 widened
        [.stageWindowChange 700000 0] narrowed) ∧
    ¬Untorn childIds (windowNode [0] narrowed.inbox) (windowNode [0] narrowed.inbox) 600000
      narrowed [] narrowed := by
  have hnarrow : Run (enabled InboxChain.exec) widened [.stageWindowChange 700000 0] narrowed :=
    .single rfl
  refine ⟨⟨run_of_execAll rfl, hnarrow, fun h => ?_⟩, fun h => ?_⟩
  · obtain ⟨u, hu, heq⟩ := h _ (window_found windowNode_serves windowNode_serves separate_unnamed
      fieldsFit_widened fieldsFit_narrowed)
    obtain rfl | rfl := hu.of_single
    · exact absurd heq (by decide)
    · exact absurd heq (by decide)
  · obtain ⟨u, ⟨before, after, hnil, hbefore, -⟩, heq⟩ :=
      h _ (window_not_found windowNode_serves windowNode_serves separate_named (by decide))
    obtain ⟨rfl, rfl⟩ := List.append_eq_nil_iff.1 hnil.symm
    cases hbefore
    exact absurd heq (by decide)

end InboxReader

end Podseq.Node
