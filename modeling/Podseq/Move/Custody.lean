import Podseq.Lib.Runs
import Podseq.Move.Package

/-! # Who drives an Inbox and who seeds an authority

Two gates check one object while the effect lands on another passed beside it: the settlement
calls read the Registry and drive the Inbox, and an entombment takes any capability of the right
type for any object. Both properties are about runs, so the state is the chain together with
what its history has fixed: the Registry an Inbox was first settled through, and the capability
created by the call that created an object.
-/
namespace Podseq.Move
open Podseq.Lib Rotation

structure History where
  world : World
  /-- The Registry each Inbox was first settled through. -/
  settledThrough : Table ObjectId ObjectId
  /-- The capability created by the same `initialize` call as the object. -/
  ownCap : Table ObjectId ObjectId

namespace History

/-- A settle of the next height ties the Inbox to the Registry; a re-submit of the latest
height never reaches the Inbox. -/
def recordSettle (s : History) : Call → Table ObjectId ObjectId
  | .settleAs registry inbox _ height _ _ =>
    if (s.world.registries registry).map (·.latestHeight) = some height
      ∨ (s.settledThrough inbox).isSome then s.settledThrough
    else Function.update s.settledThrough inbox (some registry)
  | _ => s.settledThrough

/-- `initialize` creates an object and, under the next id, its capability. -/
def recordOwnCap (s : History) : Call → Table ObjectId ObjectId
  | .initializeSettlement | .initializeBridge =>
    Function.update s.ownCap s.world.nextId (some (s.world.nextId + 1))
  | _ => s.ownCap

/-- One call by a sender; an aborted call is no step. -/
def step (s : History) (a : Address × Call) : Option History :=
  (s.world.call a.1 a.2).toOption.map fun world =>
    { world, settledThrough := s.recordSettle a.2, ownCap := s.recordOwnCap a.2 }

def Start (s : History) : Prop :=
  ∃ now, s = ⟨World.published now, Table.empty, Table.empty⟩

variable {s t : History} {a : Address × Call} {I R id : ObjectId}

theorem step_call (h : enabled step s a t) : s.world.call a.1 a.2 = .ok t.world := by
  simp only [enabled, step, Option.map_eq_some_iff, toOption_eq_some] at h
  obtain ⟨w, hw, rfl⟩ := h
  exact hw

theorem reachable_wellFormed (h : Reachable Start (enabled step) s) : s.world.WellFormed := by
  refine h.inv (I := fun s => s.world.WellFormed) ?_ ?_
  · rintro s ⟨now, rfl⟩; exact World.published_wellFormed now
  · intro s a t hw hst; exact hw.call (step_call hst)

/-! ## Driving an Inbox -/

/-- The call passes the gate of the Registry `R` and names the Inbox `I` beside it: its sender
may act for `R`, or presents the `OpsCap` of `R`. -/
def ActsFor (s : History) (a : Address × Call) (R I : ObjectId) : Prop :=
  match a.2 with
  | .settleAs registry inbox _ _ _ _ => registry = R ∧ inbox = I ∧
      ∃ r, s.world.registries R = some r ∧ CanAct r.uid s.world.now a.1
  | .requestWindowChange registry inbox _ _ ops => registry = R ∧ inbox = I ∧
      ∃ cap, s.world.opsCaps ops = some (cap, a.1) ∧ cap.forId = R
  | .cancelWindowChange registry inbox ops => registry = R ∧ inbox = I ∧
      ∃ cap, s.world.opsCaps ops = some (cap, a.1) ∧ cap.forId = R
  | _ => False

/-- The change `submit` makes: new pending entries and nothing else. -/
structure OnlyAdds (i i' : Inbox) : Prop where
  includedCount : i'.includedCount = i.includedCount
  lastSettledTs : i'.lastSettledTs = i.lastSettledTs
  pending : ∀ n p, i.pending n = some p → i'.pending n = some p
  window : i'.window = i.window
  pendingWindow : i'.pendingWindow = i.pendingWindow

/-- An Inbox settled through `R` survives the call, and it is changed only by a submission or
by a call that acts for `R`. -/
def DrivenBy (s : History) (a : Address × Call) (t : History) (R I : ObjectId) : Prop :=
  ∀ i, s.world.inboxes I = some i → ∃ i', t.world.inboxes I = some i' ∧
    (i' = i ∨ (∃ txBytes, a.2 = .submit I txBytes ∧ OnlyAdds i i') ∨ s.ActsFor a R I)

/-- No call that its gate lets through pairs an Inbox with a Registry other than the one it has
been settled through. A re-submit of the latest height does not count. -/
def Paired (s : History) (a : Address × Call) : Prop :=
  match a.2 with
  | .settleAs registry inbox _ height _ _ => ∀ R r, s.settledThrough inbox = some R →
      s.world.registries registry = some r → height ≠ r.latestHeight →
      CanAct r.uid s.world.now a.1 → registry = R
  | .requestWindowChange registry inbox _ _ ops => ∀ R cap, s.settledThrough inbox = some R →
      s.world.opsCaps ops = some (cap, a.1) → cap.forId = registry → registry = R
  | .cancelWindowChange registry inbox ops => ∀ R cap, s.settledThrough inbox = some R →
      s.world.opsCaps ops = some (cap, a.1) → cap.forId = registry → registry = R
  | _ => True

theorem submit_onlyAdds {i i' : Inbox} {now : Nat} {txBytes : Bytes}
    (h : i.submit now txBytes = .ok i') : OnlyAdds i i' := by
  obtain ⟨-, -, hfree, -, rfl⟩ := Inbox.submit_eq_ok.1 h
  refine ⟨rfl, rfl, fun n p hp => ?_, rfl, rfl⟩
  refine (Function.update_of_ne ?_ _ _).trans hp
  rintro rfl; rw [hfree] at hp; cases hp

/-- A driving call that is paired acts for the Registry of the Inbox. -/
theorem actsFor_of_drives (hw : s.world.WellFormed) (hp : s.Paired a)
    (hR : s.settledThrough I = some R) {i i' : Inbox} (hd : World.Drives s.world a.1 I i i' a.2) :
    (∃ txBytes, a.2 = .submit I txBytes ∧ OnlyAdds i i') ∨ s.ActsFor a R I := by
  obtain ⟨sender, c⟩ := a
  cases hd with
  | submit h => exact .inl ⟨_, rfl, submit_onlyAdds h⟩
  | settle hr hact hnext h =>
    right
    obtain rfl := hp R _ hR hr (by omega) hact
    exact ⟨rfl, rfl, _, hr, hact⟩
  | requestWindow hr hops hid h | cancelWindow hr hops hid h =>
    right
    have hid' := hid.trans (hw.registry _ _ hr).1
    obtain rfl := hp R _ hR hops hid'
    exact ⟨rfl, rfl, _, hops, hid'⟩

/-- **An inbox is driven only by its own chain** along the runs in which no call that its gate
lets through pairs an Inbox with a foreign Registry. -/
theorem inbox_drivenBy_own_registry
    (hs : Reachable Start (guarded Paired (enabled step)) s)
    (hst : guarded Paired (enabled step) s a t) (hR : s.settledThrough I = some R) :
    DrivenBy s a t R I := by
  intro i hi
  have hw := reachable_wellFormed hs.of_guarded
  obtain he | ⟨-, he⟩ | ⟨I', i₀, i', hi₀, he, hd⟩ := World.call_inboxes (step_call hst.2)
  · exact ⟨i, by rw [he]; exact hi, .inl rfl⟩
  · have hne := Nat.ne_of_lt (hw.inbox I i hi)
    exact ⟨i, by rw [he, Function.update_of_ne hne]; exact hi, .inl rfl⟩
  · by_cases hII : I = I'
    · subst hII
      rw [hi] at hi₀; cases hi₀
      refine ⟨i', by rw [he, Function.update_self], ?_⟩
      obtain rfl | hd := hd
      · exact .inl rfl
      · exact .inr (actsFor_of_drives hw hst.1 hR hd)
    · exact ⟨i, by rw [he, Function.update_of_ne hII]; exact hi, .inl rfl⟩

/-- An operator (1) deploys a Registry (0) and an Inbox (2) and settles one block. -/
def operatorRun : List (Address × Call) :=
  [(1, .initializeSettlement), (1, .initializeInbox), (1, .entombSettlerCapOps 1 0),
    (9, .submit 2 [7]), (1, .settleAs 0 2 [1] 1 1000 0)]

/-- The operator settles its next block: the Inbox is driven by its own Registry. -/
theorem inbox_drivenBy_own_registry_operator :
    ∃ s t, Reachable Start (guarded Paired (enabled step)) s ∧ s.settledThrough 2 = some 0 ∧
      enabled step s (1, .settleAs 0 2 [2] 2 2000 1) t ∧
      DrivenBy s (1, .settleAs 0 2 [2] 2 2000 1) t 0 2 := by
  have hrun : Run (guarded Paired (enabled step)) ⟨World.published 5, Table.empty, Table.empty⟩
      operatorRun _ :=
    .cons ⟨trivial, rfl⟩ <| .cons ⟨trivial, rfl⟩ <| .cons ⟨trivial, rfl⟩ <| .cons ⟨trivial, rfl⟩ <|
      .cons ⟨fun R r hR _ _ _ => (nomatch hR), rfl⟩ .nil
  have hreach : Reachable Start (guarded Paired (enabled step)) _ := ⟨_, _, ⟨5, rfl⟩, hrun⟩
  exact ⟨_, _, hreach, rfl, rfl, inbox_drivenBy_own_registry hreach
    ⟨fun R r hR _ _ _ => Option.some.inj hR, rfl⟩ rfl⟩

/-- **A stranger drives the Inbox of the operator.** Address 2 creates and entombs a Registry of
its own (4) and settles its first block through it with the Inbox of the operator: the forced
transaction is pruned although no block contains it. -/
theorem stranger_drives_inbox :
    ¬ ∀ s a t I R, Reachable Start (enabled step) s → enabled step s a t →
      s.settledThrough I = some R → DrivenBy s a t R I := by
  intro h
  have hrun : Run (enabled step) ⟨World.published 5, Table.empty, Table.empty⟩
      (operatorRun ++ [(2, .initializeSettlement), (2, .entombSettlerCapOps 5 4)]) _ :=
    run_of_execAll rfl
  have hd := h _ (2, .settleAs 4 2 [2] 1 2000 1) _ 2 0 ⟨_, _, ⟨5, rfl⟩, hrun⟩ rfl rfl
  obtain ⟨i', hi', hcase⟩ := hd _ rfl
  cases hi'
  obtain heq | ⟨txBytes, hc, -⟩ | ⟨hreg, -⟩ := hcase
  · exact absurd (congrArg Inbox.includedCount heq) (by decide)
  · cases hc
  · exact absurd hreg (by decide)

/-! ## Seeding an authority -/

/-- The rotation record of the object `id`, a Registry or a Vault. -/
def record (w : World) (id : ObjectId) : Option RotationState :=
  ((w.registries id).bind (·.uid.record)).or ((w.vaults id).bind (·.uid.record))

def Owns (w : World) (owner : Address) (cap : ObjectId) : Prop :=
  w.settlerCaps cap = some owner ∨ w.bridgeCaps cap = some owner

/-- The record the call puts on `id` makes the owner of the object's own capability the
authority, and every `OpsCap` of the object is held by that owner. -/
def SeededByOwner (s : History) (t : History) (id : ObjectId) (st : RotationState) : Prop :=
  ∃ cap, s.ownCap id = some cap ∧ Owns s.world st.authority cap ∧
    (∃ o ops, t.world.opsCaps o = some (ops, st.authority) ∧ ops.forId = id) ∧
    ∀ o ops owner, t.world.opsCaps o = some (ops, owner) → ops.forId = id → owner = st.authority

/-- An entombment presents the capability created together with the object. -/
def OwnCapability (s : History) (a : Address × Call) : Prop :=
  match a.2 with
  | .entombSettlerCapOps cap registry => s.ownCap registry = some cap
  | .entombBridgeCapOps cap vault => s.ownCap vault = some cap
  | _ => True

/-- A call that gives an object its record is an entombment of that object by the sender, who
becomes the authority. -/
theorem entomb_of_record (hst : enabled step s a t)
    {st : RotationState} (hbefore : record s.world id = none)
    (hafter : record t.world id = some st) :
    st.authority = a.1 ∧ ∃ cap, Owns s.world a.1 cap ∧
      (a.2 = .entombSettlerCapOps cap id ∨ a.2 = .entombBridgeCapOps cap id) := by
  have hcall := step_call hst
  simp only [record, Option.or_eq_none_iff, Option.or_eq_some_iff, Option.bind_eq_some_iff]
    at hbefore hafter
  obtain ⟨r', hr', hrec⟩ | ⟨-, v', hv', hrec⟩ := hafter
  · obtain ⟨-, -, rfl⟩ | ⟨r, hr, hk | ⟨cap, hc, hcap, -, hu⟩⟩ := World.registry_origin hcall hr'
    · cases hrec
    · have hsome := hk.record
      simp only [hr, Option.bind_some] at hbefore
      simp [hrec, hbefore.1] at hsome
    · rw [hu] at hrec; cases hrec
      exact ⟨rfl, cap, .inl hcap, .inl hc⟩
  · obtain ⟨-, -, rfl⟩ | ⟨v, hv, hk | ⟨cap, hc, hcap, -, hu⟩⟩ := World.vault_origin hcall hv'
    · cases hrec
    · have hsome := hk.record
      simp only [hv, Option.bind_some] at hbefore
      simp [hrec, hbefore.2] at hsome
    · rw [hu] at hrec; cases hrec
      exact ⟨rfl, cap, .inr hcap, .inr hc⟩

/-- An entombment mints the `OpsCap` of the object to its sender. -/
theorem entomb_mints (hst : enabled step s a t) (hw : s.world.WellFormed)
    (hc : (∃ k, a.2 = .entombSettlerCapOps k id) ∨ ∃ k, a.2 = .entombBridgeCapOps k id) :
    t.world.opsCaps s.world.nextId = some (⟨s.world.nextId, id⟩, a.1) := by
  have hcall := step_call hst
  obtain ⟨k, hk⟩ | ⟨k, hk⟩ := hc <;> rw [hk] at hcall
  · simp only [World.call, bind_eq_ok, require_eq_ok, exists_const, World.input_eq_ok,
      Settlement.entombSettlerCapOps_eq_ok, pure_eq_ok] at hcall
    obtain ⟨-, r, hr, _, ⟨-, -, -, rfl⟩, heq⟩ := hcall
    rw [← heq]
    simp only [Function.update_self, (hw.registry _ _ hr).1]
  · simp only [World.call, bind_eq_ok, require_eq_ok, exists_const, World.input_eq_ok,
      Vault.entombBridgeCapOps_eq_ok, pure_eq_ok] at hcall
    obtain ⟨-, v, hv, _, ⟨-, -, -, rfl⟩, heq⟩ := hcall
    rw [← heq]
    simp only [Function.update_self, (hw.vault _ _ hv).1]

/-- **Only an object's own capability seeds its authority** along the runs in which every
entombment presents the capability created together with the object. -/
theorem record_seededByOwner (hs : Reachable Start (guarded OwnCapability (enabled step)) s)
    (hst : guarded OwnCapability (enabled step) s a t) {st : RotationState}
    (hbefore : record s.world id = none) (hafter : record t.world id = some st) :
    SeededByOwner s t id st := by
  have hw := reachable_wellFormed hs.of_guarded
  obtain ⟨hauth, cap, howns, hc⟩ := entomb_of_record hst.2 hbefore hafter
  have hown : s.ownCap id = some cap := by
    have hok := hst.1
    unfold OwnCapability at hok
    obtain hc | hc := hc <;> rw [hc] at hok <;> exact hok
  have hc' : (∃ k, a.2 = .entombSettlerCapOps k id) ∨ ∃ k, a.2 = .entombBridgeCapOps k id :=
    hc.imp (⟨cap, ·⟩) (⟨cap, ·⟩)
  refine ⟨cap, hown, hauth ▸ howns, ⟨_, _, hauth ▸ entomb_mints hst.2 hw hc', rfl⟩, ?_⟩
  rintro o ops owner ho rfl
  obtain ⟨owner₀, ho₀⟩ | ⟨-, rfl, -⟩ := World.call_opsCaps (fun id r hr => (hw.registry id r hr).1)
    (fun id v hv => (hw.vault id v hv).1) (step_call hst.2) ho
  · -- a cap minted before would make the object entombed already
    have hseed := (hw.ops o ops owner₀ ho₀).2
    have hnone : ¬ ∃ st, record s.world ops.forId = some st := by simp [hbefore]
    refine absurd ?_ hnone
    have hcall := step_call hst.2
    obtain hc | hc := hc <;> rw [hc] at hcall <;>
      simp only [World.call, bind_eq_ok, World.input_eq_ok] at hcall
    · obtain ⟨-, -, r, hr, -⟩ := hcall
      obtain ⟨st', hst'⟩ := Option.isSome_iff_exists.1 (hseed.1 r hr)
      exact ⟨st', by simp [record, hr, hst']⟩
    · obtain ⟨-, -, v, hv, -⟩ := hcall
      obtain ⟨st', hst'⟩ := Option.isSome_iff_exists.1 (hseed.2 v hv)
      have hnr : s.world.registries ops.forId = none := by
        rw [Option.eq_none_iff_forall_not_mem]
        exact fun r hr => hw.distinct _ r v hr hv
      exact ⟨st', by simp [record, hv, hnr, hst']⟩
  · exact hauth.symm

/-- The operator deploys a Vault and entombs its own capability in it. -/
theorem record_seededByOwner_operator :
    ∃ s t, Reachable Start (guarded OwnCapability (enabled step)) s ∧
      enabled step s (1, .entombBridgeCapOps 1 0) t ∧
      SeededByOwner s t 0 ⟨1, none, none⟩ := by
  have hrun : Run (guarded OwnCapability (enabled step))
      ⟨World.published 5, Table.empty, Table.empty⟩ [(1, .initializeBridge)] _ :=
    .cons ⟨trivial, rfl⟩ .nil
  have hreach : Reachable Start (guarded OwnCapability (enabled step)) _ := ⟨_, _, ⟨5, rfl⟩, hrun⟩
  exact ⟨_, _, hreach, rfl,
    record_seededByOwner (a := (1, .entombBridgeCapOps 1 0)) hreach ⟨rfl, rfl⟩ rfl rfl⟩

/-- **A stranger takes an un-entombed Vault.** Address 2 creates a Vault of its own (2) and
entombs the capability that came with it (3) in the Vault of the operator (0), where a deposit
is locked: it becomes the authority that releases the reserve. -/
theorem stranger_seeds_vault :
    ¬ ∀ s a t id st, Reachable Start (enabled step) s → enabled step s a t →
      record s.world id = none → record t.world id = some st → SeededByOwner s t id st := by
  intro h
  have hrun : Run (enabled step) ⟨World.published 5, Table.empty, Table.empty⟩
      [(1, .initializeBridge), (9, .onVault 0 (.deposit [7] 100 (List.replicate 20 1))),
        (2, .initializeBridge)] _ := run_of_execAll rfl
  obtain ⟨cap, hcap, howns, -⟩ := h _ (2, .entombBridgeCapOps 3 0) _ 0 ⟨2, none, none⟩
    ⟨_, _, ⟨5, rfl⟩, hrun⟩ rfl rfl rfl
  cases hcap
  obtain howns | howns := howns
  · cases howns
  · exact absurd howns (by decide)

end History

end Podseq.Move
