import Podseq.Lib.Runs
import Podseq.Move.Package

/-! # The registry of settled blocks is append-only

Light clients trust what the Registry says about a height: its blob id and its state root. Two
entry points write them, and each writes one fresh key or nothing: `settle_as` the next height,
`commit_state_root` the root of the tip. Everything else follows from that.
-/
namespace Podseq.Move
open Podseq.Lib Rotation

namespace Registry

variable {r r' r'' : Registry}

/-- What one call can do to the book of a registry: nothing, the next height, or the state root
of the tip. -/
inductive Grows (r r' : Registry) : Prop
  | same (latestHeight : r'.latestHeight = r.latestHeight)
      (commitments : r'.commitments = r.commitments) (stateRoots : r'.stateRoots = r.stateRoots)
  | settled (blobId : Bytes) (latestHeight : r'.latestHeight = r.latestHeight + 1)
      (commitments : r'.commitments =
        Function.update r.commitments (r.latestHeight + 1) (some blobId))
      (stateRoots : r'.stateRoots = r.stateRoots)
  | anchored (stateRoot : Bytes) (len : stateRoot.length = Settlement.stateRootLen)
      (free : r.stateRoots r.latestHeight = none) (latestHeight : r'.latestHeight = r.latestHeight)
      (commitments : r'.commitments = r.commitments)
      (stateRoots : r'.stateRoots =
        Function.update r.stateRoots r.latestHeight (some stateRoot))

theorem Grows.refl (r : Registry) : Grows r r := .same rfl rfl rfl

/-- The heights settled are `1 .. latestHeight`, and a root is anchored at most at one of them
or at the tip of a registry that has settled nothing. -/
structure Dense (r : Registry) : Prop where
  commitments : ∀ h, (r.commitments h).isSome ↔ 1 ≤ h ∧ h ≤ r.latestHeight
  stateRoots : ∀ h stateRoot, r.stateRoots h = some stateRoot →
    stateRoot.length = Settlement.stateRootLen ∧ h ≤ r.latestHeight

/-- Nothing of the book of `r` is changed or lost in `r'`. -/
structure Extends (r r' : Registry) : Prop where
  latestHeight : r.latestHeight ≤ r'.latestHeight
  commitments : ∀ h blobId, r.commitments h = some blobId → r'.commitments h = some blobId
  stateRoots : ∀ h stateRoot, r.stateRoots h = some stateRoot → r'.stateRoots h = some stateRoot

theorem Extends.refl (r : Registry) : Extends r r :=
  ⟨Nat.le_refl _, fun _ _ h => h, fun _ _ h => h⟩

theorem Extends.trans (h : Extends r r') (k : Extends r' r'') : Extends r r'' :=
  ⟨h.latestHeight.trans k.latestHeight, fun n b hb => k.commitments n b (h.commitments n b hb),
    fun n root hr => k.stateRoots n root (h.stateRoots n root hr)⟩

/-- The key a call writes was free, so the book stays dense. -/
theorem Grows.dense (h : Grows r r') (hd : Dense r) : Dense r' := by
  cases h with
  | same hl hc hs =>
    refine ⟨fun n => ?_, fun n root hroot => ?_⟩
    · rw [hc, hl]; exact hd.commitments n
    · rw [hs] at hroot; rw [hl]; exact hd.stateRoots n root hroot
  | settled blobId hl hc hs =>
    refine ⟨fun n => ?_, fun n root hroot => ?_⟩
    · rw [hc, hl]
      by_cases hn : n = r.latestHeight + 1
      · simp [hn]
      · rw [Function.update_of_ne hn, hd.commitments n]; omega
    · rw [hs] at hroot
      obtain ⟨hlen, hle⟩ := hd.stateRoots n root hroot
      exact ⟨hlen, by omega⟩
  | anchored stateRoot hlen _ hl hc hs =>
    refine ⟨fun n => ?_, fun n root hroot => ?_⟩
    · rw [hc, hl]; exact hd.commitments n
    · rw [hs] at hroot
      by_cases hn : n = r.latestHeight
      · subst hn
        rw [Function.update_self, Option.some.injEq] at hroot
        exact ⟨hroot ▸ hlen, hl.ge⟩
      · rw [Function.update_of_ne hn] at hroot
        rw [hl]; exact hd.stateRoots n root hroot

theorem Grows.extends (h : Grows r r') (hd : Dense r) : Extends r r' := by
  cases h with
  | same hl hc hs => exact ⟨hl.ge, fun n b hb => by rw [hc, hb], fun n root hr => by rw [hs, hr]⟩
  | settled blobId hl hc hs =>
    refine ⟨by omega, fun n b hb => ?_, fun n root hr => by rw [hs, hr]⟩
    have hn : n ≤ r.latestHeight := ((hd.commitments n).1 (by simp [hb])).2
    rw [hc, Function.update_of_ne (by omega), hb]
  | anchored stateRoot _ hfree hl hc hs =>
    refine ⟨hl.ge, fun n b hb => by rw [hc, hb], fun n root hr => ?_⟩
    have hn : n ≠ r.latestHeight := by
      rintro rfl
      rw [hfree] at hr; cases hr
    rw [hs, Function.update_of_ne hn, hr]

/-- A root appears for the tip alone. -/
theorem Grows.tip (h : Grows r r') {n : Nat} {stateRoot : Bytes} (hnone : r.stateRoots n = none)
    (hsome : r'.stateRoots n = some stateRoot) :
    n = r.latestHeight ∧ r'.latestHeight = r.latestHeight := by
  cases h with
  | same _ _ hs => rw [hs, hnone] at hsome; cases hsome
  | settled _ _ _ hs => rw [hs, hnone] at hsome; cases hsome
  | anchored root _ _ hl _ hs =>
    refine ⟨?_, hl⟩
    by_contra hn
    rw [hs, Function.update_of_ne hn, hnone] at hsome; cases hsome

end Registry

/-! ## What the entry points do to the book -/

namespace Settlement

variable {registry registry' : Registry} {inbox inbox' : Inbox} {blobId stateRoot : Bytes}
  {now height blockTs inboxCursor : Nat} {sender : Address}

theorem settleAs_grows (h : settleAs registry inbox now blobId height blockTs inboxCursor sender
      = .ok (registry', inbox')) : registry.Grows registry' := by
  obtain ⟨-, ⟨-, rfl, -⟩ | ⟨rfl, -, rfl⟩⟩ := settleAs_cases h
  · exact .refl _
  · exact .settled blobId rfl rfl rfl

theorem commitStateRoot_grows
    (h : commitStateRoot registry now height stateRoot sender = .ok registry') :
    registry.Grows registry' := by
  simp only [commitStateRoot, bind_eq_ok, assertCanAct_eq_ok, require_eq_ok, exists_const] at h
  obtain ⟨-, hlen, rfl, h⟩ := h
  split at h
  · simp only [bind_eq_ok, require_eq_ok, exists_const, pure_eq_ok] at h
    obtain ⟨-, rfl⟩ := h
    exact .refl _
  · rename_i hfree
    cases h
    exact .anchored stateRoot hlen hfree rfl rfl rfl

/-- A retry of the latest height with the blob it holds succeeds and changes nothing. -/
theorem settleAs_retry (hact : CanAct registry.uid now sender)
    (hblob : registry.commitments registry.latestHeight = some blobId) :
    settleAs registry inbox now blobId registry.latestHeight blockTs inboxCursor sender =
      .ok (registry, inbox) := by
  simp only [settleAs, bind_eq_ok, assertCanAct_eq_ok, exists_const]
  refine ⟨hact, ?_⟩
  rw [doSettle, if_pos rfl]
  simp only [bind_eq_ok, Table.borrow_eq_ok, require_eq_ok, exists_const, pure_eq_ok]
  exact ⟨blobId, hblob, rfl, trivial⟩

end Settlement

namespace World

variable {w w' : World} {sender : Address} {c : Call} {R : ObjectId} {r : Registry}

theorem registryCall_grows {r' : Registry} {call : RegistryCall}
    (h : w.registryCall sender r call = .ok r') : r.Grows r' := by
  cases call with
  | commitStateRoot height stateRoot => exact Settlement.commitStateRoot_grows h
  | requestRotationOps toAddr delayMs ops =>
    simp only [registryCall, Settlement.requestRotationOps, bind_eq_ok, pure_eq_ok] at h
    obtain ⟨cap, -, uid, -, rfl⟩ := h
    exact .same rfl rfl rfl
  | cancelRotation =>
    simp only [registryCall, Settlement.cancelRotation, bind_eq_ok, pure_eq_ok] at h
    obtain ⟨uid, -, rfl⟩ := h
    exact .same rfl rfl rfl
  | claimRotation =>
    simp only [registryCall, Settlement.claimRotation, bind_eq_ok, pure_eq_ok] at h
    obtain ⟨uid, -, rfl⟩ := h
    exact .same rfl rfl rfl
  | retirePrevious =>
    simp only [registryCall, Settlement.retirePrevious, bind_eq_ok, pure_eq_ok] at h
    obtain ⟨uid, -, rfl⟩ := h
    exact .same rfl rfl rfl

/-- A registry that exists stays, and its book grows by what one call can add. -/
theorem call_grows (hw : w.WellFormed) (h : w.call sender c = .ok w')
    (hr : w.registries R = some r) : ∃ r', w'.registries R = some r' ∧ r.Grows r' := by
  have hstay : ∀ id r₁ r₁', w.registries id = some r₁ → r₁.Grows r₁' →
      ∃ r', Function.update w.registries id (some r₁') R = some r' ∧ r.Grows r' := by
    intro id r₁ r₁' hr₁ hg
    by_cases hid : R = id
    · subst hid
      rw [hr] at hr₁; cases hr₁
      exact ⟨r₁', Function.update_self .., hg⟩
    · exact ⟨r, (Function.update_of_ne hid _ _).trans hr, .refl r⟩
  cases c with
  | initializeSettlement =>
    cases h
    have hne : R ≠ w.nextId := Nat.ne_of_lt (hw.registry R r hr).2
    exact ⟨r, (Function.update_of_ne hne _ _).trans hr, .refl r⟩
  | entombSettlerCapOps cap registry =>
    simp only [call, bind_eq_ok, require_eq_ok, exists_const, input_eq_ok,
      Settlement.entombSettlerCapOps_eq_ok, pure_eq_ok] at h
    obtain ⟨-, r₁, hr₁, _, ⟨-, -, -, rfl⟩, rfl⟩ := h
    exact hstay registry r₁ _ hr₁ (.same rfl rfl rfl)
  | settleAs registry inbox blobId height blockTs inboxCursor =>
    simp only [call, bind_eq_ok, input_eq_ok, pure_eq_ok] at h
    obtain ⟨r₁, hr₁, i, -, ⟨r₁', i'⟩, hs, rfl⟩ := h
    exact hstay registry r₁ r₁' hr₁ (Settlement.settleAs_grows hs)
  | onRegistry registry call =>
    simp only [World.call, bind_eq_ok, input_eq_ok, pure_eq_ok] at h
    obtain ⟨r₁, hr₁, r₁', hc, rfl⟩ := h
    exact hstay registry r₁ r₁' hr₁ (registryCall_grows hc)
  | _ =>
    have he : w'.registries = w.registries := by
      simp only [call, bind_eq_ok, pure_eq_ok] at h
      grind
    exact ⟨r, he ▸ hr, .refl r⟩

/-! ## Whole runs -/

/-- A transaction of one call: an aborted call leaves the world as it was. -/
def transact (w : World) (a : Address × Call) : World :=
  match w.call a.1 a.2 with
  | .ok w' => w'
  | .error _ => w

/-- A population of any objects and capabilities in which no block is settled yet. -/
structure Unsettled (w : World) : Prop where
  wellFormed : w.WellFormed
  registry : ∀ id r, w.registries id = some r →
    r.latestHeight = 0 ∧ r.commitments = Table.empty ∧ r.stateRoots = Table.empty

/-- The system of the package: transactions of any calls by any senders. -/
def transactions : World → Address × Call → World → Prop := enabled fun w a => some (w.transact a)

theorem transact_cases {a : Address × Call} (h : transactions w a w') :
    w' = w ∨ w.call a.1 a.2 = .ok w' := by
  have h : w.transact a = w' := Option.some.inj h
  unfold transact at h
  split at h
  · rename_i w₁ hok
    subst h
    exact .inr hok
  · exact .inl h.symm

theorem transactions_keep {a : Address × Call} (hw : w.WellFormed) (h : transactions w a w') :
    w'.WellFormed := by
  obtain rfl | hok := transact_cases h
  · exact hw
  · exact hw.call hok

theorem transactions_wellFormed (h : Reachable Unsettled transactions w) : w.WellFormed :=
  h.inv (fun _ hw => hw.wellFormed) fun _ _ _ => transactions_keep

theorem step_grows {a : Address × Call} (hw : w.WellFormed) (h : transactions w a w')
    (hr : w.registries R = some r) : ∃ r', w'.registries R = some r' ∧ r.Grows r' := by
  obtain rfl | hok := transact_cases h
  · exact ⟨r, hr, .refl r⟩
  · exact call_grows hw hok hr

theorem reachable_dense (h : Reachable Unsettled transactions w) (hr : w.registries R = some r) :
    r.Dense := by
  refine h.inv_of (I := fun w => ∀ R r, w.registries R = some r → r.Dense)
    (J := WellFormed) (fun w => transactions_wellFormed) ?_ ?_ R r hr
  · intro w hw id r hr
    obtain ⟨hl, hc, hs⟩ := hw.registry id r hr
    refine ⟨fun n => ?_, fun n root hroot => ?_⟩
    · rw [hc, hl]; simp; omega
    · rw [hs] at hroot; cases hroot
  · intro w a w' hw _ ih hst id r' hr'
    cases hold : w.registries id with
    | some r =>
      obtain ⟨r₁, hr₁, hg⟩ := step_grows hw hst hold
      rw [hr'] at hr₁; cases hr₁
      exact hg.dense (ih id r hold)
    | none =>
      obtain rfl | hok := transact_cases hst
      · rw [hold] at hr'; cases hr'
      · obtain ⟨-, -, rfl⟩ | ⟨r, hr, -⟩ := registry_origin hok hr'
        · refine ⟨fun n => ?_, fun n root hroot => ?_⟩
          · simp [Settlement.initializeRegistry]; omega
          · cases hroot
        · rw [hold] at hr; cases hr

/-- From a dense book on, a run only appends to it. -/
theorem run_extends {as : List (Address × Call)} (hrun : Run transactions w as w')
    (hw : w.WellFormed) (hr : w.registries R = some r) (hd : r.Dense) :
    ∃ r', w'.registries R = some r' ∧ r.Extends r' := by
  induction hrun generalizing r with
  | nil => exact ⟨r, hr, .refl r⟩
  | cons hst _ ih =>
    obtain ⟨r₁, hr₁, hg⟩ := step_grows hw hst hr
    have hw₁ := transactions_keep hw hst
    obtain ⟨r', hr', he⟩ := ih hw₁ hr₁ (hg.dense hd)
    exact ⟨r', hr', (hg.extends hd).trans he⟩

/-- **The settlement registry is append-only.** In every state that transactions of anyone can
reach, the commitments are exactly those of the heights `1 .. latestHeight` and anchored roots
have 32 bytes; no later state changes a blob id or a root; a root appears for the tip only; a
retry of the latest height with its own blob succeeds without a change; an abort changes
nothing. -/
theorem registry_appendOnly (hs : Reachable Unsettled transactions w)
    (hr : w.registries R = some r) :
    (∀ h, (r.commitments h).isSome ↔ 1 ≤ h ∧ h ≤ r.latestHeight) ∧
    (∀ h stateRoot, r.stateRoots h = some stateRoot → stateRoot.length = 32) ∧
    (∀ as w', Run transactions w as w' → ∃ r', w'.registries R = some r' ∧ r.Extends r') ∧
    (∀ a w' r' h stateRoot, transactions w a w' → w'.registries R = some r' →
      r.stateRoots h = none → r'.stateRoots h = some stateRoot →
      h = r.latestHeight ∧ r'.latestHeight = r.latestHeight) ∧
    (∀ sender I i blobId blockTs inboxCursor, w.inboxes I = some i →
      r.commitments r.latestHeight = some blobId → CanAct r.uid w.now sender →
      w.call sender (.settleAs R I blobId r.latestHeight blockTs inboxCursor) = .ok w) ∧
    ∀ sender c e, w.call sender c = .error e → w.transact (sender, c) = w := by
  have hw := transactions_wellFormed hs
  have hd := reachable_dense hs hr
  refine ⟨hd.commitments, fun h root hroot => (hd.stateRoots h root hroot).1,
    fun as w' hrun => run_extends hrun hw hr hd, ?_, ?_, ?_⟩
  · intro a w' r' h root hst hr' hnone hsome
    obtain ⟨r₁, hr₁, hg⟩ := step_grows hw hst hr
    rw [hr'] at hr₁; cases hr₁
    exact hg.tip hnone hsome
  · intro sender I i blobId blockTs inboxCursor hi hblob hact
    simp only [call, bind_eq_ok, input_eq_ok, pure_eq_ok]
    refine ⟨r, hr, i, hi, (r, i), Settlement.settleAs_retry hact hblob, ?_⟩
    rw [← hr, ← hi, Function.update_eq_self, Function.update_eq_self]
  · intro sender c e h
    simp only [transact, h]

theorem published_unsettled (now : Nat) : (published now).Unsettled :=
  ⟨published_wellFormed now, fun id r hr => by cases hr⟩

/-- An operator deploys, settles two blocks and anchors the root of the second. -/
theorem registry_appendOnly_operator :
    ∃ w r, Reachable Unsettled transactions w ∧ w.registries 0 = some r ∧ r.latestHeight = 2 ∧
      ∀ h, (r.commitments h).isSome ↔ 1 ≤ h ∧ h ≤ r.latestHeight := by
  have hreach : Reachable Unsettled transactions _ :=
    ⟨published 5, [(1, .initializeSettlement), (1, .initializeInbox),
      (1, .entombSettlerCapOps 1 0), (1, .settleAs 0 2 [1] 1 1000 0),
      (1, .settleAs 0 2 [2] 2 2000 0),
      (1, .onRegistry 0 (.commitStateRoot 2 (List.replicate 32 0)))],
      published_unsettled 5, run_of_execAll rfl⟩
  exact ⟨_, _, hreach, rfl, rfl, (registry_appendOnly (R := 0) hreach rfl).1⟩

end World

end Podseq.Move
